import Unearth.Stored

/-!
# GIF images

Behind the header come blocks: images and extensions, each with a chain of sub-blocks that state
their own lengths. The walk over them ends at the trailer, whatever bytes the sub-blocks hold.
-/

namespace Unearth.Gif
open Bytes Word Loop Post

section Walk

/-- The bytes of a color table, which is there when the top bit is set. -/
def colorTable (packed : UInt8) : ℕ := if packed &&& 0x80 ≠ 0 then 3 * 2 ^ ((packed &&& 0x07).toNat + 1) else 0

theorem colorTable_le (packed : UInt8) : colorTable packed ≤ 768 := by
  have hlow : (packed &&& 0x07).toNat ≤ 7 := by
    rw [UInt8.toNat_and]
    exact Nat.and_le_right
  unfold colorTable
  split_ifs
  · have hpow := Nat.pow_le_pow_right (show 0 < 2 by decide) (Nat.succ_le_succ hlow)
    omega
  · omega

variable (b : Build) (src : Source) (r : Room)

/-- A sub-block states its length; one without bytes ends the chain. -/
def subblockStep (pos : ℕ) : Exec (ℕ ⊕ Option ℕ) :=
  if r.avail ≤ pos then return .inr none
  else do
    match ← byteFrom b src r pos with
    | none => return .inr none
    | some len =>
      let pos ← plus b pos 1
      if len = 0 then return .inr (some pos)
      else
        let pos ← plus b pos len.toNat
        return if r.avail < pos then .inr none else .inl pos

/-- A place behind another one and inside the room. -/
def Ahead (pos next : ℕ) : Prop := pos < next ∧ next ≤ r.avail

variable {r}

theorem ends_subblockStep (pos : ℕ) : Ends (· = Fault.io) (Sum.elim (Ahead r pos) fun o => ∀ p ∈ o, Ahead r pos p)
    (subblockStep b src r pos) := by
  have hlimit := r.limit_lt
  unfold subblockStep
  refine Ends.ite (fun _ => Ends.ok fun p hp => (by cases hp)) fun hpos => ?_
  have havail : r.avail ≤ r.limit := Nat.sub_le _ _
  refine (ends_byteFrom (not_le.mp hpos)).bind fun x hx => ?_
  cases x with
  | none => exact Ends.ok fun p hp => (by cases hp)
  | some len =>
    have hplace := hx (Option.some_ne_none len)
    have hlen := len.toNat_lt
    dsimp only
    rw [plus_eq (by omega), exec_ok_bind]
    by_cases hzero : len = 0
    · rw [if_pos hzero]
      refine Ends.ok fun p hp => ?_
      cases hp
      exact ⟨Nat.lt_succ_self pos, by omega⟩
    · rw [if_neg hzero, plus_eq (by omega), exec_ok_bind]
      by_cases hend : r.avail < pos + 1 + len.toNat
      · rw [if_pos hend]
        exact Ends.ok fun p hp => (by cases hp)
      · rw [if_neg hend]
        exact Ends.ok ⟨by omega, not_lt.mp hend⟩

variable (r) in
def subblocks : Until Fault ℕ (Option ℕ) where
  step := subblockStep b src r
  measure pos := r.avail - pos
  decreases pos next h := by
    obtain ⟨hlt, hle⟩ : Ahead r pos next := (ends_subblockStep b src pos).of_ok h
    omega

variable (r) in
def gifSkipSubblocks (pos : ℕ) : Exec (Option ℕ) := (subblocks b src r).eval pos

theorem ends_gifSkipSubblocks (pos : ℕ) :
    Ends (· = Fault.io) (fun o => ∀ p ∈ o, Ahead r pos p) (gifSkipSubblocks b src r pos) := by
  refine Until.ends_eval (I := fun p => pos ≤ p) (fun p hp => ?_) le_rfl
  refine (ends_subblockStep b src p).mono fun x hx => ?_
  cases x with
  | inl next => exact hp.trans hx.1.le
  | inr o => exact fun q hq => ⟨hp.trans_lt (hx q hq).1, (hx q hq).2⟩

variable (r)

/-- What comes behind a byte and a chain of sub-blocks. -/
def chainEnd (pos : ℕ) : Exec (ℕ ⊕ Option ℕ) :=
  if r.avail ≤ pos then return .inr none
  else do
    match ← gifSkipSubblocks b src r (← plus b pos 1) with
    | none => return .inr none
    | some pos => return .inl pos

/-- An image descriptor, its color table, its code size and its chain of sub-blocks. -/
def imageEnd (pos : ℕ) : Exec (ℕ ⊕ Option ℕ) := do
  if r.avail < (← plus b pos 9) then return .inr none
  else
    let d ← src.readAt (← plus b r.start pos) 9
    if d.length < 9 then return .inr none
    else chainEnd b src r (← plus b pos (9 + colorTable (byteAt d 8)))

def gifStep (pos : ℕ) : Exec (ℕ ⊕ Option ℕ) :=
  if r.avail ≤ pos then return .inr none
  else do
    match ← byteFrom b src r pos with
    | none => return .inr none
    | some introducer =>
      let pos ← plus b pos 1
      if introducer = 0x3B then return .inr (some pos)
      else if introducer = 0x2C then imageEnd b src r pos
      else if introducer = 0x21 then chainEnd b src r pos
      else return .inr none

variable {r} {pos : ℕ}

theorem ends_chainEnd (pos : ℕ) : Ends (· = Fault.io) (Sum.elim (Ahead r pos) fun o => ∀ p ∈ o, Ahead r pos p)
    (chainEnd b src r pos) := by
  have hlimit := r.limit_lt
  have havail : r.avail ≤ r.limit := Nat.sub_le _ _
  unfold chainEnd
  refine Ends.ite (fun _ => Ends.ok fun p hp => (by cases hp)) fun hpos => ?_
  rw [plus_eq (by omega), exec_ok_bind]
  refine (ends_gifSkipSubblocks b src (pos + 1)).bind fun o ho => ?_
  cases o with
  | none => exact Ends.ok fun p hp => (by cases hp)
  | some p =>
    obtain ⟨hlt, hle⟩ := ho p rfl
    exact Ends.ok ⟨by omega, hle⟩

theorem ends_imageEnd (hpos : pos + 777 < 2 ^ 64) :
    Ends (· = Fault.io) (Sum.elim (Ahead r pos) fun o => ∀ p ∈ o, Ahead r pos p) (imageEnd b src r pos) := by
  have hlimit := r.limit_lt
  unfold imageEnd
  rw [plus_eq (by omega), exec_ok_bind]
  refine Ends.ite (fun _ => Ends.ok fun p hp => (by cases hp)) fun hfit => ?_
  rw [start_plus (by omega) (.inr (by omega)), exec_ok_bind]
  cases hread : src.readAt (r.start + pos) 9 with
  | error e => exact Ends.error (Source.readAt_error hread)
  | ok d =>
    have htable := colorTable_le (byteAt d 8)
    rw [exec_ok_bind]
    refine Ends.ite (fun _ => Ends.ok fun p hp => (by cases hp)) fun _ => ?_
    rw [plus_eq (by omega), exec_ok_bind]
    refine (ends_chainEnd b src _).mono fun x hx => ?_
    cases x with
    | inl next =>
      obtain ⟨hlt, hle⟩ : Ahead r _ next := hx
      exact ⟨by omega, hle⟩
    | inr o =>
      intro p hp
      obtain ⟨hlt, hle⟩ := hx p hp
      exact ⟨by omega, hle⟩

/-- A round ends inside the room, or goes on to a place behind the one where it began. -/
theorem ends_gifStep (pos : ℕ) : Ends (· = Fault.io) (Sum.elim (Ahead r pos) fun o => ∀ p ∈ o, Ahead r pos p)
    (gifStep b src r pos) := by
  have hlimit := r.limit_lt
  have havail : r.avail ≤ r.limit := Nat.sub_le _ _
  unfold gifStep
  refine Ends.ite (fun _ => Ends.ok fun p hp => (by cases hp)) fun hpos => ?_
  refine (ends_byteFrom (not_le.mp hpos)).bind fun x hx => ?_
  cases x with
  | none => exact Ends.ok fun p hp => (by cases hp)
  | some introducer =>
    have hplace := hx (Option.some_ne_none introducer)
    have hweaken {y : Exec (ℕ ⊕ Option ℕ)}
        (h : Ends (· = Fault.io) (Sum.elim (Ahead r (pos + 1)) fun o => ∀ p ∈ o, Ahead r (pos + 1) p) y) :
        Ends (· = Fault.io) (Sum.elim (Ahead r pos) fun o => ∀ p ∈ o, Ahead r pos p) y := by
      refine h.mono fun x hx => ?_
      cases x with
      | inl next => exact ⟨Nat.lt_of_succ_lt hx.1, hx.2⟩
      | inr o => exact fun p hp => ⟨Nat.lt_of_succ_lt (hx p hp).1, (hx p hp).2⟩
    dsimp only
    rw [plus_eq (by omega), exec_ok_bind]
    refine Ends.ite (fun _ => Ends.ok fun p hp => ?_) fun _ => ?_
    · cases hp
      exact ⟨Nat.lt_succ_self pos, by omega⟩
    refine Ends.ite (fun _ => hweaken (ends_imageEnd b src (by omega))) fun _ => ?_
    exact Ends.ite (fun _ => hweaken (ends_chainEnd b src _)) fun _ => Ends.ok fun p hp => (by cases hp)

variable (r)

def gifBlocks : Until Fault ℕ (Option ℕ) where
  step := gifStep b src r
  measure pos := r.avail - pos
  decreases pos next h := by
    obtain ⟨hlt, hle⟩ : Ahead r pos next := (ends_gifStep b src pos).of_ok h
    omega

def gifLength : Exec (Option ℕ) := do
  let hdr ← src.readAt r.start 13
  if hdr.length < 13 ∨ window hdr 0 3 ≠ [0x47, 0x49, 0x46] then return none
  else (gifBlocks b src r).eval (13 + colorTable (byteAt hdr 10))

/-- On any bytes no sum overflows, and what is found is positive and inside the room. -/
theorem ends_gifLength : Ends (· = Fault.io) r.Fits (gifLength b src r) := by
  unfold gifLength
  cases hread : src.readAt r.start 13 with
  | error e => exact Ends.error (Source.readAt_error hread)
  | ok hdr =>
    rw [exec_ok_bind]
    refine Ends.ite (fun _ => Ends.ok r.fits_none) fun _ => ?_
    refine (Until.ends_eval (I := fun _ => True) (Q := fun o => ∀ p ∈ o, 0 < p ∧ p ≤ r.avail) (fun p _ => ?_)
      trivial).mono fun o ho => ?_
    · refine (ends_gifStep b src p).mono fun x hx => ?_
      cases x with
      | inl next => trivial
      | inr o => exact fun q hq => ⟨Nat.zero_lt_of_lt (hx q hq).1, (hx q hq).2⟩
    · cases o with
      | none => exact r.fits_none
      | some p => exact Room.fits_some (ho p rfl).1 (ho p rfl).2

end Walk

section Files

/-- A sub-block of 1 to 255 bytes. -/
abbrev SubBlock := { s : List UInt8 // 0 < s.length ∧ s.length ≤ 255 }

def SubBlock.bytes (s : SubBlock) : List UInt8 := UInt8.ofNat s.val.length :: s.val

def chain (l : List SubBlock) : List UInt8 := l.flatMap SubBlock.bytes ++ [0]

/-- A byte that says whether there is a color table and how long it is, and the table. -/
structure ColorTable where
  packed : UInt8
  colors : List UInt8
  length_eq : colors.length = colorTable packed

inductive Block
  | image (place : List UInt8) (place_length : place.length = 8) (table : ColorTable) (codeSize : UInt8)
      (data : List SubBlock)
  | extension (label : UInt8) (data : List SubBlock)

def Block.bytes : Block → List UInt8
  | .image place _ table codeSize data => 0x2C :: (place ++ [table.packed]) ++ table.colors ++ codeSize :: chain data
  | .extension label data => 0x21 :: label :: chain data

structure File where
  version : List UInt8
  size : List UInt8
  table : ColorTable
  background : UInt8
  aspect : UInt8
  blocks : List Block
  version_length : version.length = 3
  size_length : size.length = 4

def File.header (f : File) : List UInt8 :=
  [0x47, 0x49, 0x46] ++ f.version ++ f.size ++ [f.table.packed, f.background, f.aspect]

def File.bytes (f : File) : List UInt8 := f.header ++ f.table.colors ++ (f.blocks.flatMap Block.bytes ++ [0x3B])

variable {b : Build} {src : Source} {r : Room} {pos : ℕ}

/-- A chain of sub-blocks is skipped, whatever bytes they hold. -/
theorem skip_chain {l : List SubBlock} (hrel : src.Reliable) (h : Stored src (r.start + pos) (chain l))
    (hfit : pos + (chain l).length ≤ r.avail) :
    gifSkipSubblocks b src r pos = .ok (some (pos + (chain l).length)) := by
  have hlimit := r.limit_lt
  have havail : r.avail ≤ r.limit := Nat.sub_le _ _
  induction l generalizing pos with
  | nil =>
    have hlen : (chain []).length = 1 := rfl
    rw [hlen] at hfit ⊢
    refine Until.eval_done ?_
    change subblockStep b src r pos = _
    unfold subblockStep
    rw [if_neg (by omega), h.byteFrom hrel, exec_ok_bind]
    dsimp only
    rw [plus_eq (by omega), exec_ok_bind, if_pos rfl]
    rfl
  | cons s l ih =>
    obtain ⟨hpos, hle⟩ := s.property
    have hcons : chain (s :: l) = UInt8.ofNat s.val.length :: (s.val ++ chain l) := by
      rw [chain, chain, List.flatMap_cons, SubBlock.bytes, List.append_assoc]
      rfl
    have hlen : (chain (s :: l)).length = 1 + s.val.length + (chain l).length := by
      rw [hcons, List.length_cons, List.length_append]
      omega
    rw [hlen] at hfit ⊢
    rw [hcons] at h
    have hbyte : (UInt8.ofNat s.val.length).toNat = s.val.length := by
      rw [UInt8.toNat_ofNat']
      omega
    have hnonzero : UInt8.ofNat s.val.length ≠ 0 := by
      intro hzero
      rw [hzero] at hbyte
      have hnil : (0 : UInt8).toNat = 0 := rfl
      omega
    have hstep : (subblocks b src r).step pos = .ok (.inl (pos + 1 + s.val.length)) := by
      change subblockStep b src r pos = _
      unfold subblockStep
      rw [if_neg (by omega), h.byteFrom hrel, exec_ok_bind]
      dsimp only
      rw [plus_eq (by omega), exec_ok_bind, if_neg hnonzero, hbyte, plus_eq (by omega), exec_ok_bind, if_neg (by omega)]
      rfl
    have hrest : Stored src (r.start + (pos + 1 + s.val.length)) (chain l) := by
      have hright := h.tail.right
      rwa [show r.start + pos + 1 + s.val.length = r.start + (pos + 1 + s.val.length) by omega] at hright
    unfold gifSkipSubblocks
    rw [Until.eval_next hstep]
    have hskip := ih hrest (by omega)
    unfold gifSkipSubblocks at hskip
    rw [hskip]
    exact congrArg (fun n => Except.ok (some n)) (by omega)

theorem chainEnd_chain {l : List SubBlock} (x : UInt8) (hrel : src.Reliable)
    (h : Stored src (r.start + pos) (x :: chain l)) (hfit : pos + (x :: chain l).length ≤ r.avail) :
    chainEnd b src r pos = .ok (.inl (pos + (x :: chain l).length)) := by
  have hlimit := r.limit_lt
  have havail : r.avail ≤ r.limit := Nat.sub_le _ _
  rw [List.length_cons] at hfit ⊢
  have htail : Stored src (r.start + (pos + 1)) (chain l) := h.tail
  unfold chainEnd
  rw [if_neg (by omega), plus_eq (by omega), exec_ok_bind, skip_chain hrel htail (by omega), exec_ok_bind]
  exact congrArg (fun n => Except.ok (Sum.inl n)) (by omega)

/-- The walk goes from a block to what is behind it. -/
theorem gifStep_block (k : Block) (hrel : src.Reliable) (h : Stored src (r.start + pos) k.bytes)
    (hfit : pos + k.bytes.length ≤ r.avail) : gifStep b src r pos = .ok (.inl (pos + k.bytes.length)) := by
  have hlimit := r.limit_lt
  have havail : r.avail ≤ r.limit := Nat.sub_le _ _
  cases k with
  | extension label data =>
    rw [Block.bytes] at h hfit ⊢
    have htail : Stored src (r.start + (pos + 1)) (label :: chain data) := h.tail
    have hlen : (0x21 :: label :: chain data : List UInt8).length = 1 + (label :: chain data).length := by
      rw [List.length_cons]
      omega
    rw [hlen] at hfit ⊢
    unfold gifStep
    rw [if_neg (by omega), h.byteFrom hrel, exec_ok_bind]
    dsimp only
    rw [plus_eq (by omega), exec_ok_bind, if_neg (by decide), if_neg (by decide), if_pos rfl,
      chainEnd_chain label hrel htail (by omega)]
    exact congrArg (fun n => Except.ok (Sum.inl n)) (by omega)
  | image place place_length table codeSize data =>
    have hsplit : (Block.image place place_length table codeSize data).bytes =
        0x2C :: ((place ++ [table.packed]) ++ (table.colors ++ codeSize :: chain data)) := by
      simp [Block.bytes]
    have hdesc : (place ++ [table.packed]).length = 9 := by
      rw [List.length_append, place_length]
      rfl
    have hpacked : byteAt (place ++ [table.packed]) 8 = table.packed := by
      rw [byteAt_append, if_neg (by omega), place_length]
      rfl
    have hlen : (Block.image place place_length table codeSize data).bytes.length =
        1 + 9 + colorTable table.packed + (codeSize :: chain data).length := by
      rw [hsplit, List.length_cons, List.length_append, hdesc, List.length_append, table.length_eq]
      omega
    rw [hlen] at hfit ⊢
    rw [hsplit] at h
    have htable := colorTable_le table.packed
    have hplace : Stored src (r.start + (pos + 1)) (place ++ [table.packed]) := h.tail.left
    have hdata : Stored src (r.start + (pos + 1 + (9 + colorTable table.packed))) (codeSize :: chain data) := by
      have hright := h.tail.right.right
      rwa [hdesc, table.length_eq, show r.start + pos + 1 + 9 + colorTable table.packed =
        r.start + (pos + 1 + (9 + colorTable table.packed)) by omega] at hright
    unfold gifStep
    rw [if_neg (by omega), h.byteFrom hrel, exec_ok_bind]
    dsimp only
    rw [plus_eq (by omega), exec_ok_bind, if_neg (by decide), if_pos rfl]
    unfold imageEnd
    rw [plus_eq (by omega), exec_ok_bind, if_neg (by omega), start_plus (by omega) (.inr (by omega)), exec_ok_bind,
      hplace.readAt hrel hdesc, exec_ok_bind, if_neg (by omega), hpacked, plus_eq (by omega), exec_ok_bind,
      chainEnd_chain codeSize hrel hdata (by omega)]
    exact congrArg (fun n => Except.ok (Sum.inl n)) (by omega)

theorem eval_blocks {l : List Block} (hrel : src.Reliable)
    (h : Stored src (r.start + pos) (l.flatMap Block.bytes ++ [0x3B]))
    (hfit : pos + (l.flatMap Block.bytes ++ [0x3B]).length ≤ r.avail) :
    (gifBlocks b src r).eval pos = .ok (some (pos + (l.flatMap Block.bytes ++ [0x3B]).length)) := by
  have hlimit := r.limit_lt
  have havail : r.avail ≤ r.limit := Nat.sub_le _ _
  induction l generalizing pos with
  | nil =>
    rw [List.flatMap_nil, List.nil_append] at h hfit ⊢
    rw [List.length_singleton] at hfit ⊢
    refine Until.eval_done ?_
    change gifStep b src r pos = _
    unfold gifStep
    rw [if_neg (by omega), h.byteFrom hrel, exec_ok_bind]
    dsimp only
    rw [plus_eq (by omega), exec_ok_bind, if_pos rfl]
    rfl
  | cons k l ih =>
    rw [List.flatMap_cons, List.append_assoc] at h hfit ⊢
    rw [List.length_append] at hfit ⊢
    have hrest := h.right
    rw [Nat.add_assoc] at hrest
    rw [Until.eval_next (gifStep_block k hrel h.left (by omega)), ih hrest (by omega)]
    exact congrArg (fun n => Except.ok (some n)) (by omega)

end Files

/-- The length of an image is found with its trailer, whatever its sub-blocks hold and whatever is
behind it; on any bytes the walk ends without an overflow, and what it finds is positive and inside
the room. -/
theorem gif_length_exact :
    (∀ (b : Build) (src : Source) (r : Room) (f : File), src.Reliable → Stored src r.start f.bytes →
      r.start + f.bytes.length ≤ r.limit → gifLength b src r = .ok (some f.bytes.length)) ∧
    ∀ (b : Build) (src : Source) (r : Room), Ends (· = Fault.io) r.Fits (gifLength b src r) := by
  refine ⟨?_, ends_gifLength⟩
  intro b src r f hrel h hfit
  have hheader : f.header.length = 13 := by
    simp [File.header, f.version_length, f.size_length]
  have hmagic : window f.header 0 3 = [0x47, 0x49, 0x46] := rfl
  have hpacked : byteAt f.header 10 = f.table.packed := by
    rw [File.header, byteAt_append, if_neg (by simp [f.version_length, f.size_length])]
    simp [f.version_length, f.size_length, byteAt]
  rw [File.bytes] at h hfit ⊢
  rw [List.length_append, List.length_append, hheader, f.table.length_eq] at hfit ⊢
  have hblocks := h.right
  rw [List.length_append, hheader, f.table.length_eq] at hblocks
  unfold gifLength
  rw [h.left.left.readAt hrel hheader, exec_ok_bind, if_neg (by rw [hheader, hmagic]; simp), hpacked,
    eval_blocks hrel hblocks (by unfold Room.avail; omega)]

section Sample

def trailerData : SubBlock := ⟨[0x3B, 0x2C, 0x21], by decide, by decide⟩

theorem sample_colors : ([0, 0, 0, 255, 255, 255] : List UInt8).length = colorTable 0x80 := rfl

theorem no_colors : ([] : List UInt8).length = colorTable 0 := rfl

theorem sample_place : ([0, 0, 0, 0, 1, 0, 1, 0] : List UInt8).length = 8 := rfl

/-- An extension and an image, whose data hold a trailer and the two introducers. -/
def sampleFile : File where
  version := [0x38, 0x39, 0x61]
  size := [1, 0, 1, 0]
  table := ⟨0x80, [0, 0, 0, 255, 255, 255], sample_colors⟩
  background := 0
  aspect := 0
  blocks := [.extension 0xFE [trailerData],
    .image [0, 0, 0, 0, 1, 0, 1, 0] sample_place ⟨0, [], no_colors⟩ 2 [trailerData, trailerData]]
  version_length := rfl
  size_length := rfl

def sampleSource : Source where
  data := [7, 7] ++ sampleFile.bytes ++ [0x3B, 0x3B]
  size_lt := by decide

def sampleRoom : Room := ⟨2, 51, by decide, by decide⟩

theorem sample_gif_length : gifLength .debug sampleSource sampleRoom = .ok (some 47) ∧
    Ends (· = Fault.io) sampleRoom.Fits (gifLength .debug sampleSource sampleRoom) := by
  have hrel : sampleSource.Reliable := fun _ _ => rfl
  have hstored : Stored sampleSource sampleRoom.start sampleFile.bytes := (stored_of_data [7, 7] rfl).left
  exact ⟨gif_length_exact.1 .debug sampleSource sampleRoom sampleFile hrel hstored (by decide),
    gif_length_exact.2 .debug sampleSource sampleRoom⟩

end Sample

end Unearth.Gif
