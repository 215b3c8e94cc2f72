import Unearth.FooterSearch
import Unearth.Stored

/-!
# ISO media files

A file is a row of boxes, each with its size and its type. The walk goes from box to box as long as
the types are ones of the outermost level, and so into a file that comes right behind.
-/

namespace Unearth.Mp4
open Bytes Word Loop Post

def FTYP : List UInt8 := [0x66, 0x74, 0x79, 0x70]

/-- The types of the outermost level, of media files and of their relatives. -/
def TOP_LEVEL_BOXES : List (List UInt8) := FTYP :: [
  "styp", "moov", "moof", "mfra", "mdat", "free", "skip",
  "meta", "sidx", "ssix", "prft", "pdin", "emsg", "uuid", "idat",
  "wide", "pnot", "junk", "PICT", "pict", "ctab",
  "jP  ", "jp2h", "jp2c", "jp2i", "jpch", "jplh", "res ", "rreq",
  "ftbl", "xml ", "asoc", "uinf", "dtbl", "mhdr", "cref",
  "JXL ", "jxlc", "jxlp", "jxll", "jxli", "jumb", "Exif", "brob",
  "jbrd"].map ascii

theorem ftyp_eq : ascii "ftyp" = FTYP := by decide

def isTopLevelBox (t : List UInt8) : Bool := t ∈ TOP_LEVEL_BOXES

theorem length_topLevelBox : ∀ t ∈ TOP_LEVEL_BOXES, t.length = 4 := by decide

section Walk

variable (b : Build) (src : Source) (r : Room)

/-- The size that a box states; `room` is what is left for a box without one. -/
def boxSize (hdr : List UInt8) (room : ℕ) : Option ℕ :=
  let size32 := be (window hdr 0 4)
  if size32 = 1 then if hdr.length < 16 then none else some (be (window hdr 8 8))
  else if size32 = 0 then some room
  else some size32

/-- What is behind a box that was read; `sawFtyp` says whether a box was one of the file type. -/
def boxEnd (pos : ℕ) (sawFtyp : Bool) : Option ℕ → (ℕ × Bool) ⊕ (ℕ × Bool)
  | none => .inr (pos, sawFtyp)
  | some size =>
    if size < 8 then .inr (pos, sawFtyp)
    else if r.limit ≤ satAdd pos size then .inr (r.limit, sawFtyp)
    else .inl (satAdd pos size, sawFtyp)

def mp4Step (s : ℕ × Bool) : Exec ((ℕ × Bool) ⊕ (ℕ × Bool)) := do
  if r.limit < (← plus b s.1 8) then return .inr s
  else
    let hdr ← src.readAt s.1 16
    if hdr.length < 8 ∨ ¬ isTopLevelBox (window hdr 4 4) then return .inr s
    else return boxEnd r s.1 (s.2 || window hdr 4 4 = FTYP) (boxSize hdr (r.limit - s.1))

variable {b src r}

/-- A further round begins behind its box and before the limit. -/
theorem boxEnd_next {pos : ℕ} {saw : Bool} {o : Option ℕ} {t : ℕ × Bool} (h : boxEnd r pos saw o = .inl t) :
    pos < t.1 ∧ t.1 < r.limit := by
  have hlimit := r.limit_lt
  cases o with
  | none => cases h
  | some size =>
    unfold boxEnd at h
    dsimp only at h
    split_ifs at h with hsize hend
    cases h
    unfold satAdd at hend ⊢
    omega

theorem mp4Step_next {s t : ℕ × Bool} (h : mp4Step b src r s = .ok (.inl t)) : s.1 < t.1 ∧ t.1 < r.limit := by
  unfold mp4Step at h
  obtain ⟨stop, -, h⟩ := exec_bind_ok h
  split_ifs at h
  · cases h
  · obtain ⟨hdr, -, h⟩ := exec_bind_ok h
    split_ifs at h
    · cases h
    · exact boxEnd_next (Except.ok.inj h)

theorem ends_mp4Step {s : ℕ × Bool} (hs : s.1 ≤ r.limit) : Ends (· = Fault.io)
    (Sum.elim (fun t => s.1 ≤ t.1 ∧ t.1 ≤ r.limit) fun t => s.1 ≤ t.1 ∧ t.1 ≤ r.limit) (mp4Step b src r s) := by
  have hlimit := r.limit_lt
  unfold mp4Step
  rw [plus_eq (by omega), exec_ok_bind]
  refine Ends.ite (fun _ => Ends.ok ⟨le_rfl, hs⟩) fun _ => ?_
  refine (Source.ends_readAt src s.1 16).bind fun hdr _ => ?_
  refine Ends.ite (fun _ => Ends.ok ⟨le_rfl, hs⟩) fun _ => Ends.ok ?_
  cases hnext : boxEnd r s.1 (s.2 || window hdr 4 4 = FTYP) (boxSize hdr (r.limit - s.1)) with
  | inl t => exact ⟨(boxEnd_next hnext).1.le, (boxEnd_next hnext).2.le⟩
  | inr t =>
    cases hsize : boxSize hdr (r.limit - s.1) with
    | none =>
      rw [hsize] at hnext
      cases hnext
      exact ⟨le_rfl, hs⟩
    | some size =>
      rw [hsize] at hnext
      unfold boxEnd at hnext
      dsimp only at hnext
      split_ifs at hnext <;> cases hnext
      · exact ⟨le_rfl, hs⟩
      · exact ⟨hs, le_rfl⟩

variable (b src r)

def mp4Boxes : Until Fault (ℕ × Bool) (ℕ × Bool) where
  step := mp4Step b src r
  measure s := r.limit - s.1
  decreases s t h := by
    obtain ⟨hlt, hle⟩ := mp4Step_next h
    omega

def mp4Length : Exec (Option ℕ) := do
  let (pos, sawFtyp) ← (mp4Boxes b src r).eval (r.start, false)
  let len ← minus b pos r.start
  return if sawFtyp ∧ 8 ≤ len then some len else none

theorem ends_mp4Length : Ends (· = Fault.io) r.Fits (mp4Length b src r) := by
  have hstart := r.start_le
  have hwalk : Ends (· = Fault.io) (fun t : ℕ × Bool => r.start ≤ t.1 ∧ t.1 ≤ r.limit)
      ((mp4Boxes b src r).eval (r.start, false)) := by
    refine Until.ends_eval (I := fun s => r.start ≤ s.1 ∧ s.1 ≤ r.limit) (fun s hs => ?_) ⟨le_rfl, hstart⟩
    refine (ends_mp4Step hs.2).mono fun x hx => ?_
    cases x with
    | inl t => exact ⟨hs.1.trans hx.1, hx.2⟩
    | inr t => exact ⟨hs.1.trans hx.1, hx.2⟩
  unfold mp4Length
  refine hwalk.bind fun t ht => ?_
  dsimp only
  rw [minus_eq ht.1, exec_ok_bind]
  refine Ends.ok ?_
  split_ifs with hlen
  · refine r.fits_some (by omega) ?_
    unfold Room.avail
    omega
  · exact r.fits_none

end Walk

section Files

/-- A box with its size in 32 bits, or in 64 bits behind its type. -/
structure Box where
  kind : List UInt8
  large : Bool
  payload : List UInt8
  kind_known : kind ∈ TOP_LEVEL_BOXES
  size_lt : large = false → 8 + payload.length < 2 ^ 32

namespace Box

def header (x : Box) : List UInt8 :=
  if x.large then toBe 4 1 ++ x.kind ++ toBe 8 (16 + x.payload.length) else toBe 4 (8 + x.payload.length) ++ x.kind

def bytes (x : Box) : List UInt8 := x.header ++ x.payload

theorem length_kind (x : Box) : x.kind.length = 4 := length_topLevelBox x.kind x.kind_known

theorem length_header (x : Box) : x.header.length = if x.large then 16 else 8 := by
  unfold header
  split_ifs <;> simp [x.length_kind]

theorem eight_le_length (x : Box) : 8 ≤ x.bytes.length := by
  rw [bytes, List.length_append, length_header]
  split_ifs <;> omega

/-- What the walk reads of a box, whatever else it reads. -/
theorem read_header (x : Box) (more : List UInt8) (room : ℕ) (hlt : x.bytes.length < 2 ^ 63) :
    window (x.header ++ more) 4 4 = x.kind ∧ boxSize (x.header ++ more) room = some x.bytes.length := by
  have hkind := x.length_kind
  have hlength : x.bytes.length = x.header.length + x.payload.length := List.length_append
  rw [length_header] at hlength
  unfold boxSize header
  by_cases hlarge : x.large
  · rw [if_pos hlarge] at hlength
    rw [if_pos hlarge]
    have hsize : window (toBe 4 1 ++ x.kind ++ toBe 8 (16 + x.payload.length) ++ more) 8 8 =
        toBe 8 (16 + x.payload.length) := by
      have happend := window_append (toBe 4 1 ++ x.kind) (toBe 8 (16 + x.payload.length)) more
      rwa [List.length_append, hkind, length_toBe, length_toBe] at happend
    have htype : window (toBe 4 1 ++ x.kind ++ toBe 8 (16 + x.payload.length) ++ more) 4 4 = x.kind := by
      have happend := window_append (toBe 4 1) x.kind (toBe 8 (16 + x.payload.length) ++ more)
      rwa [hkind, length_toBe, ← List.append_assoc] at happend
    have hone : window (toBe 4 1 ++ x.kind ++ toBe 8 (16 + x.payload.length) ++ more) 0 4 = toBe 4 1 := by
      rw [List.append_assoc, List.append_assoc]
      exact window_whole (length_toBe 4 1) _
    rw [hone, be_toBe (by decide), if_pos rfl, if_neg (by simp [hkind]; omega), hsize, be_toBe (by omega), hlength]
    exact ⟨htype, rfl⟩
  · have hshort := x.size_lt (Bool.not_eq_true _ ▸ hlarge)
    rw [if_neg hlarge] at hlength
    rw [if_neg hlarge]
    have htype : window (toBe 4 (8 + x.payload.length) ++ x.kind ++ more) 4 4 = x.kind := by
      have happend := window_append (toBe 4 (8 + x.payload.length)) x.kind more
      rwa [hkind, length_toBe] at happend
    have hsize : window (toBe 4 (8 + x.payload.length) ++ x.kind ++ more) 0 4 = toBe 4 (8 + x.payload.length) := by
      rw [List.append_assoc]
      exact window_whole (length_toBe 4 _) _
    rw [hsize, be_toBe (by omega), if_neg (by omega), if_neg (by omega), hlength]
    exact ⟨htype, rfl⟩

end Box

/-- A file type box and boxes of other types. -/
structure File where
  first : Box
  rest : List Box
  first_kind : first.kind = FTYP
  rest_kind : ∀ x ∈ rest, x.kind ≠ FTYP

def File.boxes (f : File) : List Box := f.first :: f.rest

def File.bytes (f : File) : List UInt8 := f.boxes.flatMap Box.bytes

theorem File.eight_le_length (f : File) : 8 ≤ f.bytes.length := by
  have height := f.first.eight_le_length
  rw [bytes, boxes, List.flatMap_cons, List.length_append]
  omega

/-- No box of a known type begins at the place. -/
def Unrelated (src : Source) (limit pos : ℕ) : Prop :=
  pos + 8 ≤ min limit src.size → window src.data (pos + 4) 4 ∉ TOP_LEVEL_BOXES

variable {b : Build} {src : Source} {r : Room}

theorem mp4Step_box (x : Box) {pos : ℕ} (saw : Bool) (hrel : src.Reliable) (h : Stored src pos x.bytes)
    (hfit : pos + x.bytes.length ≤ r.limit) :
    mp4Step b src r (pos, saw) = .ok (
      if r.limit = pos + x.bytes.length then .inr (pos + x.bytes.length, saw || x.kind = FTYP)
      else .inl (pos + x.bytes.length, saw || x.kind = FTYP)) := by
  have hlimit := r.limit_lt
  have height := x.eight_le_length
  have hheader := x.length_header
  have hne : x.header ≠ [] := by
    rw [← List.length_pos_iff, hheader]
    split_ifs <;> decide
  have hle : x.header.length ≤ 16 := by
    rw [hheader]
    split_ifs <;> decide
  have hge : 8 ≤ x.header.length := by
    rw [hheader]
    split_ifs <;> decide
  obtain ⟨more, hread, -⟩ := Stored.readAt_prefix (Stored.left h) hrel hne hle
  obtain ⟨hkind, hsize⟩ := x.read_header more (r.limit - pos) (by omega)
  have hknown : isTopLevelBox x.kind = true := decide_eq_true x.kind_known
  unfold mp4Step
  dsimp only
  rw [plus_eq (by omega), exec_ok_bind, if_neg (by omega), hread, exec_ok_bind, hkind, hknown,
    if_neg (by rw [List.length_append]; simp; omega), hsize, boxEnd, if_neg (by omega), satAdd_eq (by omega)]
  by_cases hend : r.limit = pos + x.bytes.length
  · rw [if_pos hend, if_pos hend.le, hend]
    rfl
  · rw [if_neg hend, if_neg (by omega)]
    rfl

theorem mp4Step_unrelated {pos : ℕ} (saw : Bool) (hrel : src.Reliable) (hle : pos ≤ r.limit)
    (h : Unrelated src r.limit pos) : mp4Step b src r (pos, saw) = .ok (.inr (pos, saw)) := by
  have hlimit := r.limit_lt
  unfold mp4Step
  dsimp only
  rw [plus_eq (by omega), exec_ok_bind]
  by_cases hroom : r.limit < pos + 8
  · rw [if_pos hroom]
    rfl
  · rw [if_neg hroom, hrel.readAt (by omega), exec_ok_bind, if_pos]
    · rfl
    rw [length_window]
    by_cases hshort : src.data.length < pos + 8
    · exact .inl (by omega)
    · right
      have hunknown := h (le_min (by omega) (not_lt.mp hshort))
      rw [window_window (by rw [length_window]; omega)]
      simpa [isTopLevelBox] using hunknown

theorem eval_boxes {l : List Box} {pos : ℕ} (saw : Bool) (hrel : src.Reliable)
    (h : Stored src pos (l.flatMap Box.bytes)) (hfit : pos + (l.flatMap Box.bytes).length ≤ r.limit)
    (hend : Unrelated src r.limit (pos + (l.flatMap Box.bytes).length)) :
    (mp4Boxes b src r).eval (pos, saw) =
      .ok (pos + (l.flatMap Box.bytes).length, saw || l.any fun x => x.kind = FTYP) := by
  induction l generalizing pos saw with
  | nil => simpa using Until.eval_done (u := mp4Boxes b src r) (mp4Step_unrelated saw hrel hfit hend)
  | cons x l ih =>
    rw [List.flatMap_cons] at h hfit hend ⊢
    rw [List.length_append, ← Nat.add_assoc] at hfit hend ⊢
    have hstep := mp4Step_box (b := b) (r := r) x saw hrel h.left (by omega)
    rw [List.any_cons, ← Bool.or_assoc]
    by_cases hlast : r.limit = pos + x.bytes.length
    · have hnone : l = [] := by
        cases l with
        | nil => rfl
        | cons y l =>
          have height := y.eight_le_length
          rw [List.flatMap_cons, List.length_append] at hfit
          omega
      subst hnone
      rw [if_pos hlast] at hstep
      simpa using Until.eval_done (u := mp4Boxes b src r) hstep
    · rw [if_neg hlast] at hstep
      rw [Until.eval_next (u := mp4Boxes b src r) hstep]
      exact ih _ h.right hfit hend

end Files

/-- Of a row of files each is given its own length exactly when no other file is right behind it;
on any bytes the walk ends inside the room. -/
theorem mp4_length_iff (b : Build) (src : Source) (r : Room) :
    (∀ (f : File) (behind : List File), src.Reliable → Stored src r.start ((f :: behind).flatMap File.bytes) →
      r.start + ((f :: behind).flatMap File.bytes).length ≤ r.limit →
      Unrelated src r.limit (r.start + ((f :: behind).flatMap File.bytes).length) →
      (mp4Length b src r = .ok (some f.bytes.length) ↔ behind = [])) ∧
    Ends (· = Fault.io) r.Fits (mp4Length b src r) := by
  refine ⟨?_, ends_mp4Length b src r⟩
  intro f behind hrel h hfit hend
  have hboxes : (f :: behind).flatMap File.bytes = ((f :: behind).flatMap File.boxes).flatMap Box.bytes := by
    rw [List.flatMap_assoc]
    rfl
  have hany : ((f :: behind).flatMap File.boxes).any (fun x => x.kind = FTYP) = true := by
    simp [File.boxes, f.first_kind]
  have hown := f.eight_le_length
  have hlength : ((f :: behind).flatMap File.bytes).length =
      f.bytes.length + (behind.flatMap File.bytes).length := by
    rw [List.flatMap_cons, List.length_append]
  rw [hboxes] at h hfit hend
  have hwalk := eval_boxes (b := b) false hrel h hfit hend
  rw [hany, Bool.or_true, ← hboxes, hlength] at hwalk
  have hfound : mp4Length b src r = .ok (some (f.bytes.length + (behind.flatMap File.bytes).length)) := by
    unfold mp4Length
    rw [hwalk, exec_ok_bind]
    dsimp only
    rw [minus_eq (Nat.le_add_right _ _), exec_ok_bind, Nat.add_sub_cancel_left, if_pos ⟨rfl, by omega⟩]
    rfl
  rw [hfound]
  constructor
  · intro heq
    rw [Except.ok.injEq, Option.some.injEq] at heq
    cases behind with
    | nil => rfl
    | cons g rest =>
      have hnext := g.eight_le_length
      rw [List.flatMap_cons, List.length_append] at heq
      omega
  · intro hnil
    rw [hnil]
    rfl

section Sample

def mdat : List UInt8 := [0x6D, 0x64, 0x61, 0x74]

theorem mdat_known : mdat ∈ TOP_LEVEL_BOXES := by decide

theorem ftyp_known : FTYP ∈ TOP_LEVEL_BOXES := List.mem_cons_self

theorem brand_lt : false = false → 8 + ([0x69, 0x73, 0x6F, 0x6D] : List UInt8).length < 2 ^ 32 := by decide

theorem large_ne : true = false → 8 + ([7] : List UInt8).length < 2 ^ 32 := by decide

/-- A file type box and a box with its size in 64 bits. -/
def sampleFile : File where
  first := ⟨FTYP, false, [0x69, 0x73, 0x6F, 0x6D], ftyp_known, brand_lt⟩
  rest := [⟨mdat, true, [7], mdat_known, large_ne⟩]
  first_kind := rfl
  rest_kind := by decide

def sampleSource : Source where
  data := sampleFile.bytes ++ [1, 2, 3]
  size_lt := by decide

def mediaRoom : Room := ⟨0, 32, by decide, by decide⟩

theorem sample_mp4_length : mp4Length .debug sampleSource mediaRoom = .ok (some 29) ∧
    Ends (· = Fault.io) mediaRoom.Fits (mp4Length .debug sampleSource mediaRoom) := by
  have hrel : sampleSource.Reliable := fun _ _ => rfl
  have hstored : Stored sampleSource 0 sampleFile.bytes := List.prefix_append _ _
  have hown : ([sampleFile].flatMap File.bytes) = sampleFile.bytes := List.append_nil _
  have hend : Unrelated sampleSource 32 29 := fun h => absurd h (by decide)
  have hiff := (mp4_length_iff .debug sampleSource mediaRoom).1 sampleFile [] hrel
  rw [hown] at hiff
  exact ⟨(hiff hstored (by decide) hend).mpr rfl, (mp4_length_iff .debug sampleSource mediaRoom).2⟩

def pairSource : Source where
  data := sampleFile.bytes ++ sampleFile.bytes ++ [1, 2, 3]
  size_lt := by decide

/-- The second of two files is taken for a part of the first one. -/
theorem pair_joined : pairSource.Reliable ∧ Unrelated pairSource 61 58 ∧ sampleFile.bytes.length = 29 ∧
    mp4Length .debug pairSource ⟨0, 61, by decide, by decide⟩ = .ok (some 58) := by
  refine ⟨fun _ _ => rfl, fun h => absurd h (by decide), by decide, by decide +kernel⟩

end Sample

end Unearth.Mp4
