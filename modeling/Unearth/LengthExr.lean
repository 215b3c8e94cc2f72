import Unearth.Stored

/-!
# OpenEXR images

Behind the header is a table with the offset of every chunk. Its first entry tells where the table
ends and its last one where the last chunk begins, as long as the chunks are stored in the order of
the table.
-/

namespace Unearth.Exr
open Bytes Word Post

def MAGIC : List UInt8 := [0x76, 0x2F, 0x31, 0x01]

def HEADER_BUFFER : ℕ := 64 * 1024

/-- The attributes that are passed at most, and the end of their list. -/
def ROUNDS : ℕ := 1000

def MAX_CHUNKS : ℕ := 2 ^ 24

section Walk

/-- The first zero byte from a place on. -/
def findNul (bytes : List UInt8) (start : ℕ) : Exec (Option ℕ) :=
  if bytes.length < start then .error .slice
  else .ok (((bytes.drop start).findIdx? (· = 0)).map (start + ·))

/-- Passes an attribute: its name, its type and its size. -/
def passAttribute (bytes : List UInt8) (p : ℕ) : Exec (Option ℕ) := do
  match ← findNul bytes p with
  | none => return none
  | some nameEnd =>
    match ← findNul bytes (nameEnd + 1) with
    | none => return none
    | some typeEnd =>
      let sizeAt := typeEnd + 1
      return if bytes.length < sizeAt + 4 then none else some (sizeAt + 4 + le (window bytes sizeAt 4))

/-- The end of the list of attributes, when it is among the first `n` rounds. -/
def headerEnd (bytes : List UInt8) : ℕ → ℕ → Exec (Option ℕ)
  | 0, _ => return none
  | n + 1, p =>
    if bytes.length ≤ p then return none
    else if byteAt bytes p = 0 then return some (p + 1)
    else do
      match ← passAttribute bytes p with
      | none => return none
      | some p => headerEnd bytes n p

variable (b : Build) (src : Source) (r : Room)

/-- The end of the chunk that the last entry of the table points at. -/
def chunksEnd (tableAt : ℕ) : Exec (Option ℕ) := do
  let o ← src.readAt (← plus b r.start tableAt) 8
  if o.length < 8 then return none
  else
    let firstOff := le o
    if firstOff ≤ tableAt ∨ (firstOff - tableAt) % 8 ≠ 0 then return none
    else
      let numChunks := (firstOff - tableAt) / 8
      if numChunks = 0 ∨ MAX_CHUNKS < numChunks then return none
      else
        let lastEntry := satAdd tableAt (satMul (numChunks - 1) 8)
        let lo ← src.readAt (← plus b r.start lastEntry) 8
        if lo.length < 8 then return none
        else
          let lastOff := le lo
          if lastOff < firstOff then return none
          else
            let c ← src.readAt (← plus b r.start lastOff) 8
            if c.length < 8 then return none
            else
              let stop := satAdd (satAdd lastOff 8) (le (window c 4 4))
              return if r.limit < satAdd r.start stop then none else some stop

def exrLength : Exec (Option ℕ) := do
  let head ← src.readAt r.start 8
  if head.length < 8 ∨ window head 0 4 ≠ MAGIC then return none
  else
    let versionWord := le (window head 4 4)
    if versionWord &&& 0xFF ≠ 2 ∨ versionWord &&& (0x200 ||| 0x800 ||| 0x1000) ≠ 0 then return none
    else
      let buf ← src.readAt r.start HEADER_BUFFER
      match ← headerEnd buf ROUNDS 8 with
      | none => return none
      | some tableAt => chunksEnd b src r tableAt

end Walk

section Bounds

variable {bytes : List UInt8} {E : Fault → Prop}

theorem ends_findNul {start : ℕ} (h : start ≤ bytes.length) :
    Ends E (fun o => ∀ i ∈ o, start ≤ i ∧ i < bytes.length) (findNul bytes start) := by
  unfold findNul
  rw [if_neg (not_lt.mpr h)]
  refine Ends.ok fun i hi => ?_
  obtain ⟨k, hk, rfl⟩ := Option.map_eq_some_iff.mp hi
  have hlt := (List.findIdx?_eq_some_iff_getElem.mp hk).1
  rw [List.length_drop] at hlt
  omega

/-- No search begins behind what was read, and a list that ends does so inside it. -/
theorem ends_headerEnd (n : ℕ) {p : ℕ} : Ends E (fun o => ∀ i ∈ o, p < i ∧ i ≤ bytes.length) (headerEnd bytes n p) := by
  induction n generalizing p with
  | zero => exact Ends.ok fun i hi => (by cases hi)
  | succ n ih =>
    unfold headerEnd
    refine Ends.ite (fun _ => Ends.ok fun i hi => (by cases hi)) fun hp => ?_
    refine Ends.ite (fun _ => Ends.ok fun i hi => ?_) fun _ => ?_
    · cases hi
      omega
    have hpass : Ends E (fun o => ∀ q ∈ o, p < q) (passAttribute bytes p) := by
      unfold passAttribute
      refine (ends_findNul (by omega)).bind fun name hname => ?_
      cases name with
      | none => exact Ends.ok fun i hi => (by cases hi)
      | some nameEnd =>
        obtain ⟨hlo, hhi⟩ := hname nameEnd rfl
        refine (ends_findNul (by omega)).bind fun kind hkind => ?_
        cases kind with
        | none => exact Ends.ok fun i hi => (by cases hi)
        | some typeEnd =>
          obtain ⟨hlo', hhi'⟩ := hkind typeEnd rfl
          refine Ends.ok fun q hq => ?_
          split_ifs at hq
          · cases hq
          · cases hq
            omega
    refine hpass.bind fun o ho => ?_
    cases o with
    | none => exact Ends.ok fun i hi => (by cases hi)
    | some q =>
      refine ih.mono fun o' ho' i hi => ?_
      have hlt := ho q rfl
      have hle := ho' i hi
      omega

theorem satAdd_pos {x y : ℕ} (h : 0 < x ∨ 0 < y) : 0 < satAdd x y := by
  unfold satAdd
  omega

theorem ends_plus (b : Build) (x y : ℕ) :
    Ends (fun e => e = .io ∨ e = .overflow) (fun _ => True) (plus b x y) := by
  unfold plus
  refine Ends.ite (fun _ => trivial) fun _ => ?_
  cases b with
  | debug => exact Ends.error (.inr rfl)
  | release => trivial

theorem ends_read (src : Source) (off len : ℕ) :
    Ends (fun e => e = .io ∨ e = .overflow) (fun _ => True) (src.readAt off len) := by
  cases h : src.readAt off len with
  | error e => exact Ends.error (.inl (Source.readAt_error h))
  | ok bytes => trivial

theorem ends_chunksEnd (b : Build) (src : Source) (r : Room) (tableAt : ℕ) :
    Ends (fun e => e = .io ∨ e = .overflow) r.Fits (chunksEnd b src r tableAt) := by
  have hlimit := r.limit_lt
  unfold chunksEnd
  refine (ends_plus b r.start tableAt).bind fun _ _ => (ends_read ..).bind fun o _ => ?_
  refine Ends.ite (fun _ => Ends.ok r.fits_none) fun _ => ?_
  refine Ends.ite (fun _ => Ends.ok r.fits_none) fun hfirst => ?_
  refine Ends.ite (fun _ => Ends.ok r.fits_none) fun _ => ?_
  refine (ends_plus b r.start _).bind fun _ _ => (ends_read ..).bind fun lo _ => ?_
  refine Ends.ite (fun _ => Ends.ok r.fits_none) fun _ => ?_
  refine Ends.ite (fun _ => Ends.ok r.fits_none) fun _ => ?_
  refine (ends_plus b r.start _).bind fun _ _ => (ends_read ..).bind fun c _ => ?_
  refine Ends.ite (fun _ => Ends.ok r.fits_none) fun _ => Ends.ok ?_
  split_ifs with hend
  · exact r.fits_none
  · exact r.fits_satAdd (satAdd_pos (.inl (satAdd_pos (.inr (by decide))))) hend

/-- On any bytes what is found is positive and inside the room. -/
theorem ends_exrLength (b : Build) (src : Source) (r : Room) :
    Ends (fun e => e = .io ∨ e = .overflow) r.Fits (exrLength b src r) := by
  unfold exrLength
  refine (ends_read ..).bind fun head _ => ?_
  refine Ends.ite (fun _ => Ends.ok r.fits_none) fun _ => ?_
  refine Ends.ite (fun _ => Ends.ok r.fits_none) fun _ => ?_
  refine (ends_read ..).bind fun buf _ => (ends_headerEnd ROUNDS).bind fun o _ => ?_
  cases o with
  | none => exact Ends.ok r.fits_none
  | some tableAt => exact ends_chunksEnd b src r tableAt

end Bounds

section Files

structure Attribute where
  name : List UInt8
  kind : List UInt8
  value : List UInt8
  name_ne : name ≠ []
  name_text : 0 ∉ name
  kind_text : 0 ∉ kind
  value_lt : value.length < 2 ^ 32

def Attribute.bytes (a : Attribute) : List UInt8 :=
  a.name ++ 0 :: (a.kind ++ 0 :: (toLe 4 a.value.length ++ a.value))

/-- The bytes of a row of lines. -/
structure Chunk where
  y : List UInt8
  data : List UInt8
  y_length : y.length = 4
  data_lt : data.length < 2 ^ 32

def Chunk.bytes (c : Chunk) : List UInt8 := c.y ++ toLe 4 c.data.length ++ c.data

/-- The offsets of chunks that are stored one behind the other. -/
def offsets (start : ℕ) : List Chunk → List ℕ
  | [] => []
  | c :: l => start :: offsets (start + c.bytes.length) l

/-- The chunks in the order in which they are stored, which is by `y` or the other way round. -/
structure Image where
  version : List UInt8
  attributes : List Attribute
  decreasing : Bool
  chunks : List Chunk
  version_length : version.length = 4
  version_two : le version &&& 0xFF = 2
  single_part : le version &&& (0x200 ||| 0x800 ||| 0x1000) = 0
  header_le : 8 + (attributes.flatMap Attribute.bytes).length + 1 ≤ HEADER_BUFFER
  chunks_range : 1 ≤ chunks.length ∧ chunks.length ≤ MAX_CHUNKS

namespace Image

variable (f : Image)

def header : List UInt8 := MAGIC ++ f.version ++ (f.attributes.flatMap Attribute.bytes ++ [0])

def firstChunk : ℕ := f.header.length + 8 * f.chunks.length

/-- The offset of every chunk, by `y`. -/
def table : List ℕ :=
  if f.decreasing then (offsets f.firstChunk f.chunks).reverse else offsets f.firstChunk f.chunks

def bytes : List UInt8 := f.header ++ (f.table.flatMap (toLe 8) ++ f.chunks.flatMap Chunk.bytes)

end Image

variable {bytes rest : List UInt8} {p : ℕ}

theorem drop_add {l m : List UInt8} (h : bytes.drop p = l ++ m) : bytes.drop (p + l.length) = m := by
  rw [← List.drop_drop, h, List.drop_left]

theorem findNul_text {l : List UInt8} (h : bytes.drop p = l ++ 0 :: rest) (hl : 0 ∉ l) :
    findNul bytes p = .ok (some (p + l.length)) := by
  have hlength := congrArg List.length h
  rw [List.length_drop, List.length_append, List.length_cons] at hlength
  have hnone : l.findIdx? (fun x => decide (x = 0)) = none := by
    rw [List.findIdx?_eq_none_iff]
    intro x hx
    exact decide_eq_false fun hzero => hl (hzero ▸ hx)
  unfold findNul
  rw [if_neg (by omega), h, List.findIdx?_append, hnone, List.findIdx?_cons]
  simp

theorem passAttribute_eq (a : Attribute) (h : bytes.drop p = a.bytes ++ rest) :
    passAttribute bytes p = .ok (some (p + a.bytes.length)) := by
  have hsize : (toLe 4 a.value.length).length = 4 := length_toLe 4 _
  have hname : bytes.drop p = a.name ++ 0 :: (a.kind ++ 0 :: (toLe 4 a.value.length ++ a.value ++ rest)) := by
    rw [h]
    simp [Attribute.bytes]
  have hkind := drop_add (l := a.name ++ [0]) (m := a.kind ++ 0 :: (toLe 4 a.value.length ++ a.value ++ rest))
    (by rw [hname]; simp)
  have hvalue := drop_add (l := a.kind ++ [0]) (m := toLe 4 a.value.length ++ (a.value ++ rest)) (by rw [hkind]; simp)
  simp only [List.length_append, List.length_singleton] at hkind hvalue
  have hlength := congrArg List.length hvalue
  rw [List.length_drop, List.length_append, hsize] at hlength
  have hbytes : a.bytes.length = a.name.length + 1 + (a.kind.length + 1) + 4 + a.value.length := by
    simp [Attribute.bytes]
    omega
  have hfield : window bytes (p + (a.name.length + 1) + (a.kind.length + 1)) 4 = toLe 4 a.value.length := by
    rw [window, hvalue, List.take_left' hsize]
  unfold passAttribute
  rw [findNul_text hname a.name_text, exec_ok_bind]
  dsimp only
  rw [show p + a.name.length + 1 = p + (a.name.length + 1) from rfl, findNul_text hkind a.kind_text, exec_ok_bind]
  dsimp only
  rw [show p + (a.name.length + 1) + a.kind.length + 1 = p + (a.name.length + 1) + (a.kind.length + 1) from rfl, hfield,
    le_toLe a.value_lt, if_neg (by omega), hbytes]
  exact congrArg (fun n => Except.ok (some n)) (by omega)

/-- A round for each attribute. -/
theorem headerEnd_skip {l : List Attribute} {k : ℕ} (h : bytes.drop p = l.flatMap Attribute.bytes ++ rest) :
    headerEnd bytes (l.length + k) p = headerEnd bytes k (p + (l.flatMap Attribute.bytes).length) := by
  induction l generalizing p with
  | nil => rw [List.length_nil, Nat.zero_add, List.flatMap_nil, List.length_nil, Nat.add_zero]
  | cons a l ih =>
    rw [List.flatMap_cons, List.append_assoc] at h
    have hnext := ih (drop_add h)
    obtain ⟨x, name, hname⟩ := List.exists_cons_of_ne_nil a.name_ne
    have hfirst : byteAt bytes p = x := by
      have hdrop := byteAt_drop bytes p 0
      rw [h, Attribute.bytes, hname] at hdrop
      exact hdrop.symm
    have hnonzero : x ≠ 0 := fun hzero => a.name_text (by rw [hname, hzero]; exact List.mem_cons_self)
    have hlength := congrArg List.length h
    rw [List.length_drop, List.length_append, Attribute.bytes, hname, List.length_append, List.length_cons] at hlength
    rw [List.length_cons, Nat.add_right_comm, headerEnd, if_neg (by omega), hfirst, if_neg hnonzero,
      passAttribute_eq a h, exec_ok_bind, List.flatMap_cons, List.length_append, ← Nat.add_assoc]
    exact hnext

theorem headerEnd_list {l : List Attribute} (h : bytes.drop p = l.flatMap Attribute.bytes ++ 0 :: rest)
    (hlt : l.length < ROUNDS) : headerEnd bytes ROUNDS p = .ok (some (p + (l.flatMap Attribute.bytes).length + 1)) := by
  obtain ⟨k, hk⟩ : ∃ k, ROUNDS = l.length + (k + 1) := ⟨ROUNDS - l.length - 1, by omega⟩
  have hzero := drop_add h
  have hlength := congrArg List.length hzero
  rw [List.length_drop, List.length_cons] at hlength
  have hfirst : byteAt bytes (p + (l.flatMap Attribute.bytes).length) = 0 := by
    have hdrop := byteAt_drop bytes (p + (l.flatMap Attribute.bytes).length) 0
    rw [hzero] at hdrop
    exact hdrop.symm
  rw [hk, headerEnd_skip h, headerEnd, if_neg (by omega), hfirst, if_pos rfl]
  rfl

theorem headerEnd_long {l : List Attribute} (h : bytes.drop p = l.flatMap Attribute.bytes ++ rest)
    (hle : ROUNDS ≤ l.length) : headerEnd bytes ROUNDS p = .ok none := by
  have hsplit : bytes.drop p = (l.take ROUNDS).flatMap Attribute.bytes ++
      ((l.drop ROUNDS).flatMap Attribute.bytes ++ rest) := by
    rw [h, ← List.append_assoc, ← List.flatMap_append, List.take_append_drop]
  have hskip := headerEnd_skip (k := 0) hsplit
  rw [List.length_take, min_eq_left hle, Nat.add_zero] at hskip
  rw [hskip]
  rfl

theorem length_offsets (start : ℕ) (l : List Chunk) : (offsets start l).length = l.length := by
  induction l generalizing start with
  | nil => rfl
  | cons c l ih => rw [offsets, List.length_cons, ih, List.length_cons]

theorem offsets_concat (start : ℕ) (l : List Chunk) (c : Chunk) :
    offsets start (l ++ [c]) = offsets start l ++ [start + (l.flatMap Chunk.bytes).length] := by
  induction l generalizing start with
  | nil => rfl
  | cons d l ih =>
    rw [List.cons_append, offsets, ih, offsets, List.cons_append, List.flatMap_cons, List.length_append, Nat.add_assoc]

theorem length_table (l : List ℕ) : (l.flatMap (toLe 8)).length = 8 * l.length := by
  induction l with
  | nil => rfl
  | cons x l ih =>
    rw [List.flatMap_cons, List.length_append, length_toLe, ih, List.length_cons]
    omega

variable {b : Build} {src : Source} {r : Room}

theorem length_head (c : Chunk) : (c.y ++ toLe 4 c.data.length).length = 8 := by
  rw [List.length_append, c.y_length, length_toLe]

/-- The table and the chunks behind it, in the order of the table. -/
theorem chunksEnd_chunks {l : List Chunk} {tableAt : ℕ} (hrel : src.Reliable) (hne : l ≠ [])
    (hmax : l.length ≤ MAX_CHUNKS)
    (h : Stored src (r.start + tableAt)
      ((offsets (tableAt + 8 * l.length) l).flatMap (toLe 8) ++ l.flatMap Chunk.bytes))
    (hfit : r.start + (tableAt + 8 * l.length + (l.flatMap Chunk.bytes).length) ≤ r.limit) :
    chunksEnd b src r tableAt = .ok (some (tableAt + 8 * l.length + (l.flatMap Chunk.bytes).length)) := by
  have hlimit := r.limit_lt
  have hchunks := h.right
  rw [length_table, length_offsets] at hchunks
  have hentry : Stored src (r.start + tableAt) (toLe 8 (tableAt + 8 * l.length)) := by
    obtain ⟨c, rest, rfl⟩ := List.exists_cons_of_ne_nil hne
    have htable := h.left
    rw [offsets, List.flatMap_cons] at htable
    exact htable.left
  obtain ⟨init, c, rfl⟩ := (List.eq_nil_or_concat l).resolve_left hne
  rw [List.concat_eq_append] at *
  have hcount : (init ++ [c]).length = init.length + 1 := List.length_append
  have hbytes : ((init ++ [c]).flatMap Chunk.bytes).length =
      (init.flatMap Chunk.bytes).length + (8 + c.data.length) := by
    rw [List.flatMap_append, List.length_append, List.flatMap_singleton, Chunk.bytes, List.length_append, length_head]
  have hlast : Stored src (r.start + (tableAt + init.length * 8))
      (toLe 8 (tableAt + 8 * (init ++ [c]).length + (init.flatMap Chunk.bytes).length)) := by
    have htable := h.left
    rw [offsets_concat, List.flatMap_append] at htable
    have hright := htable.right
    rw [length_table, length_offsets, List.flatMap_singleton] at hright
    rwa [show r.start + tableAt + 8 * init.length = r.start + (tableAt + init.length * 8) by omega] at hright
  have hhead : Stored src (r.start + (tableAt + 8 * (init ++ [c]).length + (init.flatMap Chunk.bytes).length))
      (c.y ++ toLe 4 c.data.length) := by
    rw [List.flatMap_append, List.flatMap_singleton, Chunk.bytes] at hchunks
    have hright := hchunks.right.left
    rwa [Nat.add_assoc, Nat.add_assoc, ← Nat.add_assoc tableAt] at hright
  have hsize : window (c.y ++ toLe 4 c.data.length) 4 4 = toLe 4 c.data.length := by
    rw [window, List.drop_left' c.y_length, List.take_of_length_le (length_toLe 4 _).le]
  rw [hbytes] at hfit ⊢
  rw [hcount] at hmax hfit hentry hlast hhead ⊢
  unfold MAX_CHUNKS at hmax
  unfold chunksEnd
  rw [plus_eq (by omega), exec_ok_bind, hentry.readAt hrel (length_toLe 8 _), exec_ok_bind, length_toLe,
    if_neg (by omega), le_toLe (by omega), if_neg (by omega),
    show (tableAt + 8 * (init.length + 1) - tableAt) / 8 = init.length + 1 by omega,
    if_neg (by unfold MAX_CHUNKS; omega)]
  dsimp only
  rw [Nat.add_sub_cancel, satMul_eq (by omega), satAdd_eq (by omega), plus_eq (by omega), exec_ok_bind,
    hlast.readAt hrel (length_toLe 8 _), exec_ok_bind, length_toLe, if_neg (by omega), le_toLe (by omega),
    if_neg (by omega), plus_eq (by omega), exec_ok_bind, hhead.readAt hrel (length_head c), exec_ok_bind, length_head,
    if_neg (by omega), hsize, le_toLe c.data_lt, satAdd_eq (y := 8) (by omega),
    satAdd_eq (y := c.data.length) (by omega), satAdd_eq (by omega), if_neg (by omega)]
  exact congrArg (fun n => Except.ok (some n)) (by omega)

namespace Image

variable {f : Image}

theorem length_header : f.header.length = 8 + (f.attributes.flatMap Attribute.bytes).length + 1 := by
  simp only [header, List.length_append, f.version_length, List.length_singleton]
  change 4 + 4 + _ = _
  omega

theorem length_bytes (f : Image) :
    f.bytes.length = f.header.length + 8 * f.chunks.length + (f.chunks.flatMap Chunk.bytes).length := by
  have htable : f.table.length = f.chunks.length := by
    unfold table
    split_ifs
    · rw [List.length_reverse, length_offsets]
    · exact length_offsets _ _
  rw [bytes, List.length_append, List.length_append, Exr.length_table, htable, Nat.add_assoc]

/-- The reads of the header, up to the list of the attributes. -/
theorem exrLength_header (hrel : src.Reliable) (h : Stored src r.start f.bytes) :
    ∃ more, exrLength b src r = (do
      match ← headerEnd (f.header ++ more) ROUNDS 8 with
      | none => return none
      | some tableAt => chunksEnd b src r tableAt) ∧
      (f.header ++ more).drop 8 = f.attributes.flatMap Attribute.bytes ++ 0 :: more := by
  have hfront : (MAGIC ++ f.version).length = 8 := by
    rw [List.length_append, f.version_length]
    rfl
  have hmagic : window (MAGIC ++ f.version) 0 4 = MAGIC := window_whole rfl _
  have hversion : window (MAGIC ++ f.version) 4 4 = f.version := by
    rw [window, show List.drop 4 (MAGIC ++ f.version) = f.version from rfl,
      List.take_of_length_le f.version_length.le]
  have hheader : Stored src r.start f.header := h.left
  have hlength := f.length_header
  have hle := f.header_le
  obtain ⟨more, hread, -⟩ := hheader.readAt_prefix hrel (n := HEADER_BUFFER)
    (List.ne_nil_of_length_pos (by omega)) (by omega)
  refine ⟨more, ?_, ?_⟩
  · unfold exrLength
    rw [Stored.readAt (Stored.left hheader) hrel hfront, exec_ok_bind, hmagic, hfront, if_neg (by simp), hversion,
      if_neg (by rw [f.version_two, f.single_part]; simp), hread, exec_ok_bind]
  · rw [header, List.append_assoc, List.drop_left' hfront, List.append_assoc]
    rfl

end Image

end Files

/-- The length of an image of up to 999 attributes whose chunks are stored in the order of the table
is found; on any bytes what is found is positive and inside the room. -/
theorem exr_length_exact :
    (∀ (b : Build) (src : Source) (r : Room) (f : Image), src.Reliable → Stored src r.start f.bytes →
      r.start + f.bytes.length ≤ r.limit → f.attributes.length < ROUNDS →
      f.decreasing = false ∨ f.chunks.length = 1 → exrLength b src r = .ok (some f.bytes.length)) ∧
    ∀ (b : Build) (src : Source) (r : Room) (n : ℕ), exrLength b src r = .ok (some n) →
      0 < n ∧ r.start + n ≤ r.limit := by
  refine ⟨?_, fun b src r n h => (ends_exrLength b src r).of_ok h n rfl⟩
  intro b src r f hrel h hfit hfew horder
  obtain ⟨more, hlength, hlist⟩ := Image.exrLength_header (b := b) hrel h
  have htable : f.table = offsets f.firstChunk f.chunks := by
    unfold Image.table
    obtain horder | horder := horder
    · rw [horder]
      rfl
    · obtain ⟨c, hc⟩ := List.length_eq_one_iff.mp horder
      rw [hc]
      simp [offsets]
  rw [hlength, headerEnd_list hlist hfew, exec_ok_bind, ← f.length_header]
  rw [f.length_bytes] at hfit ⊢
  have hrest := h.right
  rw [htable] at hrest
  have hne : f.chunks ≠ [] := List.ne_nil_of_length_pos f.chunks_range.1
  exact chunksEnd_chunks hrel hne f.chunks_range.2 hrest hfit

/-- The search for the end of the header is given up. -/
theorem exrLength_long (b : Build) (src : Source) (r : Room) (f : Image) (hrel : src.Reliable)
    (h : Stored src r.start f.bytes) (hmany : ROUNDS ≤ f.attributes.length) : exrLength b src r = .ok none := by
  obtain ⟨more, hlength, hlist⟩ := Image.exrLength_header (b := b) hrel h
  rw [hlength, headerEnd_long hlist hmany]
  rfl

section Sample

theorem zero_not_mem : (0 : UInt8) ∉ [0x61] := by decide

def sampleAttribute : Attribute := ⟨[0x61], [0x61], [], by decide, zero_not_mem, zero_not_mem, by decide⟩

def sampleImage : Image where
  version := [2, 4, 0, 0]
  attributes := [sampleAttribute, sampleAttribute]
  decreasing := false
  chunks := [⟨[0, 0, 0, 0], [8, 9], rfl, by decide⟩, ⟨[1, 0, 0, 0], [3], rfl, by decide⟩]
  version_length := rfl
  version_two := rfl
  single_part := rfl
  header_le := by decide
  chunks_range := by decide

def sampleSource : Source where
  data := [5] ++ sampleImage.bytes ++ [5, 5]
  size_lt := by decide

def sampleRoom : Room := ⟨1, 62, by decide, by decide⟩

theorem sample_exr_length : exrLength .debug sampleSource sampleRoom = .ok (some 60) ∧ 0 < 60 ∧ 1 + 60 ≤ 62 := by
  have hrel : sampleSource.Reliable := fun _ _ => rfl
  have hstored : Stored sampleSource 1 sampleImage.bytes := (stored_of_data [5] rfl).left
  have hlength : exrLength .debug sampleSource sampleRoom = .ok (some 60) :=
    exr_length_exact.1 .debug sampleSource sampleRoom sampleImage hrel hstored (by decide) (by decide) (.inl rfl)
  exact ⟨hlength, exr_length_exact.2 .debug sampleSource sampleRoom 60 hlength⟩

theorem length_attributes (n : ℕ) : ((List.replicate n sampleAttribute).flatMap Attribute.bytes).length = 8 * n := by
  induction n with
  | zero => rfl
  | succ n ih =>
    rw [List.replicate_succ, List.flatMap_cons, List.length_append, ih]
    change 8 + 8 * n = _
    omega

theorem long_header_le :
    8 + ((List.replicate 1000 sampleAttribute).flatMap Attribute.bytes).length + 1 ≤ HEADER_BUFFER := by
  rw [length_attributes]
  decide

/-- An image with a thousand attributes, of eight bytes each. -/
def longImage : Image where
  version := [2, 0, 0, 0]
  attributes := List.replicate 1000 sampleAttribute
  decreasing := false
  chunks := [⟨[0, 0, 0, 0], [3], rfl, by decide⟩]
  version_length := rfl
  version_two := rfl
  single_part := rfl
  header_le := long_header_le
  chunks_range := by decide

theorem length_longImage : longImage.bytes.length = 8026 := by
  have hattributes : longImage.attributes = List.replicate 1000 sampleAttribute := rfl
  have hcount : longImage.chunks.length = 1 := rfl
  have hchunks : (longImage.chunks.flatMap Chunk.bytes).length = 9 := rfl
  rw [Image.length_bytes, Image.length_header, hattributes, length_attributes, hcount, hchunks]

theorem length_longImage_lt : longImage.bytes.length < 2 ^ 63 := by
  rw [length_longImage]
  decide

def longSource : Source where
  data := longImage.bytes
  size_lt := length_longImage_lt

/-- Its header is below the size of the buffer, but has more attributes than are passed. -/
theorem long_header_refused : longSource.Reliable ∧ longSource.data = longImage.bytes ∧
    longImage.bytes.length = 8026 ∧ exrLength .debug longSource ⟨0, 8026, by decide, by decide⟩ = .ok none := by
  have hrel : longSource.Reliable := fun _ _ => rfl
  have hmany : ROUNDS ≤ (List.replicate 1000 sampleAttribute).length := by
    rw [List.length_replicate]
    exact le_rfl
  have hdata : longSource.data = longImage.bytes := rfl
  have hstored : Stored longSource 0 longImage.bytes := by
    unfold Stored
    rw [List.drop_zero, hdata]
  exact ⟨hrel, hdata, length_longImage, exrLength_long .debug longSource _ longImage hrel hstored hmany⟩

end Sample

end Unearth.Exr
