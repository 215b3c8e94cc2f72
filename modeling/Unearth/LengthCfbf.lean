import Unearth.Stored

/-!
# Compound files

The table of allocated sectors is itself in sectors: the header lists the first 109 of these, and a
chain of further sectors lists the rest. The highest sector that the table does not call free is the
last one of the file.
-/

namespace Unearth.Cfbf
open Bytes Word Loop Post

def MAGIC : List UInt8 := [0xD0, 0xCF, 0x11, 0xE0, 0xA1, 0xB1, 0x1A, 0xE1]

def FREESECT : ℕ := 0xFFFFFFFF

def ENDOFCHAIN : ℕ := 0xFFFFFFFE

/-- The sectors that the header lists. -/
def HEADER_SLOTS : ℕ := 109

section Walk

def sectorSizeOf : ℕ → Option ℕ
  | 9 => some 512
  | 12 => some 4096
  | _ => none

def entryAt (bytes : List UInt8) (off : ℕ) : ℕ := le (window bytes off 4)

def entriesAt (bytes : List UInt8) (off n : ℕ) : List ℕ := (List.range n).map fun i => entryAt bytes (off + i * 4)

def isSector (s : ℕ) : Bool := s ≠ FREESECT && s ≠ ENDOFCHAIN

/-- The entries of a table that are sectors. -/
def pointers (bytes : List UInt8) (off n : ℕ) : List ℕ := (entriesAt bytes off n).filter isSector

structure Header where
  sectorSize : ℕ
  numFatSectors : ℕ
  numDifatSectors : ℕ
  difat : ℕ
  fatSectors : List ℕ
  deriving DecidableEq

def Header.entriesPerSector (h : Header) : ℕ := h.sectorSize / 4

variable (b : Build) (src : Source) (r : Room)

def readHeader : Exec (Option Header) := do
  let hdr ← src.readAt r.start 512
  if hdr.length < 512 then return none
  else if window hdr 0 8 ≠ MAGIC then return none
  else if byteAt hdr 28 ≠ 0xFE ∨ byteAt hdr 29 ≠ 0xFF then return none
  else
    match sectorSizeOf (le (window hdr 30 2)) with
    | none => return none
    | some sectorSize =>
      let numFatSectors := entryAt hdr 44
      if numFatSectors = 0 then return none
      else if r.avail / sectorSize + 2 < numFatSectors then return none
      else return some {
        sectorSize, numFatSectors
        numDifatSectors := entryAt hdr 72
        difat := entryAt hdr 68
        fatSectors := pointers hdr 76 HEADER_SLOTS }

/-- The sectors follow the header, which has the size of a sector. -/
def readSector (sectorSize s : ℕ) : Exec (List UInt8) := do
  src.readAt (← plus b r.start ((s + 1) * sectorSize)) sectorSize

/-- The sector of the chain that is next, how many have been read, and the sectors that they list. -/
structure Difat where
  difat : ℕ
  seen : ℕ
  fatSectors : List ℕ

def difatStep (h : Header) (s : Difat) : Exec (Difat ⊕ Option (List ℕ)) :=
  if isSector s.difat ∧ s.seen < h.numDifatSectors then do
    let sec ← readSector b src r h.sectorSize s.difat
    if sec.length < h.sectorSize then return .inr none
    else return .inl {
      difat := entryAt sec ((h.entriesPerSector - 1) * 4)
      seen := s.seen + 1
      fatSectors := s.fatSectors ++ pointers sec 0 (h.entriesPerSector - 1) }
  else return .inr (some s.fatSectors)

/-- The sector of the chain that the walk has read when it goes on. -/
theorem difatStep_next {b : Build} {src : Source} {r : Room} {h : Header} {s t : Difat}
    (ht : difatStep b src r h s = .ok (.inl t)) : isSector s.difat ∧ s.seen < h.numDifatSectors ∧
      ∃ sec, readSector b src r h.sectorSize s.difat = .ok sec ∧ h.sectorSize ≤ sec.length ∧
        t = ⟨entryAt sec ((h.entriesPerSector - 1) * 4), s.seen + 1,
          s.fatSectors ++ pointers sec 0 (h.entriesPerSector - 1)⟩ := by
  unfold difatStep at ht
  split_ifs at ht with hmore
  · obtain ⟨sec, hread, ht⟩ := exec_bind_ok ht
    split_ifs at ht with hshort
    · cases ht
    · cases ht
      exact ⟨hmore.1, hmore.2, sec, hread, not_lt.mp hshort, rfl⟩
  · cases ht

def difatWalk (h : Header) : Until Fault Difat (Option (List ℕ)) where
  step := difatStep b src r h
  measure s := h.numDifatSectors - s.seen
  decreases s t ht := by
    obtain ⟨-, hlt, sec, -, -, rfl⟩ := difatStep_next ht
    dsimp only
    omega

def Header.walkStart (h : Header) : Difat := ⟨h.difat, 0, h.fatSectors⟩

/-- The highest sector in use, where the entries begin with that of sector `i`. -/
def maxUsed : ℕ → ℤ → List ℕ → ℤ
  | _, m, [] => m
  | i, m, v :: entries => maxUsed (i + 1) (if v ≠ FREESECT then max m i else m) entries

def fatWalk (h : Header) : List ℕ → ℕ → ℤ → Exec (Option ℤ)
  | [], _, m => return some m
  | s :: fatSectors, fi, m => do
    let sec ← readSector b src r h.sectorSize s
    if sec.length < h.sectorSize then return none
    else fatWalk h fatSectors (fi + 1) (maxUsed (fi * h.entriesPerSector) m (entriesAt sec 0 h.entriesPerSector))

def sizeOf (h : Header) (fatSectors : List ℕ) : Exec (Option ℕ) := do
  match ← fatWalk b src r h fatSectors 0 (-1) with
  | none => return none
  | some m =>
    if m < 0 then return none
    else
      let size := (m.toNat + 2) * h.sectorSize
      return if r.limit < (← plus b r.start size) then none else some size

def cfbfLength : Exec (Option ℕ) := do
  match ← readHeader src r with
  | none => return none
  | some h =>
    match ← (difatWalk b src r h).eval h.walkStart with
    | none => return none
    | some fatSectors =>
      if fatSectors.length ≠ h.numFatSectors then return none else sizeOf b src r h fatSectors

end Walk

section Bounds

variable {b : Build} {src : Source} {r : Room} {h : Header}

theorem entryAt_lt (bytes : List UInt8) (off : ℕ) : entryAt bytes off < 2 ^ 32 := le_window_lt bytes off 4

theorem pointers_lt {bytes : List UInt8} {off n s : ℕ} (hs : s ∈ pointers bytes off n) : s < 2 ^ 32 := by
  obtain ⟨i, -, rfl⟩ := List.mem_map.mp (List.mem_of_mem_filter hs)
  exact entryAt_lt bytes _

theorem length_pointers_le (bytes : List UInt8) (off n : ℕ) : (pointers bytes off n).length ≤ n := by
  refine (List.length_filter_le _ _).trans ?_
  rw [entriesAt, List.length_map, List.length_range]

theorem sectorSizeOf_cases {x n : ℕ} (hn : sectorSizeOf x = some n) : n = 512 ∨ n = 4096 := by
  unfold sectorSizeOf at hn
  split at hn
  · exact .inl (Option.some.inj hn).symm
  · exact .inr (Option.some.inj hn).symm
  · cases hn

/-- What a header states is a word, and its sectors have one of two sizes. -/
structure Header.Sound (h : Header) : Prop where
  size : h.sectorSize = 512 ∨ h.sectorSize = 4096
  numFat_lt : h.numFatSectors < 2 ^ 32
  numDifat_lt : h.numDifatSectors < 2 ^ 32
  difat_lt : h.difat < 2 ^ 32
  fatSectors_lt : ∀ s ∈ h.fatSectors, s < 2 ^ 32
  fatSectors_le : h.fatSectors.length ≤ HEADER_SLOTS

theorem ends_readHeader : Ends (· = Fault.io) (fun o => ∀ h ∈ o, h.Sound) (readHeader src r) := by
  have hnone : ∀ h ∈ (none : Option Header), h.Sound := fun h hh => by cases hh
  unfold readHeader
  refine (Source.ends_readAt src r.start 512).bind fun hdr _ => ?_
  refine Ends.ite (fun _ => Ends.ok hnone) fun _ => Ends.ite (fun _ => Ends.ok hnone) fun _ => ?_
  refine Ends.ite (fun _ => Ends.ok hnone) fun _ => ?_
  cases hsize : sectorSizeOf (le (window hdr 30 2)) with
  | none => exact Ends.ok hnone
  | some sectorSize =>
    refine Ends.ite (fun _ => Ends.ok hnone) fun _ => Ends.ite (fun _ => Ends.ok hnone) fun _ => Ends.ok fun h hh => ?_
    cases hh
    exact ⟨sectorSizeOf_cases hsize, entryAt_lt _ _, entryAt_lt _ _, entryAt_lt _ _, fun s hs => pointers_lt hs,
      length_pointers_le _ _ _⟩

theorem Header.Sound.ends_readSector (hh : h.Sound) {s : ℕ} (hs : s < 2 ^ 32) :
    Ends (· = Fault.io) (fun _ => True) (readSector b src r h.sectorSize s) := by
  have hstart := r.start_le
  have hlimit := r.limit_lt
  have hplace : r.start + (s + 1) * h.sectorSize < 2 ^ 64 := by
    obtain hsize | hsize := hh.size <;> rw [hsize] <;> omega
  unfold readSector
  rw [plus_eq hplace, exec_ok_bind]
  exact (Source.ends_readAt src _ _).mono fun _ _ => trivial

theorem Header.Sound.ends_difatWalk (hh : h.Sound) :
    Ends (· = Fault.io) (fun o => ∀ l ∈ o, ∀ s ∈ l, s < 2 ^ 32) ((difatWalk b src r h).eval h.walkStart) := by
  refine Until.ends_eval (I := fun s => s.difat < 2 ^ 32 ∧ ∀ x ∈ s.fatSectors, x < 2 ^ 32) ?_
    ⟨hh.difat_lt, hh.fatSectors_lt⟩
  intro s hs
  change Ends _ _ (difatStep b src r h s)
  unfold difatStep
  refine Ends.ite (fun _ => ?_) fun _ => Ends.ok ?_
  · refine (hh.ends_readSector hs.1).bind fun sec _ => ?_
    refine Ends.ite (fun _ => Ends.ok fun l hl => by cases hl) fun _ => Ends.ok ⟨entryAt_lt _ _, fun x hx => ?_⟩
    obtain hx | hx := List.mem_append.mp hx
    · exact hs.2 x hx
    · exact pointers_lt hx
  · intro l hl
    cases hl
    exact hs.2

theorem maxUsed_lt {i : ℕ} {m : ℤ} (l : List ℕ) (hm : m < i) : maxUsed i m l < i + l.length := by
  induction l generalizing i m with
  | nil => simpa [maxUsed] using hm
  | cons v l ih =>
    have hnext : (if v ≠ FREESECT then max m (i : ℤ) else m) < ((i + 1 : ℕ) : ℤ) := by
      split_ifs <;> omega
    have hlt := ih hnext
    rw [maxUsed, List.length_cons]
    omega

theorem Header.Sound.ends_fatWalk (hh : h.Sound) (l : List ℕ) {fi : ℕ} {m : ℤ} (hl : ∀ s ∈ l, s < 2 ^ 32)
    (hm : m < (fi * h.entriesPerSector : ℕ)) :
    Ends (· = Fault.io) (fun o => ∀ x ∈ o, x < (((fi + l.length) * h.entriesPerSector : ℕ) : ℤ))
      (fatWalk b src r h l fi m) := by
  induction l generalizing fi m with
  | nil =>
    refine Ends.ok fun x hx => ?_
    cases hx
    exact hm
  | cons s l ih =>
    refine (hh.ends_readSector (hl s List.mem_cons_self)).bind fun sec _ => ?_
    refine Ends.ite (fun _ => Ends.ok fun x hx => by cases hx) fun _ => ?_
    have hnext := maxUsed_lt (entriesAt sec 0 h.entriesPerSector) hm
    rw [entriesAt, List.length_map, List.length_range, ← Nat.cast_add, ← Nat.succ_mul] at hnext
    have hrest := ih (fun x hx => hl x (List.mem_cons_of_mem s hx)) hnext
    rwa [Nat.succ_add_eq_add_succ] at hrest

theorem Header.Sound.ends_sizeOf (hh : h.Sound) {l : List ℕ} (hl : ∀ s ∈ l, s < 2 ^ 32) (hlength : l.length < 2 ^ 32) :
    Ends (· = Fault.io) r.Fits (sizeOf b src r h l) := by
  have hstart := r.start_le
  have hlimit := r.limit_lt
  refine (hh.ends_fatWalk l hl (by omega)).bind fun o ho => ?_
  cases o with
  | none => exact Ends.ok r.fits_none
  | some m =>
    refine Ends.ite (fun _ => Ends.ok r.fits_none) fun hpos => ?_
    have hm := ho m rfl
    rw [Nat.zero_add, Header.entriesPerSector] at hm
    have hsize : 0 < (m.toNat + 2) * h.sectorSize ∧ (m.toNat + 2) * h.sectorSize < 2 ^ 63 := by
      obtain hsize | hsize := hh.size <;> rw [hsize] at hm ⊢ <;> omega
    dsimp only
    rw [plus_eq (by omega), exec_ok_bind]
    refine Ends.ok ?_
    split_ifs with hend
    · exact r.fits_none
    · refine Room.fits_some hsize.1 ?_
      unfold Room.avail
      omega

/-- On any bytes what is found is positive and inside the room. -/
theorem ends_cfbfLength (b : Build) (src : Source) (r : Room) : Ends (· = Fault.io) r.Fits (cfbfLength b src r) := by
  unfold cfbfLength
  refine ends_readHeader.bind fun o ho => ?_
  cases o with
  | none => exact Ends.ok r.fits_none
  | some h =>
    have hh := ho h rfl
    refine hh.ends_difatWalk.bind fun o' ho' => ?_
    cases o' with
    | none => exact Ends.ok r.fits_none
    | some l =>
      refine Ends.ite (fun _ => Ends.ok r.fits_none) fun hcount => ?_
      exact hh.ends_sizeOf (ho' l rfl) (by rw [not_not.mp hcount]; exact hh.numFat_lt)

end Bounds

section Files

/-- Entries, and free ones behind them. -/
def filled (n : ℕ) (l : List ℕ) : List ℕ := l ++ List.replicate (n - l.length) FREESECT

/-- What the sectors of a chain list, `n` entries in each before the number of the next one. -/
def Chained (sectors : List (List UInt8)) (n : ℕ) : List ℕ → List ℕ → Prop
  | [], rest => rest = []
  | d :: difat, rest =>
    entriesAt (sectors.getD d []) 0 n = filled n (rest.take n) ∧
      (∀ next ∈ difat.head?, entryAt (sectors.getD d []) (n * 4) = next) ∧ Chained sectors n difat (rest.drop n)

/-- The table of allocated sectors, with `n` entries in a sector. -/
def fatTable (sectors : List (List UInt8)) (n : ℕ) (fatSectors : List ℕ) : List ℕ :=
  fatSectors.flatMap fun s => entriesAt (sectors.getD s []) 0 n

/-- A file whose last sector is allocated, and none behind it. -/
structure Compound where
  sectorSize : ℕ
  header : List UInt8
  padding : List UInt8
  sectors : List (List UInt8)
  fatSectors : List ℕ
  difatSectors : List ℕ
  header_length : header.length = 512
  padding_length : padding.length = sectorSize - 512
  sector_length : ∀ s ∈ sectors, s.length = sectorSize
  magic : window header 0 8 = MAGIC
  byteOrder : byteAt header 28 = 0xFE ∧ byteAt header 29 = 0xFF
  shift : sectorSizeOf (le (window header 30 2)) = some sectorSize
  sectors_ne : sectors ≠ []
  sectors_le : sectors.length ≤ ENDOFCHAIN
  fatSectors_lt : ∀ s ∈ fatSectors, s < sectors.length
  fatSectors_nodup : fatSectors.Nodup
  difatSectors_lt : ∀ s ∈ difatSectors, s < sectors.length
  fatSectors_count : entryAt header 44 = fatSectors.length
  difatSectors_count : entryAt header 72 = difatSectors.length
  difat_first : ∀ d ∈ difatSectors.head?, entryAt header 68 = d
  slots : entriesAt header 76 HEADER_SLOTS = filled HEADER_SLOTS (fatSectors.take HEADER_SLOTS)
  chained : Chained sectors (sectorSize / 4 - 1) difatSectors (fatSectors.drop HEADER_SLOTS)
  allocated : ∃ v, (fatTable sectors (sectorSize / 4) fatSectors)[sectors.length - 1]? = some v ∧ v ≠ FREESECT
  free : ∀ v ∈ (fatTable sectors (sectorSize / 4) fatSectors).drop sectors.length, v = FREESECT

namespace Compound

variable (f : Compound)

def bytes : List UInt8 := f.header ++ f.padding ++ f.sectors.flatten

def length : ℕ := (f.sectors.length + 1) * f.sectorSize

/-- What is read of the header. -/
def readBack : Header where
  sectorSize := f.sectorSize
  numFatSectors := f.fatSectors.length
  numDifatSectors := f.difatSectors.length
  difat := entryAt f.header 68
  fatSectors := f.fatSectors.take HEADER_SLOTS

end Compound

theorem length_flatten_of {l : List (List UInt8)} {n : ℕ} (h : ∀ s ∈ l, s.length = n) :
    l.flatten.length = l.length * n := by
  induction l with
  | nil => simp
  | cons s l ih =>
    have hrest := ih fun x hx => h x (List.mem_cons_of_mem s hx)
    rw [List.flatten_cons, List.length_append, h s List.mem_cons_self, hrest, List.length_cons]
    ring

theorem isSector_of_lt {s : ℕ} (h : s < ENDOFCHAIN) : isSector s = true := by
  have hend : ENDOFCHAIN = 0xFFFFFFFE := rfl
  have hfree : FREESECT = 0xFFFFFFFF := rfl
  simp [isSector]
  omega

/-- Entries that are sectors are kept, and the free ones are not. -/
theorem filter_filled {n : ℕ} {l : List ℕ} (h : ∀ s ∈ l, s < ENDOFCHAIN) : (filled n l).filter isSector = l := by
  have hl : l.filter isSector = l := List.filter_eq_self.mpr fun s hs => isSector_of_lt (h s hs)
  have hfree : (List.replicate (n - l.length) FREESECT).filter isSector = [] := by
    refine List.filter_eq_nil_iff.mpr fun s hs => ?_
    rw [List.eq_of_mem_replicate hs]
    decide
  rw [filled, List.filter_append, hl, hfree, List.append_nil]

theorem maxUsed_append (i : ℕ) (m : ℤ) (l l' : List ℕ) :
    maxUsed i m (l ++ l') = maxUsed (i + l.length) (maxUsed i m l) l' := by
  induction l generalizing i m with
  | nil => rfl
  | cons v l ih =>
    rw [List.cons_append, maxUsed, ih, maxUsed, List.length_cons]
    congr 1
    omega

theorem maxUsed_free (i : ℕ) (m : ℤ) {l : List ℕ} (h : ∀ v ∈ l, v = FREESECT) : maxUsed i m l = m := by
  induction l generalizing i with
  | nil => rfl
  | cons v l ih =>
    rw [maxUsed, if_neg (not_not.mpr (h v List.mem_cons_self)), ih (i + 1) fun x hx => h x (List.mem_cons_of_mem v hx)]

/-- The last entry in use is the highest one. -/
theorem maxUsed_last {l : List ℕ} {k : ℕ} {v : ℕ} (hv : l[k]? = some v) (hused : v ≠ FREESECT)
    (hfree : ∀ x ∈ l.drop (k + 1), x = FREESECT) : maxUsed 0 (-1) l = k := by
  obtain ⟨hk, rfl⟩ := List.getElem?_eq_some_iff.mp hv
  have hsplit : l = l.take k ++ l[k] :: l.drop (k + 1) := by
    rw [← List.drop_eq_getElem_cons hk, List.take_append_drop]
  have hlength : (l.take k).length = k := List.length_take_of_le hk.le
  have hlt := maxUsed_lt (i := 0) (m := -1) (l.take k) (by decide)
  rw [hlength] at hlt
  rw [hsplit, maxUsed_append, hlength, maxUsed, if_pos hused, maxUsed_free _ _ hfree, Nat.zero_add]
  omega

section Read

variable {b : Build} {src : Source} {r : Room} {f : Compound}

theorem Compound.size_cases (f : Compound) : f.sectorSize = 512 ∨ f.sectorSize = 4096 := sectorSizeOf_cases f.shift

theorem Compound.length_front (f : Compound) : (f.header ++ f.padding).length = f.sectorSize := by
  rw [List.length_append, f.header_length, f.padding_length]
  obtain h | h := f.size_cases <;> rw [h]

theorem Compound.length_bytes (f : Compound) : f.bytes.length = f.length := by
  rw [bytes, List.length_append, f.length_front, length_flatten_of f.sector_length, length]
  ring

/-- No more sectors of the table than the room has. -/
theorem Compound.fatSectors_le (f : Compound) : f.fatSectors.length ≤ f.sectors.length := by
  have hsub : f.fatSectors ⊆ List.range f.sectors.length := fun s hs => List.mem_range.mpr (f.fatSectors_lt s hs)
  have hle := (f.fatSectors_nodup.subperm hsub).length_le
  rwa [List.length_range] at hle

theorem readHeader_stored (hrel : src.Reliable) (h : Stored src r.start f.bytes) (hfit : r.start + f.length ≤ r.limit) :
    readHeader src r = .ok (some f.readBack) := by
  have hheader : Stored src r.start f.header := (Stored.left h).left
  have hused : f.fatSectors ≠ [] := by
    intro hnil
    obtain ⟨v, hv, -⟩ := f.allocated
    rw [hnil] at hv
    cases hv
  have hpos := List.length_pos_of_ne_nil hused
  have hle := f.fatSectors_le
  have hmax : ¬ r.avail / f.sectorSize + 2 < f.fatSectors.length := by
    have havail : (f.sectors.length + 1) * f.sectorSize ≤ r.avail := by
      unfold Compound.length at hfit
      unfold Room.avail
      omega
    have hsize : 0 < f.sectorSize := by
      obtain h | h := f.size_cases <;> rw [h] <;> decide
    have hdiv := (Nat.le_div_iff_mul_le hsize).mpr havail
    omega
  have hslots : pointers f.header 76 HEADER_SLOTS = f.fatSectors.take HEADER_SLOTS := by
    rw [pointers, f.slots]
    exact filter_filled fun s hs => (f.fatSectors_lt s (List.mem_of_mem_take hs)).trans_le f.sectors_le
  unfold readHeader
  rw [hheader.readAt hrel f.header_length, exec_ok_bind, f.header_length, if_neg (lt_irrefl _), f.magic,
    if_neg (not_not.mpr rfl), f.byteOrder.1, f.byteOrder.2, if_neg (by simp), f.shift]
  dsimp only
  rw [f.fatSectors_count, if_neg (by omega), if_neg hmax, hslots, f.difatSectors_count]
  rfl

theorem readSector_stored (hrel : src.Reliable) (h : Stored src r.start f.bytes) {s : ℕ} (hs : s < f.sectors.length) :
    readSector b src r f.sectorSize s = .ok (f.sectors.getD s []) ∧ (f.sectors.getD s []).length = f.sectorSize := by
  have hsectors : Stored src (r.start + f.sectorSize) f.sectors.flatten := by
    have hright := Stored.right h
    rwa [f.length_front] at hright
  have hsize : 0 < f.sectorSize := by
    obtain h | h := f.size_cases <;> rw [h] <;> decide
  have hlength := length_flatten_of f.sector_length
  have hinside : f.sectorSize * s + f.sectorSize ≤ f.sectors.flatten.length := by
    rw [hlength, Nat.mul_comm, ← Nat.succ_mul]
    exact Nat.mul_le_mul_right _ hs
  have hend := hsectors.end_lt (List.ne_nil_of_length_pos (by omega))
  have hplace : r.start + (s + 1) * f.sectorSize = r.start + f.sectorSize + f.sectorSize * s := by ring
  refine ⟨?_, ?_⟩
  · have hplus : plus b r.start ((s + 1) * f.sectorSize) = .ok (r.start + f.sectorSize + f.sectorSize * s) := by
      rw [← hplace]
      exact plus_eq (by omega)
    unfold readSector
    rw [hplus, exec_ok_bind, hrel.readAt (by omega), hsectors.window_eq hinside, window_flatten f.sector_length]
  · rw [List.getD_eq_getElem _ _ hs]
    exact f.sector_length _ (List.getElem_mem hs)

/-- The walk over the chain ends with every sector of the table. -/
theorem eval_difatWalk (hrel : src.Reliable) (h : Stored src r.start f.bytes) {difat rest : List ℕ} {s : Difat}
    (hchained : Chained f.sectors (f.sectorSize / 4 - 1) difat rest) (hdifat : ∀ d ∈ difat, d < f.sectors.length)
    (hrest : ∀ x ∈ rest, x < f.sectors.length) (hfirst : ∀ d ∈ difat.head?, s.difat = d)
    (hseen : s.seen + difat.length = f.difatSectors.length) :
    (difatWalk b src r f.readBack).eval s = .ok (some (s.fatSectors ++ rest)) := by
  have hnum : f.readBack.numDifatSectors = f.difatSectors.length := rfl
  have hper : f.readBack.entriesPerSector = f.sectorSize / 4 := rfl
  induction difat generalizing s rest with
  | nil =>
    have hnone : rest = [] := hchained
    refine Until.eval_done ?_
    change difatStep b src r f.readBack s = _
    unfold difatStep
    rw [List.length_nil] at hseen
    rw [if_neg (by omega), hnone, List.append_nil]
    rfl
  | cons d difat ih =>
    obtain ⟨hlist, hnext, hchained⟩ := hchained
    have hd := hdifat d List.mem_cons_self
    have hplace : s.difat = d := hfirst d rfl
    obtain ⟨hread, hlength⟩ := readSector_stored (b := b) hrel h hd
    have hpointers : pointers (f.sectors.getD d []) 0 (f.sectorSize / 4 - 1) = rest.take (f.sectorSize / 4 - 1) := by
      rw [pointers, hlist]
      exact filter_filled fun x hx => (hrest x (List.mem_of_mem_take hx)).trans_le f.sectors_le
    have hstep : (difatWalk b src r f.readBack).step s = .ok (.inl
        ⟨entryAt (f.sectors.getD d []) ((f.sectorSize / 4 - 1) * 4), s.seen + 1,
          s.fatSectors ++ rest.take (f.sectorSize / 4 - 1)⟩) := by
      change difatStep b src r f.readBack s = _
      unfold difatStep
      rw [hplace, if_pos ⟨isSector_of_lt (hd.trans_le f.sectors_le), by rw [hnum, ← hseen, List.length_cons]; omega⟩]
      change (readSector b src r f.sectorSize d >>= _) = _
      rw [hread, exec_ok_bind]
      change (if (f.sectors.getD d []).length < f.sectorSize then _ else _) = _
      rw [if_neg (by omega), hper, hpointers]
      rfl
    rw [Until.eval_next hstep, ih hchained (fun x hx => hdifat x (List.mem_cons_of_mem d hx))
      (fun x hx => hrest x (List.mem_of_mem_drop hx)) hnext (by rw [← hseen, List.length_cons]; dsimp only; omega)]
    rw [List.append_assoc, List.take_append_drop]

theorem fatWalk_stored (hrel : src.Reliable) (h : Stored src r.start f.bytes) {l : List ℕ}
    (hl : ∀ s ∈ l, s < f.sectors.length) (fi : ℕ) (m : ℤ) :
    fatWalk b src r f.readBack l fi m =
      .ok (some (maxUsed (fi * (f.sectorSize / 4)) m (fatTable f.sectors (f.sectorSize / 4) l))) := by
  induction l generalizing fi m with
  | nil => rfl
  | cons s l ih =>
    obtain ⟨hread, hlength⟩ := readSector_stored (b := b) hrel h (hl s List.mem_cons_self)
    have hentries : (entriesAt (f.sectors.getD s []) 0 (f.sectorSize / 4)).length = f.sectorSize / 4 := by
      rw [entriesAt, List.length_map, List.length_range]
    have htable : fatTable f.sectors (f.sectorSize / 4) (s :: l) =
      entriesAt (f.sectors.getD s []) 0 (f.sectorSize / 4) ++ fatTable f.sectors (f.sectorSize / 4) l := rfl
    rw [fatWalk]
    change (readSector b src r f.sectorSize s >>= _) = _
    rw [hread, exec_ok_bind]
    change (if (f.sectors.getD s []).length < f.sectorSize then _ else _) = _
    rw [if_neg (by omega), ih (fun x hx => hl x (List.mem_cons_of_mem s hx)), htable, maxUsed_append, hentries,
      ← Nat.succ_mul]
    rfl

end Read

end Files

/-- The length of a file is found; on any bytes what is found is positive and inside the room. -/
theorem cfbf_length_exact :
    (∀ (b : Build) (src : Source) (r : Room) (f : Compound), src.Reliable → Stored src r.start f.bytes →
      r.start + (f.sectors.length + 1) * f.sectorSize ≤ r.limit →
      cfbfLength b src r = .ok (some ((f.sectors.length + 1) * f.sectorSize))) ∧
    ∀ (b : Build) (src : Source) (r : Room), Ends (· = Fault.io) r.Fits (cfbfLength b src r) := by
  refine ⟨?_, ends_cfbfLength⟩
  intro b src r f hrel h hfit
  have hlimit := r.limit_lt
  have hpos := List.length_pos_of_ne_nil f.sectors_ne
  have hwalk := eval_difatWalk (b := b) (s := f.readBack.walkStart) hrel h f.chained f.difatSectors_lt
    (fun x hx => f.fatSectors_lt x (List.mem_of_mem_drop hx)) f.difat_first (Nat.zero_add _)
  have hall : f.readBack.walkStart.fatSectors ++ f.fatSectors.drop HEADER_SLOTS = f.fatSectors :=
    List.take_append_drop _ _
  obtain ⟨v, hv, hused⟩ := f.allocated
  have hlast : maxUsed 0 (-1) (fatTable f.sectors (f.sectorSize / 4) f.fatSectors) = (f.sectors.length - 1 : ℕ) := by
    refine maxUsed_last hv hused ?_
    rw [Nat.sub_add_cancel hpos]
    exact f.free
  have hsize : ((f.sectors.length - 1 : ℕ) : ℤ).toNat + 2 = f.sectors.length + 1 := by
    rw [Int.toNat_natCast]
    omega
  unfold cfbfLength
  rw [readHeader_stored hrel h hfit, exec_ok_bind]
  dsimp only
  rw [hwalk, exec_ok_bind, hall]
  dsimp only
  have hcount : ¬ f.fatSectors.length ≠ f.readBack.numFatSectors := not_not.mpr rfl
  have hsectorSize : f.readBack.sectorSize = f.sectorSize := rfl
  rw [if_neg hcount]
  unfold sizeOf
  rw [fatWalk_stored hrel h f.fatSectors_lt, exec_ok_bind, Nat.zero_mul, hlast]
  dsimp only
  rw [if_neg (by omega), hsize, hsectorSize, plus_eq (by omega), exec_ok_bind, if_neg (by omega)]
  rfl

section Sample

def sampleHeader : List UInt8 := MAGIC ++ List.replicate 16 0 ++ [0x3E, 0, 3, 0, 0xFE, 0xFF, 9, 0] ++
  List.replicate 12 0 ++ [1, 0, 0, 0] ++ List.replicate 20 0 ++ [0xFE, 0xFF, 0xFF, 0xFF, 0, 0, 0, 0] ++
  [0, 0, 0, 0] ++ List.replicate 432 0xFF

/-- The table holds itself and one more sector. -/
def sampleTable : List UInt8 := [0xFD, 0xFF, 0xFF, 0xFF, 0xFE, 0xFF, 0xFF, 0xFF] ++ List.replicate 504 0xFF

def sampleSectors : List (List UInt8) := [sampleTable, List.replicate 512 0x41]

theorem length_sampleHeader : sampleHeader.length = 512 := by
  simp only [sampleHeader, List.length_append, List.length_replicate]
  rfl

theorem sample_sectors : ∀ s ∈ sampleSectors, s.length = 512 := by
  simp only [sampleSectors, sampleTable, List.forall_mem_cons, List.length_append, List.length_replicate]
  exact ⟨rfl, trivial, List.forall_mem_nil _⟩

theorem sample_entries : entriesAt sampleHeader 76 HEADER_SLOTS = filled HEADER_SLOTS [0] ∧
    fatTable sampleSectors 128 [0] = [0xFFFFFFFD, 0xFFFFFFFE] ++ List.replicate 126 FREESECT := by
  decide +kernel

def sampleFile : Compound where
  sectorSize := 512
  header := sampleHeader
  padding := []
  sectors := sampleSectors
  fatSectors := [0]
  difatSectors := []
  header_length := length_sampleHeader
  padding_length := rfl
  sector_length := sample_sectors
  magic := rfl
  byteOrder := ⟨rfl, rfl⟩
  shift := rfl
  sectors_ne := List.cons_ne_nil _ _
  sectors_le := by decide
  fatSectors_lt := by decide
  fatSectors_nodup := List.nodup_singleton 0
  difatSectors_lt := fun s hs => absurd hs List.not_mem_nil
  fatSectors_count := rfl
  difatSectors_count := rfl
  difat_first := fun d hd => by cases hd
  slots := sample_entries.1
  chained := rfl
  allocated := ⟨0xFFFFFFFE, by rw [sample_entries.2]; rfl, by decide⟩
  free := by
    rw [sample_entries.2]
    exact fun v hv => List.eq_of_mem_replicate hv

theorem length_sample_lt : ([5] ++ sampleFile.bytes ++ [7]).length < 2 ^ 63 := by decide +kernel

def sampleSource : Source where
  data := [5] ++ sampleFile.bytes ++ [7]
  size_lt := length_sample_lt

def sampleRoom : Room := ⟨1, 1538, by decide, by decide⟩

theorem sample_cfbf_length : cfbfLength .release sampleSource sampleRoom = .ok (some 1536) := by
  have hrel : sampleSource.Reliable := fun _ _ => rfl
  have hdata : sampleSource.data = [5] ++ sampleFile.bytes ++ [7] := rfl
  have hstored : Stored sampleSource 1 sampleFile.bytes := (stored_of_data [5] hdata).left
  have hfound := cfbf_length_exact.1 .release sampleSource sampleRoom sampleFile hrel hstored (by decide)
  have hlength : (sampleFile.sectors.length + 1) * sampleFile.sectorSize = 1536 := by decide
  rw [hlength] at hfound
  exact hfound

end Sample

end Unearth.Cfbf
