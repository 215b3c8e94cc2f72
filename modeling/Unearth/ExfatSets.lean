import Unearth.ExfatDirectory
import Unearth.FatLongNames
import Unearth.Lib.Loop
import Unearth.Slices

/-!
# The sets of entries that a directory of an exFAT volume is made of

A file is laid out as a set of entries that follow one another, and other entries may stand
between the sets. The reader goes by the number of entries that the first one of a set states.
-/

namespace Unearth.Exfat
open Lines Bytes Utf16 Loop
open Fat (unitBytes unitsOf_unitBytes length_unitBytes)

section Checked

variable (bytes : List UInt8)

def entryAt (i : ℕ) : Exec (List UInt8) := slice bytes (entrySize * i) entrySize

/-- The entries of a name from the `j`-th entry on, `n` of them at most. -/
def nameEntriesAt : ℕ → ℕ → Exec (List (List UInt8))
  | _, 0 => return []
  | j, n + 1 => do
    let ne ← entryAt bytes j
    if typeCode ne ≠ typeName then return []
    else return ne :: (← nameEntriesAt (j + 1) n)

/-- The item at the `i`-th of `total` entries, if there is one, and the entry to go on from. -/
def itemAt (total i : ℕ) : Exec (Option Item × ℕ) := do
  let e ← entryAt bytes i
  let secondaryCount := (byteAt e 1).toNat
  if typeCode e ≠ typeFile then return (none, i + 1)
  else if secondaryCount = 0 ∨ total ≤ i + secondaryCount then return (none, i + 1)
  else
    let stream ← entryAt bytes (i + 1)
    if typeCode stream ≠ typeStream then return (none, i + 1)
    else
      let item := itemOf i e stream (← nameEntriesAt bytes (i + 2) (secondaryCount - 1))
      if item.name = [] then return (none, i + 1 + secondaryCount)
      else return (some item, i + 1 + secondaryCount)

structure SetReader where
  i : ℕ
  items : List Item

def setStep (s : SetReader) : Ctl SetReader (Exec (List Item)) :=
  let total := bytes.length / entrySize
  if total ≤ s.i then .done (.ok s.items)
  else
    match itemAt bytes total s.i with
    | .error e => .done (.error e)
    | .ok (item, next) => .next ⟨next, s.items ++ item.toList⟩

theorem itemAt_next {total i next : ℕ} {item : Option Item} (h : itemAt bytes total i = .ok (item, next)) :
    i < next := by
  unfold itemAt at h
  obtain ⟨e, -, h⟩ := exec_bind_ok h
  dsimp only at h
  split_ifs at h
  · cases h
    exact Nat.lt_succ_self i
  · cases h
    exact Nat.lt_succ_self i
  · obtain ⟨stream, -, h⟩ := exec_bind_ok h
    split_ifs at h
    · cases h
      exact Nat.lt_succ_self i
    · obtain ⟨names, -, h⟩ := exec_bind_ok h
      split_ifs at h
      · cases h
        omega
      · cases h
        omega

theorem setStep_next {s s' : SetReader} (h : setStep bytes s = .next s') :
    s.i < bytes.length / entrySize ∧ s.i < s'.i := by
  unfold setStep at h
  dsimp only at h
  split at h
  · cases h
  · rename_i hlt
    split at h
    · cases h
    · rename_i item next hitem
      cases h
      exact ⟨not_le.mp hlt, itemAt_next bytes hitem⟩

/-- Every round goes on from a later entry. -/
def setLoop : While SetReader (Exec (List Item)) where
  body := setStep bytes
  measure s := bytes.length / entrySize - s.i
  decreases s s' h := by
    obtain ⟨hlt, hnext⟩ := setStep_next bytes h
    omega

/-- The items of a directory, each of whose entries is a slice that is checked. -/
def parseEntrySetsAt : Exec (List Item) := (setLoop bytes).eval ⟨0, []⟩

end Checked

section Inside

variable {bytes : List UInt8} {i : ℕ}

theorem length_chunksExact (n : ℕ) (bytes : List UInt8) : (chunksExact n bytes).length = bytes.length / n := by
  rw [chunksExact, List.length_map, List.length_range]

/-- Every entry that is asked for lies in the directory. -/
theorem entryAt_eq (hi : i < bytes.length / entrySize) : ∃ e, entryAt bytes i = .ok e ∧
    (chunksExact entrySize bytes).drop i = e :: (chunksExact entrySize bytes).drop (i + 1) := by
  have hlen : i < (chunksExact entrySize bytes).length := by rwa [length_chunksExact]
  refine ⟨window bytes (entrySize * i) entrySize, slice_eq ?_, ?_⟩
  · exact (chunksExact_get (by decide) (List.getElem?_eq_getElem hlen)).1
  · rw [List.drop_eq_getElem_cons hlen]
    simp only [chunksExact, List.getElem_map, List.getElem_range]

theorem nameEntriesAt_eq {j n : ℕ} (h : j + n ≤ bytes.length / entrySize) : nameEntriesAt bytes j n =
    .ok ((((chunksExact entrySize bytes).drop j).take n).takeWhile (typeCode · = typeName)) := by
  induction n generalizing j with
  | zero =>
    rw [List.take_zero]
    rfl
  | succ n ih =>
    obtain ⟨e, he, hdrop⟩ := entryAt_eq (show j < bytes.length / entrySize by omega)
    rw [nameEntriesAt, he, exec_ok_bind, hdrop, List.take_succ_cons, List.takeWhile_cons]
    by_cases hname : typeCode e = typeName
    · rw [if_neg (not_not.mpr hname), ih (by omega), if_pos (decide_eq_true hname)]
      rfl
    · rw [if_pos hname, if_neg (by simpa using hname)]
      rfl

theorem itemsFrom_skip (n i : ℕ) (entries : List (List UInt8)) :
    itemsFrom n i entries = itemsFrom 0 (i + n) (entries.drop n) := by
  induction n generalizing i entries with
  | zero => rfl
  | succ n ih =>
    cases entries with
    | nil => rfl
    | cons e rest =>
      rw [itemsFrom, ih, List.drop_succ_cons]
      congr 1
      omega

/-- The entries behind the names of a set do not change its item. -/
theorem itemOf_takeWhile (i : ℕ) (file stream : List UInt8) (names : List (List UInt8)) :
    itemOf i file stream (names.takeWhile (typeCode · = typeName)) = itemOf i file stream names := by
  unfold itemOf nameUnits
  rw [List.takeWhile_idem]

/-- What is found at an entry is what the entries from there on begin with. -/
theorem itemAt_eq (hi : i < bytes.length / entrySize) : ∃ item next,
    itemAt bytes (bytes.length / entrySize) i = .ok (item, next) ∧
      itemsFrom 0 i ((chunksExact entrySize bytes).drop i) =
        item.toList ++ itemsFrom 0 next ((chunksExact entrySize bytes).drop next) := by
  obtain ⟨e, he, hdrop⟩ := entryAt_eq hi
  have hrest : ((chunksExact entrySize bytes).drop (i + 1)).length = bytes.length / entrySize - (i + 1) := by
    rw [List.length_drop, length_chunksExact]
  rw [hdrop, itemsFrom, itemAt, he, exec_ok_bind]
  dsimp only
  by_cases hfile : typeCode e = typeFile
  swap
  · rw [if_pos hfile, if_pos hfile]
    exact ⟨none, i + 1, rfl, rfl⟩
  rw [if_neg (not_not.mpr hfile), if_neg (not_not.mpr hfile)]
  by_cases hcount : (byteAt e 1).toNat = 0 ∨ bytes.length / entrySize ≤ i + (byteAt e 1).toNat
  · rw [if_pos hcount, if_pos (by omega)]
    exact ⟨none, i + 1, rfl, rfl⟩
  rw [if_neg hcount, if_neg (by omega)]
  obtain ⟨stream, hstream, hdrop'⟩ := entryAt_eq (show i + 1 < bytes.length / entrySize by omega)
  change _ = stream :: (chunksExact entrySize bytes).drop (i + 2) at hdrop'
  have hbehind (n : ℕ) : (stream :: (chunksExact entrySize bytes).drop (i + 2)).drop n =
      (chunksExact entrySize bytes).drop (i + 1 + n) := by
    rw [← hdrop', List.drop_drop]
  rw [hstream, exec_ok_bind, hdrop', List.headD_cons]
  by_cases htype : typeCode stream = typeStream
  swap
  · rw [if_pos htype, if_pos htype, ← hdrop']
    exact ⟨none, i + 1, rfl, rfl⟩
  rw [if_neg (not_not.mpr htype), if_neg (not_not.mpr htype), nameEntriesAt_eq (by omega), exec_ok_bind,
    itemOf_takeWhile, itemsFrom_skip, hbehind (byteAt e 1).toNat, hbehind 1, show i + 1 + 1 = i + 2 from rfl]
  by_cases hname : (itemOf i e stream
      (((chunksExact entrySize bytes).drop (i + 2)).take ((byteAt e 1).toNat - 1))).name = []
  · rw [if_pos hname, if_pos hname]
    exact ⟨none, _, rfl, rfl⟩
  · rw [if_neg hname, if_neg hname]
    exact ⟨some _, _, rfl, rfl⟩

/-- The reader never leaves the directory. -/
theorem parseEntrySetsAt_eq (bytes : List UInt8) : parseEntrySetsAt bytes = .ok (parseEntrySets bytes) := by
  have hloop (s : SetReader) : (setLoop bytes).eval s =
      .ok (s.items ++ itemsFrom 0 s.i ((chunksExact entrySize bytes).drop s.i)) := by
    induction s using (setLoop bytes).induct with
    | step s ih =>
      by_cases hend : bytes.length / entrySize ≤ s.i
      · rw [(setLoop bytes).eval_done (r := .ok s.items) (if_pos hend),
          List.drop_eq_nil_of_le (by rwa [length_chunksExact]), itemsFrom, List.append_nil]
      · obtain ⟨item, next, hitem, hitems⟩ := itemAt_eq (not_le.mp hend)
        have hstep : (setLoop bytes).body s = .next ⟨next, s.items ++ item.toList⟩ := by
          change setStep bytes s = _
          unfold setStep
          dsimp only
          rw [if_neg hend, hitem]
        rw [(setLoop bytes).eval_next hstep, ih _ hstep, hitems, List.append_assoc]
  exact hloop ⟨0, []⟩

end Inside

section Layout

/-- A file or a directory, with all that the entries of its set hold. -/
structure FileSet where
  name : Text
  deleted : Bool
  attributes : ℕ
  modified : ℕ
  accessed : ℕ
  flags : UInt8
  firstCluster : ℕ
  dataLength : ℕ
  checksum : List UInt8
  created : List UInt8
  rest : List UInt8
  reserved : UInt8
  hash : List UInt8
  nameFlags : UInt8
  padding : List ℕ
  name_length : 1 ≤ (encodeUtf16 name).length ∧ (encodeUtf16 name).length ≤ 255
  words : attributes < 2 ^ 16 ∧ modified < 2 ^ 32 ∧ accessed < 2 ^ 32 ∧ firstCluster < 2 ^ 32 ∧ dataLength < 2 ^ 64
  lengths : checksum.length = 2 ∧ created.length = 6 ∧ rest.length = 12 ∧ hash.length = 16
  padding_length : (encodeUtf16 name).length + padding.length = 15 * divCeil (encodeUtf16 name).length 15
  padding_lt : ∀ u ∈ padding, u < 2 ^ 16

namespace FileSet

variable (f : FileSet)

/-- The first byte of an entry. -/
def kind (code : UInt8) : UInt8 := if f.deleted then code else code ||| inuseBit

def nameCount : ℕ := divCeil (encodeUtf16 f.name).length 15

def fileEntry : List UInt8 :=
  [f.kind typeFile, UInt8.ofNat (f.nameCount + 1)] ++ f.checksum ++ toLe 2 f.attributes ++ f.created ++
    toLe 4 f.modified ++ toLe 4 f.accessed ++ f.rest

def streamEntry : List UInt8 :=
  [f.kind typeStream, f.flags, f.reserved, UInt8.ofNat (encodeUtf16 f.name).length] ++ f.hash ++
    toLe 4 f.firstCluster ++ toLe 8 f.dataLength

def nameEntry (units : List ℕ) : List UInt8 := [f.kind typeName, f.nameFlags] ++ units.flatMap unitBytes

end FileSet

/-- Units in `n` groups of fifteen. -/
def groups : ℕ → List ℕ → List (List ℕ)
  | 0, _ => []
  | n + 1, units => units.take 15 :: groups n (units.drop 15)

namespace FileSet

variable (f : FileSet)

def nameEntries : List (List UInt8) :=
  (groups f.nameCount (encodeUtf16 f.name ++ f.padding)).map f.nameEntry

def entries : List (List UInt8) := f.fileEntry :: f.streamEntry :: f.nameEntries

def item (i : ℕ) : Item where
  name := f.name
  deleted := f.deleted
  isDir := decide (f.attributes / 0x10 % 2 = 1)
  firstCluster := f.firstCluster
  dataLength := f.dataLength
  noFatChain := decide (f.flags &&& 0x02 ≠ 0)
  mtime := fromExfat f.modified
  atime := fromExfat f.accessed
  slot := i

end FileSet

/-- A part of a directory: the set of a file, or an entry that begins no set. -/
inductive DirectoryPart
  | set (f : FileSet)
  | other (entry : List UInt8) (length : entry.length = entrySize) (kind : typeCode entry ≠ typeFile)

def DirectoryPart.entries : DirectoryPart → List (List UInt8)
  | .set f => f.entries
  | .other entry _ _ => [entry]

def layout (pieces : List DirectoryPart) : List UInt8 := (pieces.flatMap DirectoryPart.entries).flatten

/-- The items of the sets, with the numbers of their first entries. -/
def itemsOf : ℕ → List DirectoryPart → List Item
  | _, [] => []
  | i, .set f :: pieces => f.item i :: itemsOf (i + f.entries.length) pieces
  | i, .other _ _ _ :: pieces => itemsOf (i + 1) pieces

end Layout

section Fields

variable (f : FileSet) {units : List ℕ}

theorem groups_spec {n : ℕ} (units : List ℕ) (h : units.length = 15 * n) : (groups n units).length = n ∧ (groups n units).flatten = units ∧
    ∀ g ∈ groups n units, g.length = 15 ∧ ∀ u ∈ g, u ∈ units := by
  induction n generalizing units with
  | zero =>
    rw [Nat.mul_zero, List.length_eq_zero_iff] at h
    subst h
    exact ⟨rfl, rfl, fun g hg => (by cases hg)⟩
  | succ n ih =>
    obtain ⟨hlength, hflatten, hgroups⟩ := ih (units.drop 15) (by rw [List.length_drop]; omega)
    refine ⟨?_, ?_, List.forall_mem_cons.mpr ⟨⟨?_, fun u hu => List.mem_of_mem_take hu⟩, fun g hg => ?_⟩⟩
    · rw [groups, List.length_cons, hlength]
    · rw [groups, List.flatten_cons, hflatten, List.take_append_drop]
    · rw [List.length_take]
      omega
    · obtain ⟨hg, hmem⟩ := hgroups g hg
      exact ⟨hg, fun u hu => List.mem_of_mem_drop (hmem u hu)⟩

namespace FileSet

theorem kind_spec {code : UInt8} (h : code = typeFile ∨ code = typeStream ∨ code = typeName) :
    f.kind code &&& ~~~inuseBit = code ∧ decide (f.kind code &&& inuseBit = 0) = f.deleted := by
  unfold kind
  obtain rfl | rfl | rfl := h
  · cases f.deleted <;> decide
  · cases f.deleted <;> decide
  · cases f.deleted <;> decide

theorem nameCount_le : 1 ≤ f.nameCount ∧ f.nameCount ≤ 17 := by
  have hlength := f.name_length
  unfold nameCount divCeil
  omega

theorem length_fileEntry : f.fileEntry.length = entrySize := by
  obtain ⟨hchecksum, hcreated, hrest, -⟩ := f.lengths
  simp only [fileEntry, List.length_append, List.length_cons, List.length_nil, length_toLe, hchecksum, hcreated, hrest,
    entrySize]

theorem length_streamEntry : f.streamEntry.length = entrySize := by
  obtain ⟨-, -, -, hhash⟩ := f.lengths
  simp only [streamEntry, List.length_append, List.length_cons, List.length_nil, length_toLe, hhash, entrySize]

/-- A field between what is before and what is behind it. -/
theorem le_window_append {bytes : List UInt8} {off n x : ℕ} (pre post : List UInt8) (hpre : pre.length = off) (hx : x < 256 ^ n)
    (h : bytes = pre ++ toLe n x ++ post) : le (window bytes off n) = x := by
  have hwindow := window_append pre (toLe n x) post
  rw [hpre, length_toLe] at hwindow
  rw [h, hwindow, le_toLe hx]

theorem fileEntry_fields : le (window f.fileEntry 4 2) = f.attributes ∧ le (window f.fileEntry 12 4) = f.modified ∧
    le (window f.fileEntry 16 4) = f.accessed := by
  obtain ⟨hattributes, hmodified, haccessed, -, -⟩ := f.words
  obtain ⟨hchecksum, hcreated, -, -⟩ := f.lengths
  refine ⟨?_, ?_, ?_⟩
  · refine le_window_append ([f.kind typeFile, UInt8.ofNat (f.nameCount + 1)] ++ f.checksum)
      (f.created ++ toLe 4 f.modified ++ toLe 4 f.accessed ++ f.rest) ?_ hattributes ?_
    · simp only [List.length_append, List.length_cons, List.length_nil, hchecksum]
    · simp only [fileEntry, List.append_assoc]
  · refine le_window_append ([f.kind typeFile, UInt8.ofNat (f.nameCount + 1)] ++ f.checksum ++
      toLe 2 f.attributes ++ f.created) (toLe 4 f.accessed ++ f.rest) ?_ hmodified ?_
    · simp only [List.length_append, List.length_cons, List.length_nil, hchecksum, hcreated, length_toLe]
    · simp only [fileEntry, List.append_assoc]
  · refine le_window_append ([f.kind typeFile, UInt8.ofNat (f.nameCount + 1)] ++ f.checksum ++
      toLe 2 f.attributes ++ f.created ++ toLe 4 f.modified) (f.rest) ?_ haccessed ?_
    · simp only [List.length_append, List.length_cons, List.length_nil, hchecksum, hcreated, length_toLe]
    · simp only [fileEntry, List.append_assoc]

theorem streamEntry_fields : le (window f.streamEntry 20 4) = f.firstCluster ∧
    le (window f.streamEntry 24 8) = f.dataLength := by
  obtain ⟨-, -, -, hfirst, hlength⟩ := f.words
  obtain ⟨-, -, -, hhash⟩ := f.lengths
  constructor
  · refine le_window_append ([f.kind typeStream, f.flags, f.reserved,
      UInt8.ofNat (encodeUtf16 f.name).length] ++ f.hash) (toLe 8 f.dataLength) ?_ hfirst rfl
    simp only [List.length_append, List.length_cons, List.length_nil, hhash]
  · refine le_window_append ([f.kind typeStream, f.flags, f.reserved,
      UInt8.ofNat (encodeUtf16 f.name).length] ++ f.hash ++ toLe 4 f.firstCluster) [] ?_ hlength ?_
    · simp only [List.length_append, List.length_cons, List.length_nil, hhash, length_toLe]
    · rw [List.append_nil]
      rfl

theorem nameEntry_spec (hlength : units.length = 15) (hwords : ∀ u ∈ units, u < 2 ^ 16) :
    (f.nameEntry units).length = entrySize ∧ typeCode (f.nameEntry units) = typeName ∧
      unitsOf (window (f.nameEntry units) 2 30) = units := by
  refine ⟨?_, (f.kind_spec (.inr (.inr rfl))).1, ?_⟩
  · simp only [nameEntry, List.length_append, List.length_cons, List.length_nil, length_unitBytes, hlength, entrySize]
  · have hwindow := window_append [f.kind typeName, f.nameFlags] (units.flatMap unitBytes) []
    rw [List.append_nil, length_unitBytes, hlength] at hwindow
    exact (congrArg unitsOf hwindow).trans (unitsOf_unitBytes hwords)

/-- The name entries are those of the units of the name and of what fills the last one. -/
theorem nameEntries_spec : f.nameEntries.length = f.nameCount ∧
    (∀ e ∈ f.nameEntries, e.length = entrySize ∧ typeCode e = typeName) ∧
      (f.nameEntries.flatMap fun e => unitsOf (window e 2 30)) = encodeUtf16 f.name ++ f.padding := by
  have hwords : ∀ u ∈ encodeUtf16 f.name ++ f.padding, u < 2 ^ 16 := by
    intro u hu
    rcases List.mem_append.mp hu with hu | hu
    · exact (mem_encodeUtf16 hu).1
    · exact f.padding_lt u hu
  obtain ⟨hlength, hflatten, hgroups⟩ := groups_spec (n := f.nameCount) (encodeUtf16 f.name ++ f.padding) (by
    rw [List.length_append]
    exact f.padding_length)
  have hentry : ∀ g ∈ groups f.nameCount (encodeUtf16 f.name ++ f.padding), (f.nameEntry g).length = entrySize ∧
      typeCode (f.nameEntry g) = typeName ∧ unitsOf (window (f.nameEntry g) 2 30) = g := by
    intro g hg
    obtain ⟨hlen, hmem⟩ := hgroups g hg
    exact f.nameEntry_spec hlen fun u hu => hwords u (hmem u hu)
  refine ⟨by rw [nameEntries, List.length_map, hlength], fun e he => ?_, ?_⟩
  · obtain ⟨g, hg, rfl⟩ := List.mem_map.mp he
    exact ⟨(hentry g hg).1, (hentry g hg).2.1⟩
  · rw [nameEntries, List.flatMap_map, List.flatMap_congr fun g hg => (hentry g hg).2.2, List.flatMap_id', hflatten]

/-- The item of a set is read from its entries. -/
theorem itemOf_entries (i : ℕ) : itemOf i f.fileEntry f.streamEntry f.nameEntries = f.item i := by
  obtain ⟨-, htypes, hunits⟩ := f.nameEntries_spec
  obtain ⟨hattributes, hmodified, haccessed⟩ := f.fileEntry_fields
  obtain ⟨hfirst, hlength⟩ := f.streamEntry_fields
  have hname : (UInt8.ofNat (encodeUtf16 f.name).length).toNat = (encodeUtf16 f.name).length := by
    have hle := f.name_length
    rw [UInt8.toNat_ofNat']
    omega
  have htake : f.nameEntries.takeWhile (typeCode · = typeName) = f.nameEntries :=
    List.takeWhile_eq_self_iff.mpr fun e he => decide_eq_true (htypes e he).2
  have hdecoded : fromUtf16Lossy (nameUnits (byteAt f.streamEntry 3).toNat f.nameEntries) = f.name := by
    change fromUtf16Lossy (nameUnits (UInt8.ofNat (encodeUtf16 f.name).length).toNat f.nameEntries) = f.name
    rw [hname, nameUnits, htake, hunits, List.take_left, fromUtf16Lossy_encode]
  have hdeleted : decide (byteAt f.fileEntry 0 &&& inuseBit = 0) = f.deleted := (f.kind_spec (.inl rfl)).2
  have hchain : byteAt f.streamEntry 1 = f.flags := rfl
  rw [itemOf, item, hdecoded, hdeleted, hattributes, hfirst, hlength, hchain, hmodified, haccessed]

/-- A set is read as its item, and the reader goes on behind it. -/
theorem itemsFrom_entries (i : ℕ) (rest : List (List UInt8)) :
    itemsFrom 0 i (f.entries ++ rest) = f.item i :: itemsFrom 0 (i + f.entries.length) rest := by
  obtain ⟨hnames, -, -⟩ := f.nameEntries_spec
  have hcount : (byteAt f.fileEntry 1).toNat = f.nameCount + 1 := by
    have hle := f.nameCount_le
    change (UInt8.ofNat (f.nameCount + 1)).toNat = f.nameCount + 1
    rw [UInt8.toNat_ofNat']
    omega
  have hfile : typeCode f.fileEntry = typeFile := (f.kind_spec (.inl rfl)).1
  have hstream : typeCode f.streamEntry = typeStream := (f.kind_spec (.inr (.inl rfl))).1
  have hname : (f.item i).name ≠ [] := by
    intro hnil
    have hle := f.name_length.1
    change f.name = [] at hnil
    rw [hnil] at hle
    exact absurd hle (by decide)
  rw [entries, List.cons_append, List.cons_append, itemsFrom]
  dsimp only
  rw [hcount, if_neg (not_not.mpr hfile), if_neg (by simp only [List.length_cons, List.length_append, hnames]; omega),
    List.headD_cons, if_neg (not_not.mpr hstream), List.drop_succ_cons, List.drop_zero, Nat.add_sub_cancel,
    ← hnames, List.take_left, itemOf_entries, if_neg hname, itemsFrom_skip, List.drop_succ_cons, List.drop_left,
    List.length_cons, List.length_cons]
  congr 2
  omega

end FileSet

end Fields

theorem length_of_mem_entries {p : DirectoryPart} {e : List UInt8} (h : e ∈ p.entries) : e.length = entrySize := by
  cases p with
  | set f =>
    obtain ⟨-, hnames, -⟩ := f.nameEntries_spec
    rcases List.mem_cons.mp h with rfl | h
    · exact f.length_fileEntry
    · rcases List.mem_cons.mp h with rfl | h
      · exact f.length_streamEntry
      · exact (hnames e h).1
  | other entry length kind =>
    rw [List.mem_singleton.mp h]
    exact length

theorem itemsFrom_pieces (i : ℕ) (pieces : List DirectoryPart) :
    itemsFrom 0 i (pieces.flatMap DirectoryPart.entries) = itemsOf i pieces := by
  induction pieces generalizing i with
  | nil => rfl
  | cons p pieces ih =>
    rw [List.flatMap_cons]
    cases p with
    | set f => exact (f.itemsFrom_entries i _).trans (congrArg (f.item i :: ·) (ih _))
    | other entry length kind =>
      change itemsFrom 0 i (entry :: pieces.flatMap DirectoryPart.entries) = itemsOf (i + 1) pieces
      rw [itemsFrom]
      dsimp only
      rw [if_pos kind, ih]

/-- The sets of a directory are read as what they were made from, in their order, and no bytes make
the reader leave the directory. -/
theorem entry_sets_decoded : (∀ pieces : List DirectoryPart, parseEntrySets (layout pieces) = itemsOf 0 pieces) ∧
    ∀ bytes : List UInt8, parseEntrySetsAt bytes = .ok (parseEntrySets bytes) := by
  refine ⟨fun pieces => ?_, parseEntrySetsAt_eq⟩
  have hrows : ∀ e ∈ pieces.flatMap DirectoryPart.entries, e.length = entrySize := by
    intro e he
    obtain ⟨p, -, hp⟩ := List.mem_flatMap.mp he
    exact length_of_mem_entries hp
  rw [parseEntrySets, layout, chunksExact_flatten (by decide) hrows, itemsFrom_pieces]

end Unearth.Exfat
