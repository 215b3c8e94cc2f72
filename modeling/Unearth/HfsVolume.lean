import Unearth.Slices

/-!
# The header of an HFS+ volume

The header gives the size of the allocation blocks and the first extents of the special files.
A volume is made only of extents that lie in it. It may be wrapped in an older volume, which
then says where it begins.
-/

namespace Unearth.Hfs
open Bytes Word Lines Decimal Post

def VOLUME_HEADER_OFFSET : ℕ := 1024
def SIG_HFSPLUS : ℕ := 0x482B
def SIG_HFSX : ℕ := 0x4858
def SIG_HFS : ℕ := 0x4244
def ATTR_JOURNALED : ℕ := 0x2000
def JI_JOURNAL_IN_FS : ℕ := 1
def MAX_CATALOG : ℕ := 64 * 1024 * 1024
def MAX_JOURNAL : ℕ := 512 * 1024 * 1024

def isPowerOfTwo (n : ℕ) : Bool := n ≠ 0 && n &&& (n - 1) = 0

section Header

variable (b : Build) (src : Source)

def isHfsplus (sig : ℕ) : Bool := sig = SIG_HFSPLUS || sig = SIG_HFSX

/-- Where an older volume has the volume that is wrapped in it. -/
def embeddedOffset (volOffset : ℕ) (mdb : List UInt8) : Option ℕ := do
  let first ← checkedMul (beField mdb 0x1C 2) 512
  let start ← checkedMul (beField mdb 0x7E 2) (beField mdb 0x14 4)
  checkedAdd (← checkedAdd volOffset first) start

def embeddedVolume (volOffset : ℕ) (mdb : List UInt8) : Exec (Option ℕ) :=
  if beField mdb 0x7C 2 ≠ SIG_HFSPLUS then return none
  else
    match embeddedOffset volOffset mdb with
    | none => return none
    | some embedded => do
      let sig ← tolerated [] (src.readAt (← plus b embedded VOLUME_HEADER_OFFSET) 2)
      return if sig.length = 2 ∧ isHfsplus (be sig) then some embedded else none

/-- Where the volume at an offset really begins. -/
def hfsplusOffset (volOffset : ℕ) : Exec (Option ℕ) := do
  let mdb ← tolerated [] (src.readAt (← plus b volOffset VOLUME_HEADER_OFFSET) 512)
  if mdb.length < 512 then return none
  else if isHfsplus (beField mdb 0 2) then return some volOffset
  else if beField mdb 0 2 = SIG_HFS then embeddedVolume b src volOffset mdb
  else return none

end Header

/-- Up to eight extents of a file, by their first blocks and their numbers of blocks, that lie
in a volume of `total` blocks. -/
structure Runs (total : ℕ) where
  extents : List (ℕ × ℕ)
  length_le : extents.length ≤ 8
  inside : ∀ e ∈ extents, e.1 < total ∧ e.1 + e.2 ≤ total + 1
  deriving DecidableEq

/-- The extents up to the first one that is empty, if all of them lie in the volume. -/
def insideRuns (total : ℕ) : List (ℕ × ℕ) → Option (List (ℕ × ℕ))
  | [] => some []
  | (start, count) :: rest =>
    if count = 0 then some []
    else if total ≤ start ∨ total + 1 < start + count then none
    else (insideRuns total rest).map ((start, count) :: ·)

theorem insideRuns_spec {total : ℕ} {l r : List (ℕ × ℕ)} (h : insideRuns total l = some r) :
    r.length ≤ l.length ∧ ∀ e ∈ r, e.1 < total ∧ e.1 + e.2 ≤ total + 1 := by
  induction l generalizing r with
  | nil =>
    cases h
    simp
  | cons e rest ih =>
    obtain ⟨start, count⟩ := e
    unfold insideRuns at h
    split_ifs at h with hzero hout
    · cases h
      simp
    · obtain ⟨t, ht, rfl⟩ := Option.map_eq_some_iff.mp h
      obtain ⟨hlen, hall⟩ := ih ht
      rw [not_or, not_le, not_lt] at hout
      exact ⟨Nat.succ_le_succ hlen, List.forall_mem_cons.mpr ⟨hout, hall⟩⟩

/-- The eight extents of a fork at a place. -/
def extentsAt (bytes : List UInt8) (o : ℕ) : List (ℕ × ℕ) :=
  (List.range 8).map fun i => (beField bytes (o + i * 8) 4, beField bytes (o + i * 8 + 4) 4)

theorem length_extentsAt (bytes : List UInt8) (o : ℕ) : (extentsAt bytes o).length = 8 := by
  rw [extentsAt, List.length_map, List.length_range]

theorem runs_length {total o : ℕ} {bytes : List UInt8} {r : List (ℕ × ℕ)}
    (h : insideRuns total (extentsAt bytes o) = some r) : r.length ≤ 8 :=
  (insideRuns_spec h).1.trans_eq (length_extentsAt bytes o)

theorem runs_inside {total o : ℕ} {bytes : List UInt8} {r : List (ℕ × ℕ)}
    (h : insideRuns total (extentsAt bytes o) = some r) :
    ∀ e ∈ r, e.1 < total ∧ e.1 + e.2 ≤ total + 1 :=
  (insideRuns_spec h).2

def readRuns (total : ℕ) (bytes : List UInt8) (o : ℕ) : Option (Runs total) :=
  match h : insideRuns total (extentsAt bytes o) with
  | none => none
  | some r => some ⟨r, runs_length h, runs_inside h⟩

/-- No extents, as those of a file that does without. -/
def Runs.none (total : ℕ) : Runs total := ⟨[], Nat.zero_le 8, List.forall_mem_nil _⟩

/-- The range of the journal in a volume of so many bytes. -/
structure Journal (volBytes : ℕ) where
  start : ℕ
  len : ℕ
  inside : start + len ≤ volBytes
  deriving DecidableEq

theorem journal_inside {volBytes start len : ℕ} (h : start < volBytes ∧ len ≤ volBytes - start) :
    start + min len MAX_JOURNAL ≤ volBytes := by
  have hmin := min_le_left len MAX_JOURNAL
  omega

/-- A volume with its special files inside of it. -/
structure Volume where
  offset : ℕ
  blockSize : ℕ
  totalBlocks : ℕ
  catalogExtents : Runs totalBlocks
  catalogSize : ℕ
  allocationExtents : Runs totalBlocks
  extentsOverflowExtents : Runs totalBlocks
  extentsOverflowSize : ℕ
  hfsx : Bool
  journal : Option (Journal (blockSize * totalBlocks))
  block_range : 512 ≤ blockSize ∧ blockSize ≤ 65536
  total_lt : totalBlocks < 2 ^ 32
  deriving DecidableEq

def refused {α : Type} (message : Text) : Exec (Except ParseError α) := .ok (.error (.refused message))

section Parse

variable (b : Build) (src : Source)

/-- The journal of a volume, where its block of information says that it lies in the volume. -/
def journalOf (volBytes : ℕ) (info : List UInt8) : Option (Journal volBytes) :=
  let joff := beField info 36 8
  let jsize := beField info 44 8
  if info.length = 52 ∧ beField info 0 4 &&& JI_JOURNAL_IN_FS ≠ 0 ∧ 0 < jsize then
    if h : joff < volBytes ∧ jsize ≤ volBytes - joff then
      some ⟨joff, min jsize MAX_JOURNAL, journal_inside h⟩
    else none
  else none

/-- The block of information about the journal; a volume without a journal has no bytes of it. -/
def readJournalInfo (offset blockSize totalBlocks : ℕ) (vh : List UInt8) : Exec (List UInt8) :=
  let jib := beField vh 12 4
  if beField vh 4 4 &&& ATTR_JOURNALED ≠ 0 ∧ 0 < jib ∧ jib < totalBlocks then do
    src.readAt (← word 64 b (offset + jib * blockSize)) 52
  else return []

theorem total_lt (vh : List UInt8) : beField vh 44 4 < 2 ^ 32 := beField_lt vh 44 4

/-- The volume whose header was read. -/
def parseHeader (offset : ℕ) (vh : List UInt8) : Exec (Except ParseError Volume) :=
  let blockSize := beField vh 40 4
  let totalBlocks := beField vh 44 4
  if isHfsplus (beField vh 0 2) = false then refused "not an HFS+ volume".toList
  else if hblock : isPowerOfTwo blockSize ∧ 512 ≤ blockSize ∧ blockSize ≤ 65536 then
    if totalBlocks = 0 then refused "HFS+ volume reports zero blocks".toList
    else
      match readRuns totalBlocks vh 288 with
      | none => refused "HFS+ catalog extent out of range".toList
      | some catalog =>
        if catalog.extents = [] then refused "HFS+ catalog file has no extents".toList
        else
          match readJournalInfo b src offset blockSize totalBlocks vh with
          | .error .io => return .error .io
          | .error e => .error e
          | .ok info => return .ok {
              offset
              blockSize
              totalBlocks
              catalogExtents := catalog
              catalogSize := beField vh 272 8
              allocationExtents := (readRuns totalBlocks vh 128).getD (.none totalBlocks)
              extentsOverflowExtents := (readRuns totalBlocks vh 208).getD (.none totalBlocks)
              extentsOverflowSize := beField vh 192 8
              hfsx := beField vh 0 2 = SIG_HFSX
              journal := journalOf (blockSize * totalBlocks) info
              block_range := hblock.2
              total_lt := total_lt vh }
  else refused ("implausible HFS+ allocation block size ".toList ++ decimal blockSize)

def Volume.parse (volOffset : ℕ) : Exec (Except ParseError Volume) := do
  let offset := (← hfsplusOffset b src volOffset).getD volOffset
  match src.readAt (← plus b offset VOLUME_HEADER_OFFSET) 512 with
  | .error _ => return .error .io
  | .ok vh =>
    if vh.length < 512 then refused "HFS+ volume header truncated".toList
    else parseHeader b src offset vh

end Parse

namespace Volume

variable (v : Volume)

def size : ℕ := satMul v.totalBlocks v.blockSize

/-- The bytes of a volume are counted by a word of 48 bits. -/
theorem bytes_lt : v.totalBlocks * v.blockSize < 2 ^ 48 := by
  calc v.totalBlocks * v.blockSize ≤ v.totalBlocks * 2 ^ 16 := Nat.mul_le_mul_left _ v.block_range.2
    _ < 2 ^ 32 * 2 ^ 16 := Nat.mul_lt_mul_of_pos_right v.total_lt (by decide)
    _ = 2 ^ 48 := by decide

theorem parseHeader_offset {b : Build} {src : Source} {offset : ℕ} {vh : List UInt8} {v : Volume}
    (h : parseHeader b src offset vh = .ok (.ok v)) : v.offset = offset := by
  unfold parseHeader at h
  dsimp only at h
  split_ifs at h with hsig hblock hzero
  · cases h
  · cases h
  · cases hcatalog : readRuns (beField vh 44 4) vh 288 with
    | none =>
      rw [hcatalog] at h
      cases h
    | some catalog =>
      rw [hcatalog] at h
      dsimp only at h
      split_ifs at h
      · cases h
      · cases hinfo : readJournalInfo b src offset (beField vh 40 4) (beField vh 44 4) vh with
        | error e =>
          rw [hinfo] at h
          cases e <;> cases h
        | ok info =>
          rw [hinfo] at h
          cases h
          rfl
  · cases h

/-- A volume begins where it is looked for, or where its wrapper says. -/
theorem parse_offset {b : Build} {src : Source} {volOffset : ℕ} {place : Option ℕ} {v : Volume}
    (h : Volume.parse b src volOffset = .ok (.ok v)) (hplace : hfsplusOffset b src volOffset = .ok place) :
    v.offset = place.getD volOffset := by
  obtain ⟨real, hreal, h⟩ := exec_bind_ok h
  cases hplace.symm.trans hreal
  obtain ⟨start, -, h⟩ := exec_bind_ok h
  cases hread : src.readAt start 512 with
  | error e =>
    rw [hread] at h
    cases h
  | ok vh =>
    rw [hread] at h
    dsimp only at h
    split_ifs at h
    · cases h
    · exact parseHeader_offset h

/-- A volume that was accepted begins at an offset of the source. -/
theorem offset_lt {src : Source} {volOffset : ℕ} {v : Volume}
    (h : Volume.parse .debug src volOffset = .ok (.ok v)) : v.offset < 2 ^ 63 := by
  obtain ⟨real, -, h⟩ := exec_bind_ok h
  obtain ⟨start, hstart, h⟩ := exec_bind_ok h
  cases hread : src.readAt start 512 with
  | error e =>
    rw [hread] at h
    cases h
  | ok vh =>
    rw [hread] at h
    dsimp only at h
    split_ifs at h
    · cases h
    · rw [parseHeader_offset h]
      have hlt : start < 2 ^ 63 := by
        by_contra hge
        rw [Source.readAt, if_pos ⟨by decide, .inl (not_lt.mp hge)⟩] at hread
        cases hread
      by_cases hsum : real.getD volOffset + VOLUME_HEADER_OFFSET < 2 ^ 64
      · rw [plus_eq hsum] at hstart
        cases hstart
        exact (Nat.le_add_right _ _).trans_lt hlt
      · rw [plus_debug (not_lt.mp hsum)] at hstart
        cases hstart

end Volume

end Unearth.Hfs
