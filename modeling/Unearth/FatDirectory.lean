import Unearth.Content
import Unearth.Lib.Utf8
import Unearth.Lib.Utf16
import Unearth.LengthFields
import Unearth.Times

/-!
# The entries of a FAT directory

A directory is a row of slots of 32 bytes. A file takes one, with its short name, and the
slots before it may hold a long one in pieces. The first byte of a slot is a mark when the
file is deleted.
-/

namespace Unearth.Fat
open Lines Bytes Utf16 Utf8

def entrySize : ℕ := 32
def attrLfn : UInt8 := 0x0F
def attrDirectory : UInt8 := 0x10
def attrVolumeId : UInt8 := 0x08
def deletedMarker : UInt8 := 0xE5

/-- A directory entry, with its long name if it has one, and the number of its slot. -/
structure ParsedEntry where
  name : Text
  deleted : Bool
  isDir : Bool
  startCluster : ℕ
  size : ℕ
  mtime : Option SystemTime
  atime : Option SystemTime
  slot : ℕ
  deriving DecidableEq

def asciiLowercase (t : Text) : Text := t.map Char.toLower

def shortName (slot : List UInt8) (deleted : Bool) : Text :=
  let first :=
    if deleted then 0x5F
    else if byteAt slot 0 = 0x05 then 0xE5
    else byteAt slot 0
  let name := trimEnd (fromUtf8Lossy (first :: window slot 1 7))
  let ext := trimEnd (fromUtf8Lossy (window slot 8 3))
  let caseFlags := byteAt slot 12
  let name := if caseFlags &&& 0x08 ≠ 0 then asciiLowercase name else name
  let ext := if caseFlags &&& 0x10 ≠ 0 then asciiLowercase ext else ext
  if ext = [] then name else name ++ '.' :: ext

/-- The characters before the terminator, without the padding. -/
def lfnChars : List (Option Char) → Text
  | [] => []
  | none :: rest => lfnChars rest
  | some c :: rest =>
    if c = '\x00' then []
    else if c = '\uFFFF' then lfnChars rest
    else c :: lfnChars rest

def extractLfnChars (slot : List UInt8) : Text :=
  lfnChars (decodeUtf16 (unitsOf (window slot 1 10 ++ window slot 14 12 ++ window slot 28 4)))

/-- The pieces of a long name come last one first. -/
def assembleLfn (parts : List Text) : Text :=
  (parts.reverse.flatten.reverse.dropWhile fun c => c = '\x00' || c = '\uFFFF').reverse

/-- The entry of a slot, with the pieces of the long name before it. -/
def entryOf (lfnParts : List Text) (i : ℕ) (slot : List UInt8) : ParsedEntry :=
  let deleted := decide (byteAt slot 0 = deletedMarker)
  { name := if lfnParts ≠ [] then assembleLfn lfnParts else shortName slot deleted
    deleted
    isDir := decide (byteAt slot 11 &&& attrDirectory ≠ 0)
    startCluster := le (window slot 20 2) * 2 ^ 16 + le (window slot 26 2)
    size := le (window slot 28 4)
    mtime := fromDos (le (window slot 24 2)) (le (window slot 22 2))
    atime := fromDos (le (window slot 18 2)) 0
    slot := i }

/-- The entries of the slots from the `i`-th one on. -/
def entriesFrom (lfnParts : List Text) (i : ℕ) : List (List UInt8) → List ParsedEntry
  | [] => []
  | slot :: rest =>
    let attr := byteAt slot 11
    -- A slot that was never used ends a long name, and so does the label of the volume.
    if byteAt slot 0 = 0 then entriesFrom [] (i + 1) rest
    else if attr = attrLfn then entriesFrom (lfnParts ++ [extractLfnChars slot]) (i + 1) rest
    else if attr &&& attrVolumeId ≠ 0 ∧ attr &&& attrDirectory = 0 then entriesFrom [] (i + 1) rest
    else
      let entry := entryOf lfnParts i slot
      if entry.name = [] then entriesFrom [] (i + 1) rest
      else entry :: entriesFrom [] (i + 1) rest

def parseEntries (bytes : List UInt8) : List ParsedEntry := entriesFrom [] 0 (chunksExact entrySize bytes)

/-- Whether a directory begins with the entry for itself. -/
def startsWithDotEntry (bytes : List UInt8) : Bool :=
  entrySize ≤ bytes.length && window bytes 0 11 = 0x2E :: List.replicate 10 0x20 &&
    byteAt bytes 11 &&& attrDirectory ≠ 0

theorem mem_entriesFrom {lfnParts : List Text} {i : ℕ} {rows : List (List UInt8)} {e : ParsedEntry}
    (h : e ∈ entriesFrom lfnParts i rows) :
    ∃ j slot, rows[j]? = some slot ∧ e.slot = i + j ∧ e.deleted = decide (byteAt slot 0 = deletedMarker) := by
  induction rows generalizing lfnParts i with
  | nil => cases h
  | cons slot rows ih =>
    have hlater : ∀ parts, e ∈ entriesFrom parts (i + 1) rows → ∃ j slot', (slot :: rows)[j]? = some slot' ∧
        e.slot = i + j ∧ e.deleted = decide (byteAt slot' 0 = deletedMarker) := by
      intro parts hmem
      obtain ⟨j, slot', hslot, hindex, hdeleted⟩ := ih hmem
      exact ⟨j + 1, slot', hslot, by omega, hdeleted⟩
    unfold entriesFrom at h
    dsimp only at h
    split_ifs at h
    · exact hlater _ h
    · exact hlater _ h
    · exact hlater _ h
    · exact hlater _ h
    · rcases List.mem_cons.mp h with rfl | h
      · exact ⟨0, slot, rfl, rfl, rfl⟩
      · exact hlater _ h

/-- An entry is that of a whole slot, whose first byte says whether it is deleted. -/
theorem mem_parseEntries {bytes : List UInt8} {e : ParsedEntry} (h : e ∈ parseEntries bytes) :
    entrySize * e.slot + entrySize ≤ bytes.length ∧
      e.deleted = decide (byteAt bytes (entrySize * e.slot) = deletedMarker) := by
  obtain ⟨j, slot, hslot, hindex, hdeleted⟩ := mem_entriesFrom h
  rw [Nat.zero_add] at hindex
  subst hindex
  obtain ⟨hle, hfirst⟩ := chunksExact_get (by decide) hslot
  exact ⟨hle, by rw [hdeleted, hfirst]⟩

end Unearth.Fat
