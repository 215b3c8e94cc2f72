import Unearth.Content
import Unearth.Lib.Utf16
import Unearth.LengthFields
import Unearth.Times

/-!
# The entries of an exFAT directory

A file takes a set of entries: one with its attributes, one that says where it is, and its
name in pieces. The highest bit of an entry is cleared when the file is deleted.
-/

namespace Unearth.Exfat
open Lines Bytes Utf16

def entrySize : ℕ := 32
def typeFile : UInt8 := 0x05
def typeStream : UInt8 := 0x40
def typeName : UInt8 := 0x41
def inuseBit : UInt8 := 0x80

def typeCode (entry : List UInt8) : UInt8 := byteAt entry 0 &&& ~~~inuseBit

/-- A set of entries, with the number of its first one. -/
structure Item where
  name : Text
  deleted : Bool
  isDir : Bool
  firstCluster : ℕ
  dataLength : ℕ
  noFatChain : Bool
  mtime : Option SystemTime
  atime : Option SystemTime
  slot : ℕ
  deriving DecidableEq

/-- The units of a name of `length` units in its entries. -/
def nameUnits (length : ℕ) (entries : List (List UInt8)) : List ℕ :=
  ((entries.takeWhile (typeCode · = typeName)).flatMap fun e => unitsOf (window e 2 30)).take length

/-- The item whose set begins with a file entry and a stream entry. -/
def itemOf (i : ℕ) (file stream : List UInt8) (names : List (List UInt8)) : Item where
  name := fromUtf16Lossy (nameUnits (byteAt stream 3).toNat names)
  deleted := decide (byteAt file 0 &&& inuseBit = 0)
  isDir := decide (le (window file 4 2) / 0x10 % 2 = 1)
  firstCluster := le (window stream 20 4)
  dataLength := le (window stream 24 8)
  noFatChain := decide (byteAt stream 1 &&& 0x02 ≠ 0)
  mtime := fromExfat (le (window file 12 4))
  atime := fromExfat (le (window file 16 4))
  slot := i

/-- The items from the `i`-th entry on, behind the next `skip` entries. -/
def itemsFrom : ℕ → ℕ → List (List UInt8) → List Item
  | _, _, [] => []
  | skip + 1, i, _ :: rest => itemsFrom skip (i + 1) rest
  | 0, i, e :: rest =>
    let secondaryCount := (byteAt e 1).toNat
    if typeCode e ≠ typeFile then itemsFrom 0 (i + 1) rest
    else if secondaryCount = 0 ∨ rest.length < secondaryCount then itemsFrom 0 (i + 1) rest
    else if typeCode (rest.headD []) ≠ typeStream then itemsFrom 0 (i + 1) rest
    else
      let item := itemOf i e (rest.headD []) ((rest.drop 1).take (secondaryCount - 1))
      if item.name = [] then itemsFrom secondaryCount (i + 1) rest
      else item :: itemsFrom secondaryCount (i + 1) rest

def parseEntrySets (bytes : List UInt8) : List Item := itemsFrom 0 0 (chunksExact entrySize bytes)

theorem mem_itemsFrom {skip i : ℕ} {entries : List (List UInt8)} {item : Item}
    (h : item ∈ itemsFrom skip i entries) : ∃ j e, entries[j]? = some e ∧ item.slot = i + j ∧
      item.deleted = decide (byteAt e 0 &&& inuseBit = 0) := by
  induction entries generalizing skip i with
  | nil =>
    unfold itemsFrom at h
    cases h
  | cons e rest ih =>
    have hlater : ∀ skip, item ∈ itemsFrom skip (i + 1) rest → ∃ j e', (e :: rest)[j]? = some e' ∧
        item.slot = i + j ∧ item.deleted = decide (byteAt e' 0 &&& inuseBit = 0) := by
      intro skip hmem
      obtain ⟨j, e', he', hindex, hdeleted⟩ := ih hmem
      exact ⟨j + 1, e', he', by omega, hdeleted⟩
    cases skip with
    | succ skip => exact hlater skip h
    | zero =>
      unfold itemsFrom at h
      dsimp only at h
      split_ifs at h
      · exact hlater _ h
      · exact hlater _ h
      · exact hlater _ h
      · exact hlater _ h
      · rcases List.mem_cons.mp h with rfl | h
        · exact ⟨0, e, rfl, rfl, rfl⟩
        · exact hlater _ h

/-- An item begins with a whole entry, whose first byte says whether it is deleted. -/
theorem mem_parseEntrySets {bytes : List UInt8} {item : Item} (h : item ∈ parseEntrySets bytes) :
    entrySize * item.slot + entrySize ≤ bytes.length ∧
      item.deleted = decide (byteAt bytes (entrySize * item.slot) &&& inuseBit = 0) := by
  obtain ⟨j, e, he, hindex, hdeleted⟩ := mem_itemsFrom h
  rw [Nat.zero_add] at hindex
  subst hindex
  obtain ⟨hle, hfirst⟩ := chunksExact_get (by decide) he
  exact ⟨hle, by rw [hdeleted, hfirst]⟩

end Unearth.Exfat
