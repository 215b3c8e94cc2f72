import Unearth.Lib.Lines
import Unearth.Lib.Utf8
import Unearth.Slices

/-!
# Rock Ridge names

The record of a directory entry may be followed by entries of its own. Those that have parts of the name are read in
order, and go on in continuation areas that are anywhere in the volume.
-/

namespace Unearth.Iso
open Bytes Word Lines Utf8

/-- What the names of a volume take of it. -/
structure Volume where
  offset : ℕ
  blockSize : ℕ

def MAX_DIR_BYTES : ℕ := 32 * 1024 * 1024
def MAX_CE_FOLLOW : ℕ := 8

/-- The block, the offset and the length of a continuation area. -/
structure Continue where
  lba : ℕ
  off : ℕ
  len : ℕ

/-- What has been read of a name. -/
structure SuspScan where
  name : Text
  complete : Bool
  ce : Option Continue

section Scan

/-- What one entry says of the name. -/
def suspEntry (entry : List UInt8) (s : SuspScan) : SuspScan :=
  if window entry 0 2 = ascii "NM" ∧ 5 ≤ entry.length then
    let flags := byteAt entry 4
    -- the names of the directory itself and of the one above are left out
    if flags &&& 0x06 = 0 then
      { s with name := s.name ++ fromUtf8Lossy (entry.drop 5), complete := s.complete || flags &&& 0x01 = 0 }
    else s
  else if window entry 0 2 = ascii "CE" ∧ 28 ≤ entry.length then
    { s with ce := some ⟨le (window entry 4 4), le (window entry 12 4), le (window entry 20 4)⟩ }
  else s

/-- The entries from a place of an area on. -/
def suspFrom (rest : List UInt8) (s : SuspScan) : SuspScan :=
  let suLen := (byteAt rest 2).toNat
  if _h : 4 ≤ rest.length ∧ 4 ≤ suLen ∧ suLen ≤ rest.length ∧ window rest 0 2 ≠ ascii "ST" then
    suspFrom (rest.drop suLen) (suspEntry (rest.take suLen) s)
  else s
termination_by rest.length
decreasing_by
  rw [List.length_drop]
  omega

def scanSuspArea (area : List UInt8) (name : Text) (complete : Bool) : SuspScan := suspFrom area ⟨name, complete, none⟩

end Scan

section Names

variable (v : Volume) (src : Source)

def readContinuation (c : Continue) (volEnd : ℕ) : Option (List UInt8) := do
  if c.len = 0 ∨ MAX_DIR_BYTES < c.len then none
  else
    let base ← checkedAdd v.offset (← checkedMul c.lba v.blockSize)
    let start ← checkedAdd base c.off
    if start < v.offset ∨ volEnd < (← checkedAdd start c.len) then none
    else (src.readAt start c.len).toOption

/-- The name when `rounds` more areas may be read. -/
def nameFrom (volEnd : ℕ) : ℕ → List UInt8 → Text → Bool → Text
  | 0, _, name, _ => name
  | rounds + 1, area, name, complete =>
    let s := scanSuspArea area name complete
    match s.ce with
    | some c =>
      if s.complete then s.name
      else match readContinuation v src c volEnd with
        | some buf => nameFrom volEnd rounds buf s.name s.complete
        | none => s.name
    | none => s.name

/-- Where the entries of a record begin: behind its identifier, at an even offset. -/
def systemUse (nameLen : ℕ) : ℕ := 33 + nameLen + if nameLen % 2 = 0 then 1 else 0

def rockRidgeName (rec : List UInt8) (nameLen volEnd : ℕ) : Option Text :=
  if rec.length ≤ systemUse nameLen then none
  else
    let name := nameFrom v src volEnd (MAX_CE_FOLLOW + 1) (rec.drop (systemUse nameLen)) [] false
    if name = [] then none else some name

end Names

end Unearth.Iso
