import Unearth.Lib.Utf16
import Unearth.NtfsFixup
import Unearth.NtfsRuns
import Unearth.Undelete

/-!
# The attributes of an NTFS record

A record is a header and a sequence of attributes, each with its type and length. A loop over
them ends for any bytes, since no attribute is shorter than its header.
-/

namespace Unearth.Ntfs
open Lines Bytes Word Loop Utf16

def ATTR_STANDARD_INFO : ℕ := 0x10
def ATTR_FILE_NAME : ℕ := 0x30
def ATTR_VOLUME_NAME : ℕ := 0x60
def ATTR_VOLUME_INFORMATION : ℕ := 0x70
def ATTR_DATA : ℕ := 0x80
def ATTR_END : ℕ := 0xFFFFFFFF

/-- The letters `FILE`. -/
def magic : List UInt8 := [0x46, 0x49, 0x4C, 0x45]

inductive DataKind
  | resident (content : List UInt8)
  | nonResident (runs : Runs)
  deriving DecidableEq

structure DataAttr where
  size : ℕ
  kind : DataKind
  deriving DecidableEq

/-- What is wanted of a record: its best name, with the reference of the parent, its data
and its times. -/
structure ParsedRecord where
  fileName : Option (Text × ℕ)
  data : Option DataAttr
  mtime : Option SystemTime
  atime : Option SystemTime

section Content

variable (rec : List UInt8) (want : ℕ)

def contentStep (offset : ℕ) : Ctl ℕ (Option (List UInt8)) :=
  if rec.length < offset + 16 then .done none
  else
    let attrType := le (window rec offset 4)
    let attrLen := le (window rec (offset + 4) 4)
    if attrType = ATTR_END then .done none
    else if attrLen < 24 ∨ rec.length < offset + attrLen then .done none
    else if attrType = want ∧ byteAt rec (offset + 8) = 0 then
      let contentLen := le (window rec (offset + 16) 4)
      let start := offset + le (window rec (offset + 20) 2)
      .done (if rec.length < start + contentLen then none else some (window rec start contentLen))
    else .next (offset + attrLen)

def contentLoop : While ℕ (Option (List UInt8)) where
  body := contentStep rec want
  measure offset := rec.length - offset
  decreases offset offset' h := by
    dsimp only [contentStep] at h
    split_ifs at h with hend htype hlen
    cases h
    omega

/-- The content of the first resident attribute of a type. -/
def residentAttrContent : Option (List UInt8) :=
  if rec.length < 24 ∨ window rec 0 4 ≠ magic then none
  else (contentLoop rec want).eval (le (window rec 20 2))

end Content

/-- A name, the reference of its parent and its namespace. -/
def parseFileName (attr : List UInt8) : Option (Text × ℕ × ℕ) :=
  if attr.length < 24 then none
  else
    let contentLen := le (window attr 16 4)
    let contentOff := le (window attr 20 2)
    if attr.length < contentOff + contentLen ∨ contentLen < 0x42 then none
    else
      let c := window attr contentOff contentLen
      let nameChars := (byteAt c 0x40).toNat
      if c.length < 0x42 + nameChars * 2 then none
      else
        let name := fromUtf16Lossy (unitsOf (window c 0x42 (nameChars * 2)))
        if name = [] then none else some (name, le (window c 0 8), (byteAt c 0x41).toNat)

section Parse

variable (b : Build)

def parseData (attr : List UInt8) (nonResident : Bool) : Exec (Option DataAttr) :=
  if nonResident = false then
    if attr.length < 24 then return none
    else
      let contentLen := le (window attr 16 4)
      let contentOff := le (window attr 20 2)
      if attr.length < contentOff + contentLen then return none
      else return some ⟨contentLen, .resident (window attr contentOff contentLen)⟩
  else if attr.length < 56 then return none
  else
    let runOffset := le (window attr 32 2)
    let realSize := le (window attr 48 8)
    if attr.length ≤ runOffset then return none
    else do
      let runs ← decodeDataRuns b (attr.drop runOffset)
      return if runs = [] then none else some ⟨realSize, .nonResident runs⟩

/-- What the loop over the attributes has found. -/
structure RecordState where
  offset : ℕ
  bestName : Option (Text × ℕ × ℕ) := none
  data : Option DataAttr := none
  mtime : Option SystemTime := none
  atime : Option SystemTime := none

/-- A name of Windows is better than one of DOS, and then a longer one. -/
def better (best : Option (Text × ℕ × ℕ)) (name : Text × ℕ × ℕ) : Bool :=
  match best with
  | none => true
  | some (bn, _, bns) => name.2.2 ≠ 2 && (bns = 2 || utf8Size bn < utf8Size name.1)

/-- The state after the attribute `attr` of a type. -/
def takeAttr (attrType : ℕ) (attr : List UInt8) (s : RecordState) : Exec RecordState :=
  let nonResident : Bool := byteAt attr 8 ≠ 0
  if attrType = ATTR_STANDARD_INFO ∧ nonResident = false ∧ 22 ≤ attr.length then
    let base := le (window attr 20 2)
    if base + 0x20 ≤ attr.length then
      return { s with
        mtime := fromFiletime (le (window attr (base + 0x08) 8))
        atime := fromFiletime (le (window attr (base + 0x18) 8)) }
    else return s
  else if attrType = ATTR_FILE_NAME ∧ nonResident = false then
    match parseFileName attr with
    | none => return s
    | some name => return if better s.bestName name then { s with bestName := some name } else s
  else if attrType = ATTR_DATA ∧ byteAt attr 9 = 0 then do
    let data ← parseData b attr nonResident
    return { s with data := data }
  else return s

def ParsedRecord.ofState (s : RecordState) : ParsedRecord where
  fileName := s.bestName.map fun name => (name.1, name.2.1)
  data := s.data
  mtime := s.mtime
  atime := s.atime

def recordStep (rec : List UInt8) (s : RecordState) : Ctl RecordState (Exec RecordState) :=
  if rec.length < s.offset + 16 then .done (.ok s)
  else
    let attrType := le (window rec s.offset 4)
    let attrLen := le (window rec (s.offset + 4) 4)
    if attrType = ATTR_END then .done (.ok s)
    else if attrLen < 16 ∨ rec.length < s.offset + attrLen then .done (.ok s)
    else
      match takeAttr b attrType (window rec s.offset attrLen) s with
      | .error e => .done (.error e)
      | .ok s' => .next { s' with offset := s.offset + attrLen }

def recordLoop (rec : List UInt8) : While RecordState (Exec RecordState) where
  body := recordStep b rec
  measure s := rec.length - s.offset
  decreases s s' h := by
    dsimp only [recordStep] at h
    split_ifs at h with hend htype hlen
    split at h
    · cases h
    · cases h
      dsimp only
      omega

def parseRecord (rec : List UInt8) : Exec (Option ParsedRecord) :=
  if rec.length < 24 then return none
  else do
    let s ← (recordLoop b rec).eval { offset := le (window rec 20 2) }
    return some (.ofState s)

/-- The runs and the size of the `$MFT`, out of its own record. -/
def mftDataExtent (rec0 : List UInt8) : Exec (Except Text (Runs × ℕ)) := do
  match ← parseRecord b rec0 with
  | none => return .error "parsing $MFT record".toList
  | some parsed =>
    match parsed.data with
    | some ⟨size, .nonResident runs⟩ => return .ok (runs, size)
    | _ => return .error "$MFT $DATA is missing or resident".toList

end Parse

end Unearth.Ntfs
