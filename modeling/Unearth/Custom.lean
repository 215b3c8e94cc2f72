import Unearth.FindFooter
import Unearth.Json
import Unearth.Scan

/-!
# Types described at run time

A caller can describe a type by its magic and by a rule for its length. The description is
checked before it is used: its extension, its magic and the cap on its size. Its offsets are
taken as they are.
-/

namespace Unearth.Custom
open Lines Bytes Word

def MAX_SIZE_CAP : ℕ := 2 ^ 40

inductive Length
  | fixed (size : ℕ)
  | sizeField (offset width : ℕ) (bigEndian : Bool) (mul add : ℕ)
  | footer (marker : List UInt8) (trailing : ℕ)
  deriving DecidableEq

structure Spec where
  name : Text
  ext : Text
  magic : List UInt8
  magicOffset : ℕ
  secondary : Option (ℕ × List UInt8)
  maxSize : ℕ
  length : Length
  deriving DecidableEq

section Parsing

def reqStr (obj : Json) (key : String) : Except Text Text :=
  match (obj.get key.toList).bind Json.asStr with
  | some s => .ok s
  | none => .error ("'" ++ key ++ "' is required and must be a string").toList

def optStr (obj : Json) (key : String) : Option Text := (obj.get key.toList).bind Json.asStr
def optU64 (obj : Json) (key : String) : Option ℕ := (obj.get key.toList).bind Json.asU64

def okOr {α : Type} (o : Option α) (message : String) : Except Text α :=
  match o with
  | some a => .ok a
  | none => .error message.toList

/-- An error under the name of the field that it is about. -/
def inField {α : Type} (name : Text) : Except Text α → Except Text α
  | .ok a => .ok a
  | .error e => .error (name ++ e)

def isAsciiWhitespace (c : Char) : Bool :=
  c = ' ' || c = '\t' || c = '\n' || c = '\r' || c = Char.ofNat 12

def hexDigit (c : UInt8) : Except Text UInt8 :=
  if 48 ≤ c ∧ c ≤ 57 then .ok (c - 48)
  else if 97 ≤ c ∧ c ≤ 102 then .ok (c - 97 + 10)
  else if 65 ≤ c ∧ c ≤ 70 then .ok (c - 65 + 10)
  else .error ("invalid hex digit '".toList ++ [Char.ofNat c.toNat, '\''])

def hexPairs : List UInt8 → Except Text (List UInt8)
  | hi :: lo :: rest => do
    let h ← hexDigit hi
    let l ← hexDigit lo
    return (h <<< 4 ||| l) :: (← hexPairs rest)
  | _ => .ok []

/-- The text without its first two characters, when they say that it is hexadecimal. -/
def stripRadix : Text → Text
  | '0' :: 'x' :: rest => rest
  | '0' :: 'X' :: rest => rest
  | s => s

def parseHex (s : Text) : Except Text (List UInt8) :=
  let cleaned := stripRadix (s.filter fun c => !isAsciiWhitespace c && c ≠ ':')
  let bytes := cleaned.flatMap String.utf8EncodeChar
  if bytes.length % 2 ≠ 0 then .error "hex string must have an even number of digits".toList
  else hexPairs bytes

def utf8Len (s : Text) : ℕ := (s.map Char.utf8Size).sum

def validateExt (ext : Text) : Except Text Unit :=
  if ext = [] ∨ 16 < utf8Len ext then .error "ext must be 1..=16 characters".toList
  else if ext.all extChar then .ok ()
  else .error "ext may only contain ASCII letters, digits, '_' or '-'".toList

def parseEndian (endian : Text) : Except Text Bool :=
  if endian = "le".toList ∨ endian = "little".toList then .ok false
  else if endian = "be".toList ∨ endian = "big".toList then .ok true
  else .error ("endian must be 'le' or 'be', got '".toList ++ endian ++ ['\''])

def parseFixed (l : Json) : Except Text Length := do
  let size ← okOr (optU64 l "size") "fixed length needs 'size'"
  if size = 0 then .error "fixed 'size' must be greater than 0".toList
  else return .fixed size

def parseSizeField (l : Json) : Except Text Length := do
  let offset ← okOr (optU64 l "offset") "size_field needs 'offset'"
  let width ← okOr (optU64 l "width") "size_field needs 'width'"
  if ¬ (width = 8 ∨ width = 16 ∨ width = 32 ∨ width = 64) then
    .error "size_field 'width' must be 8, 16, 32, or 64".toList
  else do
    let bigEndian ← parseEndian ((optStr l "endian").getD "le".toList)
    let mul := (optU64 l "mul").getD 1
    if mul = 0 then .error "size_field 'mul' must be greater than 0".toList
    else return .sizeField offset width bigEndian mul ((optU64 l "add").getD 0)

def parseFooter (l : Json) : Except Text Length := do
  let marker ← inField "marker: ".toList (parseHex (← reqStr l "marker"))
  if marker = [] then .error "footer needs a non-empty 'marker'".toList
  else return .footer marker ((optU64 l "trailing").getD 0)

def parseLength (l : Json) : Except Text Length := do
  let strategy ← reqStr l "strategy"
  if strategy = "fixed".toList then parseFixed l
  else if strategy = "size_field".toList then parseSizeField l
  else if strategy = "footer".toList then parseFooter l
  else .error ("unknown length strategy '".toList ++ strategy ++ ['\''])

def parseSecondary : Option Json → Except Text (Option (ℕ × List UInt8))
  | none => .ok none
  | some sec => do
    let offset ← okOr (optU64 sec "offset") "secondary.offset is required"
    let bytes ← inField "secondary.bytes: ".toList (parseHex (← reqStr sec "bytes"))
    if bytes = [] then .error "secondary.bytes must be non-empty".toList
    else return some (offset, bytes)

def parseMaxSize (item : Json) : Except Text ℕ := do
  let maxSize ← okOr (optU64 item "max_size") "max_size is required"
  if maxSize = 0 ∨ MAX_SIZE_CAP < maxSize then
    .error "max_size must be between 1 and 1099511627776".toList
  else return maxSize

def parseMagic (item : Json) : Except Text (List UInt8) := do
  let magic ← inField "magic: ".toList (parseHex (← reqStr item "magic"))
  if magic = [] then .error "magic must have at least one byte".toList
  else return magic

/-- A description and its checks. -/
def Spec.parse (item : Json) : Except Text Spec := do
  let name ← reqStr item "name"
  let ext ← reqStr item "ext"
  validateExt ext
  let magic ← parseMagic item
  let magicOffset := (optU64 item "magic_offset").getD 0
  let maxSize ← parseMaxSize item
  let secondary ← parseSecondary (item.get "secondary".toList)
  let length ← parseLength (← okOr (item.get "length".toList) "length is required")
  return { name, ext, magic, magicOffset, secondary, maxSize, length }

end Parsing

end Unearth.Custom
