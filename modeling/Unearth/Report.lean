import Unearth.Checkpoint

/-!
# The reports of a run

A report has a row for every file: the values separated by commas, or an object on a line of its
own. Names that come from the disk are quoted as the format asks for it; everything else is
written as it is.
-/

namespace Unearth.Report
open Lines Decimal Hex

def replace (c : Char) (new : Text) (t : Text) : Text := t.flatMap fun d => if d = c then new else [d]

def csvEscape (s : Text) : Text :=
  if ',' ∈ s ∨ '"' ∈ s ∨ '\n' ∈ s then '"' :: (replace '"' ['"', '"'] s ++ ['"']) else s

def jsonEscape (s : Text) : Text := replace '"' ['\\', '"'] (replace '\\' ['\\', '\\'] s)

def quoted (t : Text) : Text := '"' :: (t ++ ['"'])

/-- A value of a row: a name, which is escaped between its quotes, a word, which is only put
between quotes, or something that is written without them. -/
inductive Value
  | name (t : Text)
  | word (t : Text)
  | number (t : Text)

def Value.print : Value → Text
  | name t => quoted (jsonEscape t)
  | word t => quoted t
  | number t => t

structure JsonField where
  key : Text
  value : Value

def JsonField.print (f : JsonField) : Text := quoted f.key ++ ':' :: ' ' :: f.value.print

/-- What follows the first field of an object. -/
def printRest : List JsonField → Text
  | [] => ['}']
  | f :: rest => ',' :: ' ' :: (f.print ++ printRest rest)

def printObject : List JsonField → Text
  | [] => ['{', '}']
  | f :: rest => '{' :: (f.print ++ printRest rest)

/-- A comma behind every line but the last. -/
def withCommas : List Text → List Text
  | [] => []
  | [l] => [l]
  | l :: m :: rest => (l ++ [',']) :: withCommas (m :: rest)

def jsonReport (rows : List (List JsonField)) : Text :=
  unlines (['['] :: withCommas (rows.map fun r => ' ' :: ' ' :: printObject r) ++ [[']']])

def csvLine : List Text → Text
  | [] => []
  | [cell] => cell
  | cell :: next :: rest => cell ++ ',' :: csvLine (next :: rest)

def csvReport (header : List String) (rows : List (List Text)) : Text :=
  unlines (csvLine (header.map String.toList) :: rows.map csvLine)

/-- A text that is the same in every format. -/
structure Plain (t : Text) : Prop where
  oneLine : OneLine t
  comma : ',' ∉ t
  quote : '"' ∉ t
  backslash : '\\' ∉ t

/-- The digest of a file, or nothing. -/
def digestText : Option Digest → Text
  | none => []
  | some d => toHex d.1

def boolText (b : Bool) : Text := if b then "true".toList else "false".toList

/-- A file of an undelete run; the name of a filesystem is never one of the keys of a report. -/
structure UndeleteRow where
  filesystem : Text
  volumeOffset : ℕ
  path : Text
  size : ℕ
  recovered : Bool
  sha256 : Option Digest
  filesystem_plain : Plain filesystem
  filesystem_ne : filesystem ∉ ["name".toList, "path".toList, "sha256".toList]
  path_line : OneLine path

def UndeleteRow.fields (r : UndeleteRow) : List JsonField :=
  [⟨"filesystem".toList, .name r.filesystem⟩, ⟨"volume_offset".toList, .number (decimal r.volumeOffset)⟩,
    ⟨"path".toList, .name r.path⟩, ⟨"size".toList, .number (decimal r.size)⟩,
    ⟨"recovered".toList, .number (boolText r.recovered)⟩, ⟨"sha256".toList, .word (digestText r.sha256)⟩]

def UndeleteRow.cells (r : UndeleteRow) : List Text :=
  [r.filesystem, decimal r.volumeOffset, csvEscape r.path, decimal r.size, boolText r.recovered,
    digestText r.sha256]

def writeReport (json : Bool) (rows : List UndeleteRow) : Text :=
  if json then jsonReport (rows.map UndeleteRow.fields)
  else csvReport ["filesystem", "volume_offset", "path", "size", "recovered", "sha256"]
    (rows.map UndeleteRow.cells)

/-- A file of the first pass of a recovery, or one of the second with its grade. -/
structure RecoverRow where
  grade : Option Confidence
  path : Text
  size : ℕ
  sha256 : Option Digest
  path_line : OneLine path

namespace RecoverRow

variable (r : RecoverRow)

def kind : Text := if r.grade.isNone then "named".toList else "carved".toList

def confidence : Text :=
  match r.grade with
  | none => "named".toList
  | some c => c.asStr

def fields : List JsonField :=
  [⟨"kind".toList, .word r.kind⟩, ⟨"path".toList, .name r.path⟩, ⟨"size".toList, .number (decimal r.size)⟩,
    ⟨"sha256".toList, .word (digestText r.sha256)⟩, ⟨"confidence".toList, .word r.confidence⟩]

def cells : List Text := [r.kind, csvEscape r.path, decimal r.size, digestText r.sha256, r.confidence]

end RecoverRow

def writeRecoverReport (json : Bool) (rows : List RecoverRow) : Text :=
  if json then jsonReport (rows.map RecoverRow.fields)
  else csvReport ["kind", "path", "size", "sha256", "confidence"] (rows.map RecoverRow.cells)

/-- A file of a carve; the extensions of the signatures are short. -/
structure CarveRow where
  file : CarvedFile
  name_line : OneLine file.name
  ext_plain : Plain file.ext
  ext_short : file.ext.length < 64
  ext_ne : file.ext ≠ "sha256".toList

namespace CarveRow

variable (r : CarveRow)

def fields : List JsonField :=
  [⟨"name".toList, .name r.file.name⟩, ⟨"type".toList, .word r.file.ext⟩,
    ⟨"offset".toList, .number (decimal r.file.offset)⟩, ⟨"size".toList, .number (decimal r.file.size)⟩,
    ⟨"sha256".toList, .word (toHex r.file.sha256.1)⟩,
    ⟨"confidence".toList, .word r.file.confidence.asStr⟩]

def cells : List Text :=
  [csvEscape r.file.name, r.file.ext, decimal r.file.offset, decimal r.file.size,
    toHex r.file.sha256.1, r.file.confidence.asStr]

end CarveRow

def writeCarveReport (json : Bool) (rows : List CarveRow) : Text :=
  if json then jsonReport (rows.map CarveRow.fields)
  else csvReport ["name", "type", "offset", "size", "sha256", "confidence"] (rows.map CarveRow.cells)

end Unearth.Report
