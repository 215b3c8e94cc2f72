import Unearth.FileTree
import Unearth.Sha256
import Unearth.SignatureTable
import Unearth.Lib.Tally
import Unearth.Lib.Utf8

/-!
# A summary of a directory

Every file of a directory is hashed and counted: with the others of its extension, with the others of its
content, and by its size.
-/

namespace Unearth.Triage
open FileTree FileSystem SortedMap Bytes Word Lines Utf8

structure TypeStat where
  count : ℕ
  bytes : ℕ
  deriving DecidableEq

/-- A file whose content is of another type than its extension says. -/
structure Mismatch where
  path : Text
  claimed : Text
  detected : Text

structure Corrupt where
  path : Text
  claimed : Text

structure Summary where
  totalFiles : ℕ := 0
  totalBytes : ℕ := 0
  byType : List (Text × TypeStat) := []
  largest : List (Text × ℕ) := []
  emptyFiles : ℕ := 0
  duplicateSets : ℕ := 0
  duplicateBytes : ℕ := 0
  mismatches : List Mismatch := []
  corrupt : List Corrupt := []
  oldestMtime : Option ℕ := none
  newestMtime : Option ℕ := none

section Types

def categoryName : Category → Text
  | .image => "image".toList
  | .audio => "audio".toList
  | .video => "video".toList
  | .document => "document".toList
  | .archive => "archive".toList
  | .executable => "executable".toList
  | .font => "font".toList
  | .system => "system".toList
  | .volume => "volume".toList
  | .other => "other".toList

/-- The tallies of the extensions, added up by category. -/
def addStat (entry : Option TypeStat) (e : Text × TypeStat) : TypeStat :=
  let stat := entry.getD ⟨0, 0⟩
  ⟨stat.count + e.2.count, satAdd stat.bytes e.2.bytes⟩

def Summary.byCategory (s : Summary) : List (Text × TypeStat) :=
  tally (fun e => categoryName (categoryOf e.1)) addStat s.byType

def hasSignature (ext : Text) : Bool := signatures.any (·.ext = ext)

def canonicalExt (ext : Text) : Text :=
  if ext = "jpeg".toList ∨ ext = "jpe".toList ∨ ext = "jfif".toList then "jpg".toList
  else if ext = "tiff".toList then "tif".toList
  else if ext = "mov".toList ∨ ext = "m4v".toList ∨ ext = "m4a".toList ∨ ext = "m4b".toList ∨ ext = "qt".toList then
    "mp4".toList
  else if ext = "aif".toList then "aiff".toList
  else ext

inductive Content
  | ok
  | mismatch (detected : Text)
  | corrupt

/-- What the beginning of a file says of its extension, from the type that it is identified as. -/
def classifyContent (identify : List UInt8 → Option Text) (claimed : Text) (head : List UInt8) : Content :=
  let canon := canonicalExt claimed
  if categoryOf canon = .other ∧ hasSignature canon = false then .ok
  else match identify head with
    | some detected =>
      if detected = canon then .ok else if categoryOf canon ≠ .other then .mismatch detected else .ok
    | none => if hasSignature canon then .corrupt else .ok

/-- The extension of a name: what is behind its last dot, unless that is its first byte or there is none. -/
def extension (name : Name) : Option Name :=
  let behind := (name.reverse.takeWhile (· ≠ 0x2e)).reverse
  if name.length ≤ behind.length + 1 then none else some behind

def extOf (path : List Name) : Text := (((extension (path.getLastD [])).bind fromUtf8).map (·.map Char.toLower)).getD []

def relText (path : List Name) : Text := fromUtf8Lossy ([0x2f].intercalate path)

end Types

section Walk

variable (fs : FileSystem) (dir : List Step)

def below (path : List Name) : List Step := dir ++ path.map .name

/-- The paths below a directory that do not lead to directories. -/
def collect (rel : List Name) : Exec (List (List Name)) := do
  let names ← fs.readDir (below dir rel)
  names.foldlM (fun out name =>
    if _h : fs.isDir (below dir (rel ++ [name])) then do return out ++ (← collect (rel ++ [name]))
    else return out ++ [rel ++ [name]]) []
termination_by fs.steps - (below dir rel).length
decreasing_by
  have hle := length_le_of_isDir _h
  simp only [below, List.map_append, List.length_append, List.length_map, List.length_singleton] at hle ⊢
  omega

end Walk

section Files

variable (identify : List UInt8 → Option Text)

/-- A file in pieces as it is read: its size, its digest and its beginning. -/
def hashFile (content : List UInt8) : ℕ × List UInt8 × List UInt8 :=
  let pieces := chunks 65536 content
  ((pieces.map List.length).sum, (pieces.foldl Hash.Sha256.update .new).finalize, pieces.headD [])

def size (f : File) : ℕ := (hashFile f.content).1
def digest (f : File) : List UInt8 := (hashFile f.content).2.1
def head (f : File) : List UInt8 := (hashFile f.content).2.2

def addType (entry : Option TypeStat) (f : File) : TypeStat :=
  let stat := entry.getD ⟨0, 0⟩
  ⟨stat.count + 1, satAdd stat.bytes (size f)⟩

/-- The number of files with a digest, and the size of the first. -/
def addDigest (entry : Option (ℕ × ℕ)) (f : File) : ℕ × ℕ :=
  let e := entry.getD (0, size f)
  (e.1 + 1, e.2)

/-- Digests are in the order of their bytes. -/
def digestKey (f : File) : List ℕ := (digest f).map UInt8.toNat

structure Progress where
  summary : Summary := {}
  byDigest : List (List ℕ × ℕ × ℕ) := []
  sized : List (Text × ℕ) := []

def newer (choose : ℕ → ℕ → ℕ) (known seconds : Option ℕ) : Option ℕ :=
  match seconds with
  | none => known
  | some secs => some ((known.map fun o => choose o secs).getD secs)

def countFile (p : Progress) (f : File) : Progress :=
  let ext := extOf f.path
  let rel := relText f.path
  let content := if head f = [] then .ok else classifyContent identify ext (head f)
  { summary := { p.summary with
      totalFiles := p.summary.totalFiles + 1
      totalBytes := satAdd p.summary.totalBytes (size f)
      emptyFiles := if size f = 0 then p.summary.emptyFiles + 1 else p.summary.emptyFiles
      oldestMtime := newer min p.summary.oldestMtime f.modified
      newestMtime := newer max p.summary.newestMtime f.modified
      mismatches := match content with
        | .mismatch detected => p.summary.mismatches ++ [⟨rel, ext, detected⟩]
        | _ => p.summary.mismatches
      corrupt := match content with
        | .corrupt => p.summary.corrupt ++ [⟨rel, ext⟩]
        | _ => p.summary.corrupt
      byType := addItem (extOf ·.path) addType p.summary.byType f }
    byDigest := addItem digestKey addDigest p.byDigest f
    sized := p.sized ++ [(rel, size f)] }

/-- Files of one content are one set of duplicates, all but one of them redundant. -/
def addDuplicates (s : Summary) (e : ℕ × ℕ) : Summary :=
  if 1 < e.1 then { s with
    duplicateSets := s.duplicateSets + 1
    duplicateBytes := satAdd s.duplicateBytes (satMul e.2 (e.1 - 1)) }
  else s

/-- The larger first, and of the same size by their paths. -/
def larger (a b : Text × ℕ) : Bool := b.2 < a.2 ∨ (b.2 = a.2 ∧ a.1 ≤ b.1)

def finish (p : Progress) (topN : ℕ) : Summary :=
  { (p.byDigest.map Prod.snd).foldl addDuplicates p.summary with largest := (p.sized.mergeSort larger).take topN }

variable (fs : FileSystem) (dir : List Step)

def readFile (path : List Name) : Exec File := do
  return ⟨path, ← fs.read (below dir path), fs.modified (below dir path)⟩

def summarize (topN : ℕ) : Exec Summary := do
  let files ← collect fs dir []
  let progress ← files.foldlM (fun p path => return countFile identify p (← readFile fs dir path)) {}
  return finish progress topN

end Files

end Unearth.Triage
