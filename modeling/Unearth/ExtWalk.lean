import Unearth.Salvage
import Unearth.ExtJournal
import Unearth.Lib.TreeWalk
import Unearth.Lib.Utf8

/-!
# The walk over the directories of an ext volume

The entries of a directory are those of its blocks, the stale ones in the slack between them
included, and those of the journaled copies of its blocks. A deleted regular file is found
under the first name that is seen for its inode.
-/

namespace Unearth.Ext
open Lines Bytes Word Loop TreeWalk Utf8

def MAX_DIR_DEPTH : ℕ := 64

structure DirEntry where
  ino : ℕ
  name : Text
  deriving DecidableEq

def round8 (n : ℕ) : ℕ := divCeil n 8 * 8

/-- The place of an entry that is being read, and whether it is the live one of its record. -/
structure Slot where
  pos : ℕ
  first : Bool
  entries : List DirEntry

section Dirents

variable (filetypeDirents : Bool) (data : List UInt8)

/-- The entry at a place, if it has a name, and how far on the next one is. -/
def readEntry (limit : ℕ) (s : Slot) : Exec (List DirEntry × ℕ) := do
  let ino ← field data s.pos 4
  let nameLen ← field data (s.pos + 6) (if filetypeDirents then 1 else 2)
  let recLen ← field data (s.pos + 4) 2
  let real := round8 (8 + nameLen)
  let step := if s.first then min real (max recLen 8) else real
  if ino ≠ 0 ∧ 0 < nameLen ∧ s.pos + 8 + nameLen ≤ limit then
    let name ← slice data (s.pos + 8) nameLen
    return ([⟨ino, fromUtf8Lossy name⟩], step)
  else return ([], step)

def direntStep (limit : ℕ) (s : Slot) : Ctl Slot (Exec (List DirEntry)) :=
  if limit < s.pos + 8 then .done (.ok s.entries)
  else
    match readEntry filetypeDirents data limit s with
    | .error e => .done (.error e)
    | .ok (found, step) =>
      if step = 0 then .done (.ok (s.entries ++ found))
      else .next ⟨s.pos + step, false, s.entries ++ found⟩

/-- The live entry of a record and the stale ones up to the end of it. -/
def direntLoop (limit : ℕ) : While Slot (Exec (List DirEntry)) where
  body := direntStep filetypeDirents data limit
  measure s := limit - s.pos
  decreases s s' h := by
    unfold direntStep at h
    split at h
    · cases h
    · split at h
      · cases h
      · split at h
        · cases h
        · cases h
          dsimp only
          omega

def recordStep (blockEnd : ℕ) (s : ℕ × List DirEntry) : Ctl (ℕ × List DirEntry) (Exec (List DirEntry)) :=
  if blockEnd < s.1 + 8 then .done (.ok s.2)
  else
    match field data (s.1 + 4) 2 with
    | .error e => .done (.error e)
    | .ok recLen =>
      if recLen < 8 ∨ blockEnd < s.1 + recLen then .done (.ok s.2)
      else
        match (direntLoop filetypeDirents data (s.1 + recLen)).eval ⟨s.1, true, []⟩ with
        | .error e => .done (.error e)
        | .ok found => .next (s.1 + recLen, s.2 ++ found)

/-- The records of a block. -/
def recordLoop (blockEnd : ℕ) : While (ℕ × List DirEntry) (Exec (List DirEntry)) where
  body := recordStep filetypeDirents data blockEnd
  measure s := blockEnd - s.1
  decreases s s' h := by
    unfold recordStep at h
    split at h
    · cases h
    · split at h
      · cases h
      · split at h
        · cases h
        · split at h
          · cases h
          · cases h
            dsimp only
            omega

def parseDirBlock (blockSize : ℕ) : Exec (List DirEntry) :=
  (List.range (divCeil data.length blockSize)).foldlM (fun entries i => do
    let base := i * blockSize
    return entries ++ (← (recordLoop filetypeDirents data (min (base + blockSize) data.length)).eval (base, [])))
    []

end Dirents

/-- A directory to be walked, with its path and depth. -/
structure Frame where
  ino : ℕ
  path : Path
  depth : ℕ

/-- A deleted file, by its inode. -/
structure Found where
  ino : ℕ
  path : Path
  size : ℕ
  deriving DecidableEq

/-- What the entries of a directory lead to. -/
structure Listing where
  pushed : List Frame
  reports : List Found

namespace Volume

variable (v : Volume) (src : Source) (journal : JournalIndex)

def isFormat (format : ℕ) (inode : List UInt8) : Exec Bool := do
  return (← inodeMode inode) &&& MODE_FMT = format

/-- The live inode of a directory that still has its blocks. -/
def liveDir (ino : ℕ) : Exec (Option (List UInt8)) := do
  match ← tolerated none (v.readInode src ino) with
  | none => return none
  | some inode =>
    if ← isFormat MODE_DIR inode then return if ← inodeHasBlockmap inode then some inode else none
    else return none

def journaledDir (ino : ℕ) : Exec (Option (List UInt8)) := do
  match ← v.journaledInode src journal ino with
  | none => return none
  | some inode => return if ← isFormat MODE_DIR inode then some inode else none

def dirInode (ino : ℕ) : Exec (Option (List UInt8)) := do
  match ← v.liveDir src ino with
  | some inode => return some inode
  | none => v.journaledDir src journal ino

/-- The entries in the journaled copies of a block, those of the newest copy first. -/
def copiedEntries (entries : List DirEntry) (block : ℕ) : Exec (List DirEntry) :=
  (v.journaledCopies src journal block).reverse.foldlM (fun entries copy => do
    return entries ++ (← parseDirBlock v.filetypeDirents copy v.blockSize)) entries

/-- The entries of a directory, the live blocks first. -/
def dirEntries (inode : List UInt8) : Exec (List DirEntry) := do
  let size ← dirSize inode
  let data ← tolerated [] (v.readFileData src inode size)
  let entries ← parseDirBlock v.filetypeDirents data v.blockSize
  if journal = [] then return entries
  else do
    let blocks ← tolerated [] (v.mapBlocks src inode (divCeil size v.blockSize))
    (blocks.filter (· ≠ 0)).foldlM (v.copiedEntries src journal) entries

variable (windows : Bool)

/-- What an entry leads to: a directory to be walked, or a deleted file. -/
def listEntry (frame : Frame) (entry : DirEntry) : Exec Listing :=
  if entry.name = ".".toList ∨ entry.name = "..".toList ∨ entry.ino = 0 then return ⟨[], []⟩
  else do
    match ← tolerated none (v.readInode src entry.ino) with
    | none => return ⟨[], []⟩
    | some child =>
      let path := frame.path ++ [sanitizeComponent windows entry.name]
      let links ← inodeLinks child
      let dtime ← inodeDtime child
      if ← isFormat MODE_DIR child then
        return ⟨if frame.depth < MAX_DIR_DEPTH then [⟨entry.ino, path, frame.depth + 1⟩] else [], []⟩
      else if ← isFormat MODE_REG child then
        if links = 0 ∨ dtime ≠ 0 then return ⟨[], [⟨entry.ino, path, ← regSize child⟩]⟩
        else return ⟨[], []⟩
      else return ⟨[], []⟩

def listEntries (frame : Frame) : List DirEntry → Exec Listing
  | [] => return ⟨[], []⟩
  | entry :: rest => do
    let one ← v.listEntry src windows frame entry
    let list ← listEntries frame rest
    return ⟨one.pushed ++ list.pushed, one.reports ++ list.reports⟩

/-- What a directory leads to, unless there is none under the inode. -/
def listDirectory (frame : Frame) : Exec Listing := do
  match ← v.dirInode src journal frame.ino with
  | none => return ⟨[], []⟩
  | some inode =>
    let entries ← v.dirEntries src journal inode
    v.listEntries src windows frame entries.eraseDups

def visit (visited : Finset ℕ) (frame : Frame) : VisitResult Frame Found Fault :=
  if frame.ino ∈ visited then ⟨visited, [], [], [], none⟩
  else
    match v.listDirectory src journal windows frame with
    | .error e => ⟨insert frame.ino visited, [frame.ino], [], [], some e⟩
    | .ok list => ⟨insert frame.ino visited, [frame.ino], list.pushed, list.reports, none⟩

def rootFrame : Frame := ⟨ROOT_INODE, [], 0⟩

/-- At most `fuel` directories of the volume, the root first. -/
def walk (fuel : ℕ) : Option (WalkResult Found Fault) :=
  TreeWalk.walk (v.visit src journal windows) fuel rootFrame

/-- The deleted files in the order of their inodes, each under the first name that was seen. -/
def foundMap (reports : List Found) : List (ℕ × Path × ℕ) :=
  reports.foldl (fun found r => SortedMap.orInsert r.ino (r.path, r.size) found) []

/-- The inode to recover from: the live one, or else a journaled copy. -/
def chooseInode (ino : ℕ) : Exec (Option (List UInt8)) := do
  match ← tolerated none (v.readInode src ino) with
  | none => v.journaledInode src journal ino
  | some live => if ← inodeHasBlockmap live then return some live else v.journaledInode src journal ino

variable (opts : RecoverOptions)

/-- What is done about a file that was found. -/
def salvage (ino : ℕ) (rel : Path) : Exec (Option Salvage) := do
  match ← v.chooseInode src journal ino with
  | none => return some (.skipped rel 0)
  | some inode =>
    let size ← regSize inode
    let mtime ← inodeMtime inode
    if opts.sizeOk size = false then return none
    else if opts.timeOk (fromUnix mtime) = false then return none
    else if opts.nameOk (fileNameOf rel) = false then return none
    else if size = 0 ∨ satMul v.totalBlocks v.blockSize < size then return some (.skipped rel size)
    else if opts.dryRun then return some (.listed rel size)
    else do
      -- A file is only created when there is something to write.
      let data ← tolerated [] (v.readFileData src inode size)
      if data = [] then return some (.skipped rel size)
      else
        -- The times of the inode are given to the file.
        let _ ← inodeAtime inode
        return some (.written rel data.length data true)

/-- What is attempted, in the order of the inodes, if the walk over `fuel` directories ends. -/
def recoverDeleted (fuel : ℕ) : Option (Exec (List Salvage)) :=
  match tolerated [] (v.buildJournalIndex src) with
  | .error e => some (.error e)
  | .ok journal => (v.walk src journal windows fuel).map fun r =>
      match r.error with
      | some e => .error e
      | none => (foundMap r.reports).filterMapM fun f => v.salvage src journal opts f.1 f.2.1

end Volume

end Unearth.Ext
