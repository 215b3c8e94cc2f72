import Unearth.HfsCatalog
import Unearth.Lib.Loop
import Unearth.Lib.SortedMap
import Unearth.Salvage

/-!
# The undelete of an HFS+ volume

A first pass over the leaf nodes of the catalog finds the files and folders that are live, a
second one finds file records in the space behind the live ones, and a third one those in the
leaf nodes that the journal still has. What is found is written under the path of its folder.
-/

namespace Unearth.Hfs
open Bytes Word Lines Loop Post

def JOURNAL_CHUNK : ℕ := 4 * 1024 * 1024

/-- The files that are live, and the folders. -/
structure Index where
  live : Finset ℕ
  folders : Folders

/-- The deleted files in the order in which they are found, and the numbers of all of them. -/
structure FreeScan (total : ℕ) where
  seen : Finset ℕ
  candidates : List (FileRecord total)

/-- The newest copy of each file in the journal, by its number, and the folders. -/
structure JournalScan (total : ℕ) where
  newest : List (ℕ × FileRecord total)
  folders : Folders

abbrev PendingRuns (total : ℕ) := List (Pending total)

/-- What continues each file, by its number. -/
abbrev OverflowExtents (total : ℕ) := List (ℕ × PendingRuns total)

/-- The deleted files of a volume, with what their recovery needs. -/
structure Passes (total : ℕ) where
  candidates : List (FileRecord total)
  folders : Folders
  overflow : OverflowExtents total

section Nodes

variable {σ : Type} (tree : List UInt8) (ns : ℕ)

/-- What the leaf nodes of a tree make of a state, one after the other. -/
def forLeaves (f : σ → List UInt8 → Exec σ) (s : σ) : Exec σ :=
  (List.range (tree.length / ns)).foldlM (fun s idx => do
    let node ← slice tree (idx * ns) ns
    if nodeKind node = KIND_LEAF then f s node else return s) s

end Nodes

namespace Volume

variable (b : Build) (v : Volume) (src : Source)

/-- The bytes of blocks that follow each other, and whether more are wanted. -/
def readBlocks (want : ℕ) : ℕ → ℕ → List UInt8 → Exec (Bool × List UInt8)
  | 0, _, buf => return (true, buf)
  | n + 1, block, buf =>
    if want ≤ buf.length then return (false, buf)
    else do
      let bytes ← src.readAt (← word 64 b (v.offset + block * v.blockSize)) v.blockSize
      if bytes = [] then return (false, buf) else readBlocks want n (block + 1) (buf ++ bytes)

def readExtents (want : ℕ) : List (ℕ × ℕ) → List UInt8 → Exec (List UInt8)
  | [], buf => return buf
  | (start, count) :: rest, buf => do
    let (more, buf) ← v.readBlocks b src want count start buf
    if more then readExtents want rest buf else return buf

/-- How many bytes of a fork are wanted: those it has, or all of its extents, but not too many. -/
def wanted (extents : Runs v.totalBlocks) (logicalSize : ℕ) : Exec ℕ := do
  let bytes ← word 64 b ((extents.extents.map fun e => e.2 * v.blockSize).sum)
  return min (if 0 < logicalSize then min logicalSize bytes else bytes) MAX_CATALOG

def readFork (extents : Runs v.totalBlocks) (logicalSize : ℕ) : Exec (List UInt8) := do
  let want ← v.wanted b extents logicalSize
  return (← v.readExtents b src want extents.extents []).take want

def readCatalog : Exec (List UInt8) := do
  let buf ← v.readFork b src v.catalogExtents v.catalogSize
  if buf.length < 512 then .error .refused else return buf

section Overflow

/-- The extents of a record with those that the file already has. -/
def addExtents (r : ExtentRecord v.totalBlocks) (overflow : OverflowExtents v.totalBlocks) :
    OverflowExtents v.totalBlocks :=
  SortedMap.insert r.fileId ((overflow.lookup r.fileId).getD [] ++ [r.pending]) overflow

def addExtentRecord (node : List UInt8) (overflow : OverflowExtents v.totalBlocks) (off : ℕ) :
    Exec (OverflowExtents v.totalBlocks) := do
  match ← parseExtentRecord b v node off with
  | none => return overflow
  | some r => return if r.forkType ≠ 0 ∨ r.pending.extents.extents = [] then overflow else v.addExtents r overflow

def readOverflowNode (ns : ℕ) (overflow : OverflowExtents v.totalBlocks) (node : List UInt8) :
    Exec (OverflowExtents v.totalBlocks) := do
  (← liveRecordOffsets b node ns).foldlM (v.addExtentRecord b node) overflow

/-- The records of each file in the order of the blocks that they begin with. -/
def sortRuns (overflow : OverflowExtents v.totalBlocks) : OverflowExtents v.totalBlocks :=
  overflow.map fun e => (e.1, e.2.insertionSort fun r r' => r.startBlock ≤ r'.startBlock)

/-- The extents of a tree that could be read; a tree without a header has none. -/
def overflowOf (tree : List UInt8) : Exec (OverflowExtents v.totalBlocks) :=
  if tree.length < 512 then return []
  else
    match nodeSize tree with
    | .error _ => return []
    | .ok ns => do return v.sortRuns (← forLeaves tree ns (v.readOverflowNode b ns) [])

def readExtentsOverflow : Exec (OverflowExtents v.totalBlocks) :=
  if v.extentsOverflowExtents.extents = [] then return []
  else do
    let tree ← tolerated [] (v.readFork b src v.extentsOverflowExtents v.extentsOverflowSize)
    v.overflowOf b tree

end Overflow

section Passes

/-- The first pass at a record. -/
def indexRecord (node : List UInt8) (s : Index) (off : ℕ) : Exec Index := do
  match ← parseFileRecord b v node off with
  | some rec => return { s with live := insert rec.fileId s.live }
  | none =>
    match ← parseFolderRecord b node off with
    | some (cnid, name, parent) => return { s with folders := (cnid, name, parent) :: s.folders }
    | none => return s

def indexNode (ns : ℕ) (s : Index) (node : List UInt8) : Exec Index := do
  (← liveRecordOffsets b node ns).foldlM (v.indexRecord b node) s

variable (live : Finset ℕ)

/-- A record that was found in free space, unless its file is live or was found before. -/
def addFree (rec : FileRecord v.totalBlocks) (s : FreeScan v.totalBlocks) : FreeScan v.totalBlocks :=
  if rec.fileId ∈ live ∨ rec.fileId ∈ s.seen then s
  else ⟨insert rec.fileId s.seen, s.candidates ++ [rec]⟩

def freeStep (node : List UInt8) (freeEnd : ℕ) (s : ℕ × FreeScan v.totalBlocks) :
    Ctl (ℕ × FreeScan v.totalBlocks) (Exec (FreeScan v.totalBlocks)) :=
  if freeEnd < s.1 + 2 then .done (.ok s.2)
  else
    match parseFileRecord b v node s.1 with
    | .error e => .done (.error e)
    | .ok none => .next (s.1 + 2, s.2)
    | .ok (some rec) => .next (s.1 + 2, v.addFree live rec s.2)

/-- The second pass over the free space of a node, from a place on. -/
def freeLoop (node : List UInt8) (freeEnd : ℕ) : While (ℕ × FreeScan v.totalBlocks) (Exec (FreeScan v.totalBlocks)) where
  body := v.freeStep b live node freeEnd
  measure s := freeEnd - s.1
  decreases s s' h := by
    unfold freeStep at h
    split at h
    · cases h
    · split at h
      · cases h
      · cases h
        dsimp only
        omega
      · cases h
        dsimp only
        omega

def freeNode (ns : ℕ) (s : FreeScan v.totalBlocks) (node : List UInt8) : Exec (FreeScan v.totalBlocks) := do
  let (freeStart, freeEnd) ← freeSpace b node ns
  (v.freeLoop b live node freeEnd).eval (freeStart, s)

variable (seen : Finset ℕ)

/-- A record of the journal, unless its file is live, was found before or has a newer copy. -/
def addNewest (rec : FileRecord v.totalBlocks) (newest : List (ℕ × FileRecord v.totalBlocks)) :
    List (ℕ × FileRecord v.totalBlocks) :=
  if rec.fileId ∈ live ∨ rec.fileId ∈ seen then newest
  else if (newest.lookup rec.fileId).all (·.modDate ≤ rec.modDate) then SortedMap.insert rec.fileId rec newest
  else newest

/-- The third pass at a record. A folder that is known stays what it is. -/
def journalRecord (node : List UInt8) (s : JournalScan v.totalBlocks) (off : ℕ) : Exec (JournalScan v.totalBlocks) := do
  match ← parseFileRecord b v node off with
  | some rec => return { s with newest := v.addNewest live seen rec s.newest }
  | none =>
    match ← parseFolderRecord b node off with
    | some (cnid, name, parent) =>
      return { s with folders := if (s.folders.lookup cnid).isSome then s.folders else (cnid, name, parent) :: s.folders }
    | none => return s

def journalNode (ns : ℕ) (s : JournalScan v.totalBlocks) (node : List UInt8) : Exec (JournalScan v.totalBlocks) := do
  (← liveRecordOffsets b node ns).foldlM (v.journalRecord b live seen node) s

end Passes

section ScanJournal

variable {σ : Type} (f : σ → List UInt8 → Exec σ) (ns : ℕ)

/-- The nodes that begin in the chunk that was read, `n` places at most, 512 bytes apart. -/
def scanChunk (buf : List UInt8) (lastStart : ℕ) : ℕ → ℕ → σ → Exec σ
  | 0, _, s => return s
  | n + 1, off, s =>
    if lastStart < off then return s
    else do
      let node ← slice buf off ns
      if ← looksLikeLeafNode b node ns then scanChunk buf lastStart n (off + 512) (← f s node)
      else scanChunk buf lastStart n (off + 512) s

def chunkStep (joff jlen : ℕ) (s : ℕ × σ) : Ctl (ℕ × σ) (Exec σ) :=
  if jlen ≤ s.1 then .done (.ok s.2)
  else
    let want := min (jlen - s.1) (JOURNAL_CHUNK + ns)
    match (do src.readAt (← word 64 b (v.offset + joff + s.1)) want) with
    | .error e => .done (.error e)
    | .ok buf =>
      if buf.length < ns then .done (.ok s.2)
      else
        let lastStart := min (buf.length - ns) (JOURNAL_CHUNK - 1)
        match scanChunk b f ns buf lastStart (lastStart / 512 + 1) 0 s.2 with
        | .error e => .done (.error e)
        | .ok t => if buf.length < want then .done (.ok t) else .next (s.1 + JOURNAL_CHUNK, t)

/-- The chunks of the journal. They overlap, so that a node is complete in the one in which it begins. -/
def chunkLoop (joff jlen : ℕ) : While (ℕ × σ) (Exec σ) where
  body := v.chunkStep b src f ns joff jlen
  measure s := jlen - s.1
  decreases s s' h := by
    unfold chunkStep at h
    split at h
    · cases h
    · dsimp only at h
      split at h
      · cases h
      · split at h
        · cases h
        · split at h
          · cases h
          · split at h
            · cases h
            · cases h
              have hpos : 0 < JOURNAL_CHUNK := by decide
              dsimp only
              omega

def scanJournal (joff jlen : ℕ) (s : σ) : Exec σ := (v.chunkLoop b src f ns joff jlen).eval (0, s)

end ScanJournal

/-- The third pass, which a volume without a journal does without. -/
def journalPass (ns : ℕ) (live seen : Finset ℕ) (folders : Folders) : Exec (JournalScan v.totalBlocks) :=
  match v.journal with
  | none => return ⟨[], folders⟩
  | some j => v.scanJournal b src (v.journalNode b live seen ns) ns j.start j.len ⟨[], folders⟩

def passes : Exec (Passes v.totalBlocks) := do
  let catalog ← v.readCatalog b src
  let ns ← nodeSize catalog
  let index ← forLeaves catalog ns (v.indexNode b ns) ⟨∅, []⟩
  let overflow ← v.readExtentsOverflow b src
  let free ← forLeaves catalog ns (v.freeNode b index.live ns) ⟨∅, []⟩
  let journal ← v.journalPass b src ns index.live free.seen index.folders
  return ⟨free.candidates ++ journal.newest.map (·.2), journal.folders, overflow⟩

section Write

variable (p : Passes v.totalBlocks)

/-- The extents of a file with those of the records that begin where the ones before them end. -/
def followRuns : ℕ → PendingRuns v.totalBlocks → List (ℕ × ℕ) → Exec (List (ℕ × ℕ))
  | _, [], extents => return extents
  | covered, next :: rest, extents =>
    if next.startBlock ≠ covered then return extents
    else do
      let covered ← word 64 b (covered + (next.extents.extents.map (·.2)).sum)
      followRuns covered rest (extents ++ next.extents.extents)

/-- All the extents of a file that its record and the overflow give. -/
def fileExtents (rec : FileRecord v.totalBlocks) (overflow : OverflowExtents v.totalBlocks) : Exec (List (ℕ × ℕ)) :=
  match overflow.lookup rec.fileId with
  | none => return rec.extents.extents
  | some extra => do
    v.followRuns b (← word 64 b (rec.extents.extents.map (·.2)).sum) extra rec.extents.extents

def extentStep (base toRead : ℕ) (got : List UInt8) : Ctl (List UInt8) (Exec (List UInt8)) :=
  if toRead ≤ got.length then .done (.ok got)
  else
    match (do src.readAt (← word 64 b (base + got.length)) (min (toRead - got.length) v.blockSize)) with
    | .error e => .done (.error e)
    | .ok bytes => if bytes = [] then .done (.ok got) else .next (got ++ bytes)

/-- The bytes of an extent, block by block, as far as the source has them. -/
def extentLoop (base toRead : ℕ) : While (List UInt8) (Exec (List UInt8)) where
  body := v.extentStep b src base toRead
  measure got := toRead - got.length
  decreases s s' h := by
    unfold extentStep at h
    split at h
    · cases h
    · split at h
      · cases h
      · split at h
        · cases h
        · rename_i bytes _ hne
          cases h
          have hpos := List.length_pos_of_ne_nil hne
          rw [List.length_append]
          omega

/-- The bytes that are read of the extents, and how many more are wanted. -/
def readData : List (ℕ × ℕ) → ℕ → List UInt8 → Exec (ℕ × List UInt8)
  | [], remaining, data => return (remaining, data)
  | (start, count) :: rest, remaining, data =>
    if remaining = 0 then return (remaining, data)
    else do
      let toRead := min (← word 64 b (count * v.blockSize)) remaining
      let base ← word 64 b (v.offset + start * v.blockSize)
      let got ← (v.extentLoop b src base toRead).eval []
      if got.length < toRead then return (remaining - got.length, data ++ got)
      else readData rest (remaining - got.length) (data ++ got)

def readFileData (rec : FileRecord v.totalBlocks) (overflow : OverflowExtents v.totalBlocks) :
    Exec (Option (List UInt8)) := do
  let extents ← v.fileExtents b rec overflow
  let (remaining, data) ← tolerated (1, []) (v.readData b src extents rec.logicalSize [])
  return if 0 < remaining then none else some data

variable (windows : Bool) (opts : RecoverOptions)

/-- The path of a deleted file, below that of its folder. -/
def relPath (rec : FileRecord v.totalBlocks) : Path :=
  resolvePath windows p.folders rec.parentId ++ [sanitizeComponent windows rec.name]

/-- Whether a deleted file is asked for. -/
def selected (rec : FileRecord v.totalBlocks) : Bool :=
  opts.sizeOk rec.logicalSize && opts.timeOk (fromUnix (hfsToUnix rec.modDate)) && opts.nameOk rec.name

/-- What is done about a deleted file. -/
def salvage (rec : FileRecord v.totalBlocks) : Exec (Option Salvage) :=
  if v.selected opts rec = false then return none
  else if rec.logicalSize = 0 ∨ v.size < rec.logicalSize then
    return some (.skipped (v.relPath p windows rec) rec.logicalSize)
  else if opts.dryRun then return some (.listed (v.relPath p windows rec) rec.logicalSize)
  else do
    match ← v.readFileData b src rec p.overflow with
    | none => return some (.skipped (v.relPath p windows rec) rec.logicalSize)
    | some data =>
      return some (.written (v.relPath p windows rec) rec.logicalSize data (data.length = rec.logicalSize))

end Write

def recoverDeleted (windows : Bool) (opts : RecoverOptions) : Exec (List Salvage) := do
  let p ← v.passes b src
  p.candidates.filterMapM (v.salvage b src p windows opts)

end Volume

end Unearth.Hfs
