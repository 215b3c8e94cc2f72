import Unearth.HfsVolume
import Unearth.Lib.Utf16
import Unearth.Undelete

/-!
# The nodes and the records of the B-trees of an HFS+ volume

A node ends with the offsets of its records, the first one last. The number of the records is
read from the node, and the places of the offsets are counted back from its end. A record is
a key and the data behind it.
-/

namespace Unearth.Hfs
open Bytes Word Lines Utf16 Post

def KIND_LEAF : Int8 := -1
def RECORD_FOLDER : ℕ := 1
def RECORD_FILE : ℕ := 2
def ROOT_FOLDER_ID : ℕ := 2
def MAX_CATALOG_KEY : ℕ := 516
def HFS_TO_UNIX_EPOCH : ℕ := 2082844800

section Nodes

variable (b : Build) (node : List UInt8)

/-- The field of `n` bytes at a place, the end of which is computed first. -/
def beAt (o n : ℕ) : Exec ℕ := do
  let last ← word 64 b (o + n)
  return if o ≤ last ∧ last ≤ node.length then be (window node o n) else 0

def nodeKind : Int8 := (node[8]?.map UInt8.toInt8).getD 0

/-- The number of the records, as the node has it. -/
def numRecords : ℕ := beField node 10 2

/-- The size of the nodes of a tree, which its first one says. -/
def nodeSize (tree : List UInt8) : Exec ℕ :=
  let ns := beField tree 32 2
  if isPowerOfTwo ns ∧ 512 ≤ ns ∧ ns ≤ 32768 ∧ ns ≤ tree.length then .ok ns else .error .refused

variable (ns : ℕ)

/-- The offset of the record with a number, and whether it can be one. -/
def recordOffset (i : ℕ) : Exec (Option ℕ) := do
  let p ← minus b ns (2 * (i + 1))
  let off ← beAt b node p 2
  return if 14 ≤ off ∧ off < ns then some off else none

def liveRecordOffsets : Exec (List ℕ) := (List.range (numRecords node)).filterMapM (recordOffset b node ns)

/-- Whether the offsets from number `i` on rise up to the start of their array, `n` of them. -/
def offsetsRise (arrayStart : ℕ) : ℕ → ℕ → ℕ → Exec Bool
  | 0, _, _ => return true
  | n + 1, i, prev => do
    let p ← minus b ns (2 * (i + 1))
    let off ← beAt b node p 2
    if (i = 0 ∧ off ≠ 14) ∨ off ≤ prev ∨ arrayStart < off then return false
    else offsetsRise arrayStart n (i + 1) off

def looksLikeLeafNode : Exec Bool :=
  if node.length < ns ∨ nodeKind node ≠ KIND_LEAF then return false
  else
    match node[9]? with
    | none => .error .slice
    | some height =>
      let num := numRecords node
      if height ≠ 1 ∨ num = 0 ∨ ns / 24 < num ∨ beField node 12 2 ≠ 0 then return false
      else do
        let arrayStart ← minus b ns (2 * (num + 1))
        offsetsRise b node ns arrayStart (num + 1) 0 0

/-- The space behind the last record, up to the offsets. -/
def freeSpace : Exec (ℕ × ℕ) := do
  let array ← minus b ns (2 * (numRecords node + 1))
  let freeStart ← beAt b node array 2
  return (max 14 (min freeStart ns), min array ns)

end Nodes

/-- What the key of a catalog record says, and where the data behind it begins. -/
structure CatalogKey where
  parentId : ℕ
  nameLen : ℕ
  keyEnd : ℕ

/-- A deleted file, with its extents inside of a volume of `total` blocks. -/
structure FileRecord (total : ℕ) where
  name : Text
  fileId : ℕ
  parentId : ℕ
  logicalSize : ℕ
  modDate : ℕ
  accessDate : ℕ
  extents : Runs total
  deriving DecidableEq

/-- Extents that continue a file from one of its blocks on. -/
structure Pending (total : ℕ) where
  startBlock : ℕ
  extents : Runs total
  start_lt : startBlock < 2 ^ 32

structure ExtentRecord (total : ℕ) where
  forkType : UInt8
  fileId : ℕ
  pending : Pending total

section Records

variable (b : Build) (v : Volume) (node : List UInt8) (off : ℕ)

/-- The key at a place, unless its parent is below the least one or its length is not that of a name. -/
def catalogKey (minParent : ℕ) : Exec (Option CatalogKey) := do
  let keyLen ← beAt b node off 2
  if keyLen < 6 ∨ MAX_CATALOG_KEY < keyLen then return none
  else do
    let parentId ← beAt b node (← word 64 b (off + 2)) 4
    if parentId < minParent then return none
    else do
      let nameLen ← beAt b node (← word 64 b (off + 6)) 2
      if nameLen = 0 ∨ 255 < nameLen then return none
      else if keyLen ≠ (← word 16 b (6 + 2 * nameLen)) then return none
      else return some ⟨parentId, nameLen, ← word 64 b (off + 2 + keyLen)⟩

/-- The name of a key; its units end before the data of the record do. -/
def decodeName (nameLen : ℕ) : Text :=
  fromUtf16Lossy ((List.range nameLen).map fun i => beField node (off + 8 + i * 2) 2)

/-- The file whose data lie behind a key. All of its fields end inside of the node. -/
def fileBehind (k : CatalogKey) : Option (FileRecord v.totalBlocks) :=
  let logicalSize := beField node (k.keyEnd + 88) 8
  if beField node k.keyEnd 2 ≠ RECORD_FILE then none
  else if beField node (k.keyEnd + 8) 4 = 0 then none
  else if logicalSize = 0 ∨ v.size < logicalSize then none
  else
    match readRuns v.totalBlocks node (k.keyEnd + 104) with
    | none => none
    | some extents =>
      if extents.extents = [] then none
      else some {
        name := decodeName node off k.nameLen
        fileId := beField node (k.keyEnd + 8) 4
        parentId := k.parentId
        logicalSize
        modDate := beField node (k.keyEnd + 16) 4
        accessDate := beField node (k.keyEnd + 24) 4
        extents }

def parseFileRecord : Exec (Option (FileRecord v.totalBlocks)) := do
  match ← catalogKey b node off ROOT_FOLDER_ID with
  | none => return none
  | some k => return if node.length < (← word 64 b (k.keyEnd + 168)) then none else fileBehind v node off k

/-- The number, the name and the parent of a folder. -/
def parseFolderRecord : Exec (Option (ℕ × Text × ℕ)) := do
  match ← catalogKey b node off 1 with
  | none => return none
  | some k =>
    if node.length < (← word 64 b (k.keyEnd + 16)) ∨ beField node k.keyEnd 2 ≠ RECORD_FOLDER then return none
    else if beField node (k.keyEnd + 8) 4 = 0 then return none
    else return some (beField node (k.keyEnd + 8) 4, decodeName node off k.nameLen, k.parentId)

def parseExtentRecord : Exec (Option (ExtentRecord v.totalBlocks)) := do
  if (← beAt b node off 2) ≠ 10 then return none
  else
    match node[(← word 64 b (off + 2))]? with
    | none => return none
    | some forkType => do
      let fileId ← beAt b node (← word 64 b (off + 4)) 4
      if fileId = 0 then return none
      else if node.length < (← word 64 b (off + 2 + 10 + 64)) then return none
      else return (readRuns v.totalBlocks node (off + 2 + 10)).map fun extents =>
        ⟨forkType, fileId, ⟨beField node (off + 8) 4, extents, beField_lt node (off + 8) 4⟩⟩

end Records

/-- The folders by their numbers, the last one that was seen under a number first. -/
abbrev Folders := List (ℕ × Text × ℕ)

def hfsToUnix (date : ℕ) : ℕ := date - HFS_TO_UNIX_EPOCH

section Paths

variable (windows : Bool) (folders : Folders)

/-- A colon stands for a slash. -/
def sanitizeComponent (name : Text) : Text :=
  Unearth.sanitizeComponent windows (name.map fun c => if c = ':' then '_' else c)

/-- The folders above one, at most `guard` of them, the nearest first. -/
def ancestors : ℕ → ℕ → List Text
  | 0, _ => []
  | guard + 1, cur =>
    if cur = ROOT_FOLDER_ID then []
    else
      match folders.lookup cur with
      | none => []
      | some (name, parent) => sanitizeComponent windows name :: ancestors guard parent

def resolvePath (parentId : ℕ) : Path := (ancestors windows folders 256 parentId).reverse

theorem length_ancestors (guard cur : ℕ) : (ancestors windows folders guard cur).length ≤ guard := by
  induction guard generalizing cur with
  | zero => exact le_rfl
  | succ guard ih =>
    unfold ancestors
    split_ifs
    · exact Nat.zero_le _
    · cases folders.lookup cur with
      | none => exact Nat.zero_le _
      | some folder => exact Nat.succ_le_succ (ih folder.2)

/-- A path has at most 256 folders, whatever the folders say about their parents. -/
theorem length_resolvePath (parentId : ℕ) : (resolvePath windows folders parentId).length ≤ 256 := by
  rw [resolvePath, List.length_reverse]
  exact length_ancestors windows folders 256 parentId

end Paths

end Unearth.Hfs
