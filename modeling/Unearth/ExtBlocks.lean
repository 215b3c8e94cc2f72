import Unearth.ExtVolume
import Unearth.Lib.SortedMap
import Unearth.Undelete

/-!
# Inodes and the blocks of their files

An inode says where the blocks of its file are, as a tree of extents or as pointers of up to
three levels. The blocks are asked for in one piece, before the map is known to hold them.
-/

namespace Unearth.Ext
open Bytes Word Post

def FLAG_EXTENTS : ℕ := 0x00080000
def EXTENT_MAGIC : ℕ := 0xF30A
def MODE_FMT : ℕ := 0xF000
def MODE_DIR : ℕ := 0x4000
def MODE_REG : ℕ := 0x8000
def MAX_EXTENT_DEPTH : ℕ := 6

section Inode

variable (inode : List UInt8)

def inodeMode : Exec ℕ := field inode 0 2
def inodeLinks : Exec ℕ := field inode 0x1A 2
def inodeDtime : Exec ℕ := field inode 0x14 4
def inodeAtime : Exec ℕ := field inode 0x08 4
def inodeMtime : Exec ℕ := field inode 0x10 4
def inodeCtime : Exec ℕ := field inode 0x0C 4
def inodeFlags : Exec ℕ := field inode 0x20 4
def dirSize : Exec ℕ := field inode 4 4

/-- The lower and the higher half of the size of a file. -/
def regSize : Exec ℕ := do
  let lo ← field inode 4 4
  let hi ← field inode 0x6C 4
  return lo + 2 ^ 32 * hi

def inodeHasBlockmap : Exec Bool :=
  if inode.length < 0x28 + 60 then return false
  else do
    let iBlock ← slice inode 0x28 60
    if (← inodeFlags inode) &&& FLAG_EXTENTS ≠ 0 then
      -- A tree without entries is what deletion leaves of one.
      let magic ← field iBlock 0 2
      let entries ← field iBlock 2 2
      return magic = EXTENT_MAGIC && 0 < entries
    else return iBlock.any (· ≠ 0)

end Inode

/-- The physical block and the number of blocks, by the logical block that an extent begins with. -/
abbrev Extents := List (ℕ × ℕ × ℕ)

/-- The length of an extent; one that was not written yet has the highest bit too. -/
def extentLen (raw : ℕ) : ℕ := if 32768 < raw then raw - 32768 else raw

def addExtent (e : List UInt8) (map : Extents) : Extents :=
  SortedMap.insert (le (window e 0 4))
    (2 ^ 32 * le (window e 6 2) + le (window e 8 4), extentLen (le (window e 4 2))) map

def placeExtent (n : ℕ) (out : List ℕ) (e : ℕ × ℕ × ℕ) : Exec (List ℕ) :=
  (List.range e.2.2).foldlM
    (fun out k => if e.1 + k < n then assign out (e.1 + k) (e.2.1 + k) else return out) out

/-- The pointers of a block. -/
def pointers (data : List UInt8) : List ℕ :=
  (List.range (data.length / 4)).map fun i => le (window data (4 * i) 4)

namespace Volume

variable (v : Volume) (src : Source)

/-- The extents below a node, down to `fuel` levels; a node that is none has none. -/
def collectExtents : ℕ → List UInt8 → Extents → Exec Extents
  | 0, _, map => return map
  | fuel + 1, node, map =>
    if node.length < 12 ∨ le (window node 0 2) ≠ EXTENT_MAGIC then return map
    else
      let entries := min (le (window node 2 2)) ((node.length - 12) / 12)
      (List.range entries).foldlM (fun map i => do
        let e ← slice node (12 + i * 12) 12
        if le (window node 6 2) = 0 then return addExtent e map
        else
          let block ← v.readBlock src (2 ^ 32 * le (window e 8 2) + le (window e 4 4))
          collectExtents fuel block map) map

/-- The pointers below a block that is `level` levels above them, as far as `n` blocks go. -/
def readIndirect (n : ℕ) : ℕ → ℕ → List ℕ → Exec (List ℕ)
  | 0, _, out => return out
  | level + 1, block, out =>
    if block = 0 ∨ n ≤ out.length then return out
    else do
      let data ← v.readBlock src block
      match level with
      | 0 => return out ++ (pointers data).take (n - out.length)
      | _ => (pointers data).foldlM (fun out ptr =>
          if n ≤ out.length then return out else readIndirect n level ptr out) out

def mapIndirect (iBlock : List UInt8) (n : ℕ) : Exec (List ℕ) := do
  request (v.limit src) n
  let out ← (List.range (min 12 n)).mapM fun i => field iBlock (4 * i) 4
  let single ← field iBlock 48 4
  let double ← field iBlock 52 4
  let triple ← field iBlock 56 4
  let out ← v.readIndirect src n 1 single out
  let out ← v.readIndirect src n 2 double out
  v.readIndirect src n 3 triple out

/-- The physical blocks of the first `n` blocks of a file; a hole has none. -/
def mapBlocks (inode : List UInt8) (n : ℕ) : Exec (List ℕ) := do
  let flags ← inodeFlags inode
  let iBlock ← slice inode 0x28 60
  if flags &&& FLAG_EXTENTS ≠ 0 then
    let map ← v.collectExtents src (MAX_EXTENT_DEPTH + 1) iBlock []
    request (v.limit src) n
    map.foldlM (placeExtent n) (List.replicate n 0)
  else v.mapIndirect src iBlock n

/-- The bytes of blocks in their order, `size` of them at most. -/
def readBlocks (size : ℕ) : List ℕ → List UInt8 → Exec (List UInt8)
  | [], out => return out
  | block :: rest, out =>
    if size ≤ out.length then return out
    else
      let take := min (size - out.length) v.blockSize
      if block = 0 then readBlocks size rest (out ++ List.replicate take 0)
      else do
        let data ← src.readAt (satAdd v.offset (satMul block v.blockSize)) take
        if data.length < take then return out ++ data else readBlocks size rest (out ++ data)

def readFileData (inode : List UInt8) (size : ℕ) : Exec (List UInt8) :=
  if size = 0 ∨ satMul v.totalBlocks v.blockSize < size then return []
  else
    let size := min size src.size
    if size = 0 then return []
    else do
      let blocks ← v.mapBlocks src inode (divCeil size v.blockSize)
      -- A buffer of bytes is as large as the blocks that it takes.
      request (v.limit src * v.blockSize) size
      v.readBlocks src size blocks []

end Volume

section Fields

variable {inode : List UInt8} (h : 128 ≤ inode.length)
include h

theorem inodeFlags_eq : inodeFlags inode = .ok (le (window inode 0x20 4)) := field_eq (by omega)

theorem inodeMode_eq : inodeMode inode = .ok (le (window inode 0 2)) := field_eq (by omega)

theorem dirSize_eq : dirSize inode = .ok (le (window inode 4 4)) := field_eq (by omega)

theorem regSize_eq :
    regSize inode = .ok (le (window inode 4 4) + 2 ^ 32 * le (window inode 0x6C 4)) := by
  rw [regSize, field_eq (by omega), field_eq (by omega)]
  rfl

end Fields

namespace Volume

variable {v : Volume} {src : Source} {inode : List UInt8}

/-- The first twelve blocks are in the inode itself. -/
theorem mapBlocks_direct (h : 128 ≤ inode.length) (hflag : le (window inode 0x20 4) &&& FLAG_EXTENTS = 0) {n : ℕ}
    (hn : n ≤ 12) (hlimit : n ≤ v.limit src) :
    v.mapBlocks src inode n = .ok ((List.range n).map fun i => le (window (window inode 0x28 60) (4 * i) 4)) := by
  have hblock : (window inode 0x28 60).length = 60 := by
    rw [length_window]
    omega
  have hdirect : ((List.range (min 12 n)).mapM fun i => field (window inode 0x28 60) (4 * i) 4) =
      .ok ((List.range n).map fun i => le (window (window inode 0x28 60) (4 * i) 4)) := by
    rw [min_eq_right hn]
    apply mapM_ok
    intro i hi
    have hlt := List.mem_range.mp hi
    exact field_eq (by omega)
  have hfull {level block : ℕ} {out : List ℕ} (hout : out.length = n) :
      v.readIndirect src n (level + 1) block out = .ok out := if_pos (.inr hout.ge)
  rw [mapBlocks, inodeFlags_eq h, exec_ok_bind, slice_eq (by omega), exec_ok_bind, if_neg (not_not.mpr hflag),
    mapIndirect, request_eq hlimit, exec_ok_bind, hdirect, exec_ok_bind, field_eq (by omega), exec_ok_bind,
    field_eq (by omega), exec_ok_bind, field_eq (by omega), exec_ok_bind, hfull (by simp), exec_ok_bind,
    hfull (by simp), exec_ok_bind, hfull (by simp)]

end Volume

end Unearth.Ext
