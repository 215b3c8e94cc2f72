import Unearth.Slices

/-!
# The geometry of an ext volume

The superblock gives the sizes of blocks and inodes, and the descriptors of the groups give
the places of the inode tables and of the bitmaps. A volume is made only of sizes that were
checked, so that an inode is never shorter than the fields that are read of it.
-/

namespace Unearth.Ext
open Lines Decimal Bytes Word Post

def SUPERBLOCK_OFFSET : ℕ := 1024
def EXT_MAGIC : ℕ := 0xEF53
def INCOMPAT_FILETYPE : ℕ := 0x0002
def INCOMPAT_64BIT : ℕ := 0x0080
def ROOT_INODE : ℕ := 2
def DEFAULT_JOURNAL_INODE : ℕ := 8

/-- The fields of the superblock. -/
structure Superblock where
  inodesCount : ℕ
  blocksCountLo : ℕ
  firstDataBlock : ℕ
  logBlockSize : ℕ
  blocksPerGroup : ℕ
  inodesPerGroup : ℕ
  inodeSize : ℕ
  featureIncompat : ℕ
  journalInum : ℕ
  descSize : ℕ
  blocksCountHi : ℕ

def Superblock.read (sb : List UInt8) : Superblock where
  inodesCount := le (window sb 0 4)
  blocksCountLo := le (window sb 4 4)
  firstDataBlock := le (window sb 0x14 4)
  logBlockSize := le (window sb 0x18 4)
  blocksPerGroup := le (window sb 0x20 4)
  inodesPerGroup := le (window sb 0x28 4)
  inodeSize := le (window sb 0x58 2)
  featureIncompat := le (window sb 0x60 4)
  journalInum := le (window sb 0xE0 4)
  descSize := le (window sb 0xFE 2)
  blocksCountHi := le (window sb 0x150 4)

namespace Superblock

variable (s : Superblock)

def is64bit : Bool := s.featureIncompat &&& INCOMPAT_64BIT ≠ 0
def inodeBytes : ℕ := if s.inodeSize = 0 then 128 else s.inodeSize
def descBytes : ℕ := if s.is64bit then max s.descSize 32 else 32
def totalBlocks : ℕ := s.blocksCountLo + 2 ^ 32 * (if s.is64bit then s.blocksCountHi else 0)
def journal : ℕ := if s.journalInum = 0 then DEFAULT_JOURNAL_INODE else s.journalInum
def groupCount : ℕ := divCeil s.inodesCount s.inodesPerGroup

end Superblock

/-- The inode table and the bitmap of a group. -/
structure Group where
  inodeTable : ℕ
  blockBitmap : ℕ
  deriving DecidableEq

def Group.read (s : Superblock) (d : List UInt8) : Group :=
  let high (off : ℕ) := if 64 ≤ s.descBytes ∧ s.is64bit then 2 ^ 32 * le (window d off 4) else 0
  ⟨le (window d 8 4) + high 0x28, le (window d 0 4) + high 0x20⟩

/-- The groups whose descriptors the source still has, at most `n` of them from group `g` on. -/
def readGroups (src : Source) (s : Superblock) (gdtStart : ℕ) : ℕ → ℕ → Exec (List Group)
  | 0, _ => .ok []
  | n + 1, g => do
    let d ← src.readAt (gdtStart + g * s.descBytes) s.descBytes
    if d.length < s.descBytes then return []
    else return Group.read s d :: (← readGroups src s gdtStart n (g + 1))

/-- A volume whose blocks hold its inodes, and whose inodes hold their fields. -/
structure Volume where
  offset : ℕ
  blockSize : ℕ
  inodeSize : ℕ
  inodesPerGroup : ℕ
  filetypeDirents : Bool
  totalBlocks : ℕ
  journalInum : ℕ
  groups : List Group
  blocksPerGroup : ℕ
  firstDataBlock : ℕ
  block_ge : 1024 ≤ blockSize
  block_le : blockSize ≤ 2 ^ 16
  inode_ge : 128 ≤ inodeSize
  inode_le : inodeSize ≤ blockSize
  blocks_pos : 0 < blocksPerGroup
  total_lt : totalBlocks < 2 ^ 64
  deriving DecidableEq

theorem Superblock.totalBlocks_lt (sb : List UInt8) : (Superblock.read sb).totalBlocks < 2 ^ 64 := by
  have hlo : (Superblock.read sb).blocksCountLo < 256 ^ 4 := le_window_lt sb 4 4
  have hhi : (Superblock.read sb).blocksCountHi < 256 ^ 4 := le_window_lt sb 0x150 4
  unfold totalBlocks
  split <;> omega

theorem Superblock.block_le {s : Superblock} (h : ¬ 6 < s.logBlockSize) : 1024 * 2 ^ s.logBlockSize ≤ 2 ^ 16 := by
  have hpow : 2 ^ s.logBlockSize ≤ 2 ^ 6 := Nat.pow_le_pow_right (by decide) (not_lt.mp h)
  omega

theorem Superblock.block_ge (s : Superblock) : 1024 ≤ 1024 * 2 ^ s.logBlockSize :=
  Nat.le_mul_of_pos_right _ (Nat.two_pow_pos s.logBlockSize)

theorem Superblock.inode_ge {s : Superblock}
    (h : ¬ (s.inodeBytes < 128 ∨ 1024 * 2 ^ s.logBlockSize < s.inodeBytes)) : 128 ≤ s.inodeBytes :=
  not_lt.mp (not_or.mp h).1

theorem Superblock.inode_le {s : Superblock}
    (h : ¬ (s.inodeBytes < 128 ∨ 1024 * 2 ^ s.logBlockSize < s.inodeBytes)) :
    s.inodeBytes ≤ 1024 * 2 ^ s.logBlockSize :=
  not_lt.mp (not_or.mp h).2

theorem Superblock.blocks_pos {s : Superblock} (h : ¬ (s.inodesPerGroup = 0 ∨ s.blocksPerGroup = 0)) :
    0 < s.blocksPerGroup :=
  Nat.pos_of_ne_zero (not_or.mp h).2

def refused {α : Type} (message : Text) : Exec (Except ParseError α) := .ok (.error (.refused message))

def Volume.parse (b : Build) (src : Source) (offset : ℕ) : Exec (Except ParseError Volume) := do
  match src.readAt (← plus b offset SUPERBLOCK_OFFSET) 1024 with
  | .error _ => return .error .io
  | .ok sb =>
    let s := Superblock.read sb
    if sb.length < 1024 then return .error (atOffset "could not read ext superblock" offset)
    else if le (window sb 0x38 2) ≠ EXT_MAGIC then
      return .error (atOffset "not an ext2/3/4 volume" offset)
    else if hlog : 6 < s.logBlockSize then
      refused ("implausible ext block size shift ".toList ++ decimal s.logBlockSize)
    else if hinode : s.inodeBytes < 128 ∨ 1024 * 2 ^ s.logBlockSize < s.inodeBytes then
      refused ("implausible ext inode size ".toList ++ decimal s.inodeBytes)
    else if hzero : s.inodesPerGroup = 0 ∨ s.blocksPerGroup = 0 then
      refused "invalid ext superblock geometry".toList
    else do
      -- The block after the superblock's has an offset far below the end of a word.
      let gdtStart ← plus b offset ((s.firstDataBlock + 1) * (1024 * 2 ^ s.logBlockSize))
      match readGroups src s gdtStart s.groupCount 0 with
      | .error _ => return .error .io
      | .ok groups =>
        if groups = [] then refused "ext volume has no block groups".toList
        else return .ok {
          offset
          blockSize := 1024 * 2 ^ s.logBlockSize
          inodeSize := s.inodeBytes
          inodesPerGroup := s.inodesPerGroup
          filetypeDirents := s.featureIncompat &&& INCOMPAT_FILETYPE ≠ 0
          totalBlocks := s.totalBlocks
          journalInum := s.journal
          groups
          blocksPerGroup := s.blocksPerGroup
          firstDataBlock := s.firstDataBlock
          block_ge := s.block_ge
          block_le := Superblock.block_le hlog
          inode_ge := Superblock.inode_ge hinode
          inode_le := Superblock.inode_le hinode
          blocks_pos := Superblock.blocks_pos hzero
          total_lt := Superblock.totalBlocks_lt sb }

theorem Volume.parse_offset {b : Build} {src : Source} {offset : ℕ} {v : Volume}
    (h : Volume.parse b src offset = .ok (.ok v)) : v.offset = offset := by
  obtain ⟨start, -, h⟩ := exec_bind_ok h
  cases hread : src.readAt start 1024 with
  | error e =>
    rw [hread] at h
    cases h
  | ok sb =>
    rw [hread] at h
    dsimp only at h
    split_ifs at h
    · cases h
    · cases h
    · cases h
    · cases h
    · cases h
    · obtain ⟨gdt, -, h⟩ := exec_bind_ok h
      split at h
      · cases h
      · split_ifs at h
        · cases h
        · cases h
          rfl

namespace Volume

variable (v : Volume) (src : Source)

def size : ℕ := satMul v.totalBlocks v.blockSize

theorem block_pos : 0 < v.blockSize := lt_of_lt_of_le (by decide) v.block_ge

/-- The blocks of the volume, or of the source if these are more. -/
def limit : ℕ := max v.totalBlocks (divCeil src.size v.blockSize)

def readBlock (block : ℕ) : Exec (List UInt8) :=
  src.readAt (satAdd v.offset (satMul block v.blockSize)) v.blockSize

def readInode (ino : ℕ) : Exec (Option (List UInt8)) :=
  if ino = 0 then return none
  else
    match v.groups[(ino - 1) / v.inodesPerGroup]? with
    | none => return none
    | some group => do
      let index := (ino - 1) % v.inodesPerGroup
      let off := satAdd (satAdd v.offset (satMul group.inodeTable v.blockSize))
        (satMul index v.inodeSize)
      let buf ← src.readAt off v.inodeSize
      return if buf.length < v.inodeSize then none else some buf

theorem readInode_length {ino : ℕ} {inode : List UInt8} (h : v.readInode src ino = .ok (some inode)) :
    inode.length = v.inodeSize := by
  unfold readInode at h
  split at h
  · cases h
  · split at h
    · cases h
    · obtain ⟨buf, hbuf, hsome⟩ := exec_bind_ok h
      have hle : buf.length ≤ v.inodeSize := by
        rw [Source.readAt_ok hbuf, length_window]
        exact min_le_left _ _
      split at hsome
      · cases hsome
      · cases hsome
        omega

end Volume

end Unearth.Ext
