import Unearth.ExtBlocks
import Unearth.Lib.Loop

/-!
# The index of an ext journal

The journal is a file in which descriptor blocks name the filesystem blocks whose copies
follow them. The scan of the file keeps for each copy where it is.
-/

namespace Unearth.Ext
open Bytes Word Loop

def JBD2_MAGIC : ℕ := 0xC03B3998
def JBD2_DESCRIPTOR_BLOCK : ℕ := 1
def JBD2_FLAG_SAME_UUID : ℕ := 0x02
def JBD2_FLAG_LAST_TAG : ℕ := 0x08
def JBD2_INCOMPAT_64BIT : ℕ := 0x02
def JBD2_INCOMPAT_CSUM_V3 : ℕ := 0x10
def MAX_JOURNAL_BLOCKS : ℕ := 2 ^ 21

/-- How the tags of a journal are laid out. -/
structure TagFormat where
  csumV3 : Bool
  is64bit : Bool
  deriving DecidableEq

def TagFormat.read (sb : List UInt8) : TagFormat where
  csumV3 := beField sb 0x28 4 &&& JBD2_INCOMPAT_CSUM_V3 ≠ 0
  is64bit := beField sb 0x28 4 &&& JBD2_INCOMPAT_64BIT ≠ 0

section Tags

variable (fmt : TagFormat) (block : List UInt8)

/-- The block that a tag names, its flags and the position behind it, unless it is cut. -/
def readTag (pos : ℕ) : Exec (Option (ℕ × ℕ × ℕ)) :=
  if fmt.csumV3 then
    if block.length < pos + 16 then return none
    else
      let lo := beField block pos 4
      let hi := beField block (pos + 8) 4
      return some (2 ^ 32 * hi + lo, beField block (pos + 4) 4, pos + 16)
  else if block.length < pos + 8 then return none
  else do
    let lo := beField block pos 4
    let flags ← slice block (pos + 6) 2
    if fmt.is64bit then
      if block.length < pos + 12 then return none
      else return some (2 ^ 32 * beField block (pos + 8) 4 + lo, be flags, pos + 12)
    else return some (lo, be flags, pos + 8)

def tagStep (s : ℕ × List ℕ) : Ctl (ℕ × List ℕ) (Exec (List ℕ)) :=
  match readTag fmt block s.1 with
  | .error e => .done (.error e)
  | .ok none => .done (.ok s.2)
  | .ok (some (blocknr, flags, next)) =>
    let tags := s.2 ++ [blocknr]
    let next := if flags &&& JBD2_FLAG_SAME_UUID = 0 then next + 16 else next
    if flags &&& JBD2_FLAG_LAST_TAG ≠ 0 then .done (.ok tags)
    else if block.length ≤ next ∨ 100000 < tags.length then .done (.ok tags)
    else .next (next, tags)

variable {fmt block}

theorem readTag_next {pos blocknr flags next : ℕ} (h : readTag fmt block pos = .ok (some (blocknr, flags, next))) :
    pos < next := by
  unfold readTag at h
  split at h
  · split at h
    · cases h
    · cases h
      omega
  · split at h
    · cases h
    · obtain ⟨bytes, -, h⟩ := exec_bind_ok h
      split at h
      · split at h
        · cases h
        · cases h
          omega
      · cases h
        omega

variable (fmt block)

def tagLoop : While (ℕ × List ℕ) (Exec (List ℕ)) where
  body := tagStep fmt block
  measure s := block.length - s.1
  decreases s s' h := by
    unfold tagStep at h
    split at h
    · cases h
    · cases h
    · rename_i blocknr flags next htag
      have hlt := readTag_next htag
      have hle : next ≤ if flags &&& JBD2_FLAG_SAME_UUID = 0 then next + 16 else next := by
        split <;> omega
      dsimp only at h
      generalize (if flags &&& JBD2_FLAG_SAME_UUID = 0 then next + 16 else next) = next' at h hle
      split_ifs at h with hlast hend
      cases h
      dsimp only
      omega

/-- The filesystem blocks that a descriptor names, after its header of 12 bytes. -/
def parseJournalTags : Exec (List ℕ) := (tagLoop fmt block).eval (12, [])

/-- No tag is read beyond the end of its block. -/
theorem exists_readTag (pos : ℕ) : ∃ tag, readTag fmt block pos = .ok tag := by
  unfold readTag
  split_ifs with hv3 hcut hcut h64 hcut64
  · exact ⟨_, rfl⟩
  · exact ⟨_, rfl⟩
  · exact ⟨_, rfl⟩
  all_goals
    rw [slice_eq (by omega)]
    exact ⟨_, rfl⟩

theorem exists_parseJournalTags : ∃ tags, parseJournalTags fmt block = .ok tags := by
  apply (tagLoop fmt block).eval_inv (I := fun _ => True) (Q := fun r => ∃ tags, r = .ok tags) _ trivial
  intro s _
  obtain ⟨tag, htag⟩ := exists_readTag fmt block s.1
  change (tagStep fmt block s).Sat _ _
  rw [tagStep, htag]
  cases tag with
  | none => exact ⟨_, rfl⟩
  | some tag =>
    dsimp only
    generalize (if tag.2.1 &&& JBD2_FLAG_SAME_UUID = 0 then tag.2.2 + 16 else tag.2.2) = next
    split_ifs
    · exact ⟨_, rfl⟩
    · exact ⟨_, rfl⟩
    · trivial

end Tags

/-- The copies of filesystem blocks in the order in which they were found. -/
abbrev JournalIndex := List (ℕ × ℕ)

def JournalIndex.copies (index : JournalIndex) (fsBlock : ℕ) : List ℕ :=
  (index.filter (·.1 = fsBlock)).map Prod.snd

structure Scan where
  ji : ℕ
  steps : ℕ
  index : JournalIndex

namespace Volume

variable (v : Volume) (src : Source)

section Scan

variable (fmt : TagFormat) (jblocks : List ℕ) (maxlen : ℕ)

def scanStep (s : Scan) : Ctl Scan (Exec JournalIndex) :=
  if maxlen ≤ s.ji ∨ MAX_JOURNAL_BLOCKS ≤ s.steps then .done (.ok s.index)
  else
    match jblocks[s.ji]? with
    | none => .done (.ok s.index)
    | some phys =>
      match v.readBlock src phys with
      | .error e => .done (.error e)
      | .ok block =>
        if block.length < 12 ∨ beField block 0 4 ≠ JBD2_MAGIC ∨
            beField block 4 4 ≠ JBD2_DESCRIPTOR_BLOCK then
          .next ⟨s.ji + 1, s.steps + 1, s.index⟩
        else
          match parseJournalTags fmt block with
          | .error e => .done (.error e)
          | .ok tags =>
            .next ⟨s.ji + 1 + tags.length, s.steps + 1,
              s.index ++ tags.zip (jblocks.drop (s.ji + 1))⟩

theorem scanStep_next {s s' : Scan} (h : v.scanStep src fmt jblocks maxlen s = .next s') :
    s.ji < maxlen ∧ s.ji < s'.ji := by
  unfold scanStep at h
  split at h
  · cases h
  · rename_i hgo
    rw [not_or, not_le] at hgo
    refine ⟨hgo.1, ?_⟩
    split at h
    · cases h
    · split at h
      · cases h
      · split at h
        · cases h
          exact Nat.lt_succ_self _
        · split at h
          · cases h
          · cases h
            dsimp only
            omega

def scan : While Scan (Exec JournalIndex) where
  body := v.scanStep src fmt jblocks maxlen
  measure s := maxlen - s.ji
  decreases s s' h := by
    have hlt := v.scanStep_next src fmt jblocks maxlen h
    omega

end Scan

/-- The journal as far as its superblock is one. -/
def scanJournal (jblocks : List ℕ) (n : ℕ) : Exec JournalIndex :=
  match jblocks with
  | [] => return []
  | first :: _ => do
    let sb ← v.readBlock src first
    if sb.length < 0x2C ∨ beField sb 0 4 ≠ JBD2_MAGIC then return []
    else
      let maxlen := min (beField sb 0x10 4) n
      (v.scan src (.read sb) jblocks maxlen).eval ⟨max (beField sb 0x14 4) 1, 0, []⟩

def buildJournalIndex : Exec JournalIndex := do
  match ← v.readInode src v.journalInum with
  | none => return []
  | some jinode =>
    if ← inodeHasBlockmap jinode then
      let jsize ← regSize jinode
      if jsize = 0 then return []
      else
        let n := divCeil jsize v.blockSize
        v.scanJournal src (← v.mapBlocks src jinode n) n
    else return []

/-- The copies of a filesystem block, in the order of the index. -/
def journaledCopies (journal : JournalIndex) (fsBlock : ℕ) : List (List UInt8) :=
  (journal.copies fsBlock).filterMap fun phys => (v.readBlock src phys).toOption

/-- Of a copy and the best one so far, the one with the later change, or else this one. -/
def betterCopy (within : ℕ) (best : Option (ℕ × List UInt8)) (copy : List UInt8) :
    Exec (Option (ℕ × List UInt8)) :=
  if within + v.inodeSize ≤ copy.length then do
    let inode ← slice copy within v.inodeSize
    if ← inodeHasBlockmap inode then
      let ctime ← inodeCtime inode
      return if best.all (·.1 ≤ ctime) then some (ctime, inode) else best
    else return best
  else return best

/-- The journaled copy of an inode that still has its blocks. -/
def journaledInode (journal : JournalIndex) (ino : ℕ) : Exec (Option (List UInt8)) :=
  if ino = 0 then return none
  else
    match v.groups[(ino - 1) / v.inodesPerGroup]? with
    | none => return none
    | some group => do
      let index := (ino - 1) % v.inodesPerGroup
      let byte := satAdd (satMul group.inodeTable v.blockSize) (satMul index v.inodeSize)
      let copies := v.journaledCopies src journal (byte / v.blockSize)
      return (← copies.foldlM (v.betterCopy (byte % v.blockSize)) none).map Prod.snd

end Volume

end Unearth.Ext
