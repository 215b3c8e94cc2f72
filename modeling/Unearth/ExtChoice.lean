import Unearth.ExtVisits
import Unearth.Lib.Latest

/-!
# The inode that a deleted file is recovered from

A deleted file is reported by its live inode. Its content is found through that inode as long as
it has its blocks, and else through the journaled copy with the latest change, whatever that copy
was an inode of. It is the right one when no copy of something else is later than those of files.
-/

namespace Unearth.Ext
open Bytes Word Post TreeWalk Latest RingLog

section Choice

def ctimeOf (inode : List UInt8) : ℕ := le (window inode 0x0C 4)

def HasMap (inode : List UInt8) : Prop := inodeHasBlockmap inode = .ok true

instance (inode : List UInt8) : Decidable (HasMap inode) := inferInstanceAs (Decidable (_ = _))

def IsFile (inode : List UInt8) : Prop := le (window inode 0 2) &&& MODE_FMT = MODE_REG

namespace Volume

variable (v : Volume) (src : Source) (journal : JournalIndex)

/-- The journaled copies of an inode that still have their blocks, the oldest first. -/
def mappedCopies (ino : ℕ) : List (List UInt8) :=
  if ino = 0 then []
  else
    match v.groups[(ino - 1) / v.inodesPerGroup]? with
    | none => []
    | some group =>
      let byte := satAdd (satMul group.inodeTable v.blockSize) (satMul ((ino - 1) % v.inodesPerGroup) v.inodeSize)
      (((v.journaledCopies src journal (byte / v.blockSize)).filter fun copy =>
        byte % v.blockSize + v.inodeSize ≤ copy.length).map fun copy =>
          window copy (byte % v.blockSize) v.inodeSize).filter HasMap

/-- The live inode still has its blocks. -/
def LiveMapped (ino : ℕ) : Prop := ∃ live, v.readInode src ino = .ok (some live) ∧ HasMap live

/-- What is recovered under an inode number is a regular file, and of the journaled copies of regular
files the one with the latest change, if it is not the live one. -/
def FromFile (ino : ℕ) : Prop :=
  ∀ inode, v.chooseInode src journal ino = .ok (some inode) → IsFile inode ∧
    (¬ v.LiveMapped src ino → inode ∈ v.mappedCopies src journal ino ∧
      ∀ copy ∈ v.mappedCopies src journal ino, IsFile copy → ctimeOf copy ≤ ctimeOf inode)

/-- No copy of something else than a regular file is later than all those of regular files. -/
def NoneOutlasts (ino : ℕ) : Prop :=
  ∀ before copy behind, v.mappedCopies src journal ino = before ++ copy :: behind → ¬ IsFile copy →
    Outdone ctimeOf IsFile before copy behind

variable {v src journal} {ino : ℕ}

theorem exists_hasBlockmap {inode : List UInt8} (h : 128 ≤ inode.length) : ∃ b, inodeHasBlockmap inode = .ok b := by
  have hblock : (window inode 0x28 60).length = 60 := by
    rw [length_window]
    omega
  unfold inodeHasBlockmap
  rw [if_neg (by omega), slice_eq (by omega), exec_ok_bind, inodeFlags_eq h, exec_ok_bind]
  split_ifs
  · rw [field_eq (by omega), field_eq (by omega)]
    exact ⟨_, rfl⟩
  · exact ⟨_, rfl⟩

/-- The best copy so far is the latest of those that were looked at. -/
theorem betterCopy_eq (within : ℕ) (best : Option (List UInt8)) (copy : List UInt8) :
    v.betterCopy within (best.map fun i => (ctimeOf i, i)) copy =
      .ok ((if within + v.inodeSize ≤ copy.length ∧ HasMap (window copy within v.inodeSize) then
        keepLatest ctimeOf best (window copy within v.inodeSize) else best).map fun i => (ctimeOf i, i)) := by
  unfold betterCopy
  by_cases hin : within + v.inodeSize ≤ copy.length
  · have hlong : 128 ≤ (window copy within v.inodeSize).length := by
      have hsize := v.inode_ge
      rw [length_window]
      omega
    obtain ⟨mapped, hmapped⟩ := exists_hasBlockmap hlong
    have hctime : inodeCtime (window copy within v.inodeSize) = .ok (ctimeOf (window copy within v.inodeSize)) :=
      field_eq (by omega)
    rw [if_pos hin, slice_eq hin, exec_ok_bind, hmapped, exec_ok_bind]
    cases mapped with
    | false =>
      have hnot : ¬ (within + v.inodeSize ≤ copy.length ∧ HasMap (window copy within v.inodeSize)) :=
        fun h => (by cases hmapped.symm.trans h.2)
      rw [if_neg Bool.false_ne_true, if_neg hnot]
      rfl
    | true =>
      have hboth : within + v.inodeSize ≤ copy.length ∧ HasMap (window copy within v.inodeSize) := ⟨hin, hmapped⟩
      rw [if_pos (show true = true from rfl), hctime, exec_ok_bind, if_pos hboth, keepLatest, Option.all_map]
      change Except.ok (if best.all (fun b => ctimeOf b ≤ _) = true then _ else _) = _
      split <;> rfl
  · rw [if_neg hin, if_neg (fun h => hin h.1)]
    rfl

/-- The copies are looked at one after the other. -/
theorem foldlM_betterCopy (within : ℕ) (copies : List (List UInt8)) (best : Option (List UInt8)) :
    copies.foldlM (v.betterCopy within) (best.map fun i => (ctimeOf i, i)) =
      .ok ((((((copies.filter fun copy => within + v.inodeSize ≤ copy.length).map fun copy =>
        window copy within v.inodeSize).filter HasMap).foldl (keepLatest ctimeOf) best)).map fun i => (ctimeOf i, i)) := by
  induction copies generalizing best with
  | nil => rfl
  | cons copy rest ih =>
    rw [List.foldlM_cons, betterCopy_eq, exec_ok_bind, ih]
    by_cases hin : within + v.inodeSize ≤ copy.length
    · by_cases hmap : HasMap (window copy within v.inodeSize)
      · simp [hin, hmap]
      · simp [hin, hmap]
    · simp [hin]

theorem journaledInode_eq :
    v.journaledInode src journal ino = .ok (latest ctimeOf (v.mappedCopies src journal ino)) := by
  unfold journaledInode mappedCopies
  by_cases hzero : ino = 0
  · rw [if_pos hzero, if_pos hzero]
    rfl
  rw [if_neg hzero, if_neg hzero]
  cases v.groups[(ino - 1) / v.inodesPerGroup]? with
  | none => rfl
  | some group =>
    dsimp only
    have hfold := v.foldlM_betterCopy (satAdd (satMul group.inodeTable v.blockSize)
      (satMul ((ino - 1) % v.inodesPerGroup) v.inodeSize) % v.blockSize) (v.journaledCopies src journal
        (satAdd (satMul group.inodeTable v.blockSize) (satMul ((ino - 1) % v.inodesPerGroup) v.inodeSize) /
          v.blockSize)) none
    rw [Option.map_none] at hfold
    have hsnd : (Prod.snd ∘ fun i => (ctimeOf i, i)) = id := rfl
    rw [hfold, exec_ok_bind, Option.map_map, hsnd, Option.map_id]
    rfl

theorem tolerated_some {α : Type} {x : Exec (Option α)} {a : α} (h : tolerated none x = .ok (some a)) :
    x = .ok (some a) := by
  cases x with
  | ok b => exact h
  | error e => cases e <;> cases h

/-- A report is made of the live inode. -/
def Reported (v : Volume) (src : Source) (f : Found) : Prop :=
  ∃ live, v.readInode src f.ino = .ok (some live) ∧ IsFile live

variable {windows : Bool}

theorem listEntry_reported (frame : Frame) (entry : DirEntry) :
    Ends (fun _ => True) (fun l => ∀ f ∈ l.reports, v.Reported src f) (v.listEntry src windows frame entry) := by
  have hnone {pushed : List Frame} : Ends (fun _ : Fault => True)
      (fun l : Listing => ∀ f ∈ l.reports, v.Reported src f) (.ok ⟨pushed, []⟩) := Ends.ok (by simp)
  unfold listEntry
  apply Ends.ite
  · exact fun _ => hnone
  · intro _
    cases hread : tolerated none (v.readInode src entry.ino) with
    | error e => trivial
    | ok child =>
      cases child with
      | none => exact hnone
      | some child =>
        have hlive := tolerated_some hread
        have hlong : 128 ≤ child.length := (v.readInode_length src hlive).symm ▸ v.inode_ge
        rw [exec_ok_bind]
        apply (Ends.any _).bind
        intro links _
        apply (Ends.any _).bind
        intro dtime _
        apply (Ends.any _).bind
        intro isDir _
        apply Ends.ite
        · exact fun _ => hnone
        · intro _
          rw [isFormat, inodeMode_eq hlong, exec_ok_bind]
          apply Ends.ite
          · intro hfile
            apply Ends.ite
            · intro _
              apply (Ends.any _).bind
              intro size _ f hf
              cases List.mem_singleton.mp hf
              have hmode : le (window child 0 2) &&& MODE_FMT = MODE_REG := of_decide_eq_true hfile
              exact ⟨child, hlive, hmode⟩
            · exact fun _ => hnone
          · exact fun _ => hnone

theorem listEntries_reported (frame : Frame) (entries : List DirEntry) :
    Ends (fun _ => True) (fun l => ∀ f ∈ l.reports, v.Reported src f) (v.listEntries src windows frame entries) := by
  induction entries with
  | nil => exact Ends.ok (by simp)
  | cons entry rest ih =>
    unfold listEntries
    apply (listEntry_reported frame entry).bind
    intro one hone
    apply ih.bind
    intro list hlist f hf
    exact (List.mem_append.mp hf).elim (hone f) (hlist f)

theorem walk_reported {fuel : ℕ} {r : WalkResult Found Fault} (h : v.walk src journal windows fuel = some r) {f : Found}
    (hf : f ∈ r.reports) : v.Reported src f := by
  obtain ⟨s, frame, rest, -, -, hvisit⟩ := mem_reports h hf
  unfold visit at hvisit
  split at hvisit
  · cases hvisit
  · split at hvisit
    · cases hvisit
    · rename_i list hlist
      obtain ⟨i, -, hlist⟩ := exec_bind_ok hlist
      cases i with
      | none =>
        cases hlist
        cases hvisit
      | some inode =>
        obtain ⟨entries, -, hlist⟩ := exec_bind_ok hlist
        exact (listEntries_reported frame _).of_ok hlist f hvisit

/-- The content of every deleted file that is reported is that of a file, the one with the latest
change that is left of it, if and only if its live inode still has its blocks or no journaled copy of
something else outlasts those of files. -/
theorem recovered_from_file_iff {fuel : ℕ} {r : WalkResult Found Fault}
    (h : v.walk src journal windows fuel = some r) {f : Found} (hf : f ∈ r.reports) :
    v.FromFile src journal f.ino ↔ v.LiveMapped src f.ino ∨ v.NoneOutlasts src journal f.ino := by
  obtain ⟨live, hlive, hfile⟩ := walk_reported h hf
  have hlong : 128 ≤ live.length := (v.readInode_length src hlive).symm ▸ v.inode_ge
  obtain ⟨mapped, hmapped⟩ := exists_hasBlockmap hlong
  cases mapped with
  | true =>
    have hchoice : v.chooseInode src journal f.ino = .ok (some live) := by
      rw [chooseInode, hlive]
      change (inodeHasBlockmap live >>= _) = _
      rw [hmapped]
      rfl
    have hmap : v.LiveMapped src f.ino := ⟨live, hlive, hmapped⟩
    refine iff_of_true (fun inode hinode => ?_) (.inl hmap)
    cases hchoice.symm.trans hinode
    exact ⟨hfile, fun hnot => absurd hmap hnot⟩
  | false =>
    have hchoice : v.chooseInode src journal f.ino = v.journaledInode src journal f.ino := by
      rw [chooseInode, hlive]
      change (inodeHasBlockmap live >>= _) = _
      rw [hmapped]
      rfl
    have hmap : ¬ v.LiveMapped src f.ino := by
      rintro ⟨live', hlive', hmapped'⟩
      cases hlive.symm.trans hlive'
      cases hmapped.symm.trans hmapped'
    rw [or_iff_right hmap, NoneOutlasts, ← latest_satisfies_iff, FromFile, hchoice, journaledInode_eq]
    constructor
    · intro hfrom a ha
      exact (hfrom a (congrArg Except.ok ha)).1
    · intro hlatest inode hinode
      have hkept := Except.ok.inj hinode
      obtain ⟨hmem, hgreatest⟩ := latest_mem hkept
      exact ⟨hlatest inode hkept, fun _ => ⟨hmem, fun copy hcopy _ => hgreatest copy hcopy⟩⟩

end Volume

end Choice

section Reused

/-- Fields at their offsets in an inode of 128 bytes. -/
def inodeOf (fields : List (ℕ × List UInt8)) : List UInt8 :=
  fields.foldl (fun inode f => writeAt inode f.1 f.2) (List.replicate 128 0)

theorem length_inodeOf {fields : List (ℕ × List UInt8)} (h : ∀ f ∈ fields, f.1 + f.2.length ≤ 128) :
    (inodeOf fields).length = 128 := by
  rw [inodeOf, length_foldl_writeAt (by rwa [List.length_replicate]), List.length_replicate]

def journalInode : List UInt8 := inodeOf [(0x04, [0x00, 0x10]), (0x28, [4]), (0x2C, [5]), (0x30, [6]), (0x34, [7])]

def rootInode : List UInt8 := inodeOf [(0x00, [0x00, 0x40]), (0x04, [12]), (0x28, [8])]

/-- The inode of a deleted file, without blocks. -/
def deletedInode : List UInt8 := inodeOf [(0x00, [0x00, 0x80]), (0x14, [9])]

/-- The same inode when it was that of a directory. -/
def formerInode : List UInt8 := inodeOf [(0x00, [0x00, 0x40]), (0x0C, [7]), (0x28, [8])]

def reusedTable : List UInt8 := journalInode ++ rootInode ++ deletedInode ++ List.replicate 640 0

def formerTable : List UInt8 := List.replicate 256 0 ++ formerInode ++ List.replicate 640 0

def reusedJournalBlock : List UInt8 := blockOf [(0x00, toBe 4 JBD2_MAGIC), (0x10, toBe 4 4), (0x14, toBe 4 1)]

/-- The one tag is for the block of the inodes. -/
def reusedDescriptor : List UInt8 :=
  blockOf [(0x00, toBe 4 JBD2_MAGIC), (0x04, toBe 4 JBD2_DESCRIPTOR_BLOCK), (0x0C, toBe 4 3), (0x12, toBe 2 8)]

def reusedRecord : List UInt8 := [3, 0, 0, 0, 12, 0, 1, 0, 0x66, 0, 0, 0]

def reusedRoot : List UInt8 := reusedRecord ++ List.replicate 1012 0

def reusedBlocks : List (List UInt8) :=
  [blockOf [], superBlock, blockOf [(0x08, [3])], reusedTable, reusedJournalBlock, reusedDescriptor, formerTable,
    blockOf [], reusedRoot]

theorem length_journalInode : journalInode.length = 128 := length_inodeOf (by decide)

theorem length_rootInode : rootInode.length = 128 := length_inodeOf (by decide)

theorem length_deletedInode : deletedInode.length = 128 := length_inodeOf (by decide)

theorem length_formerInode : formerInode.length = 128 := length_inodeOf (by decide)

theorem window_formerTable : window formerTable 256 128 = formerInode := by
  have hwindow := window_append (List.replicate 256 0) formerInode (List.replicate 640 0)
  rwa [List.length_replicate, length_formerInode] at hwindow

theorem length_reusedBlocks : ∀ b ∈ reusedBlocks, b.length = 1024 := by
  have hblank : (blockOf []).length = 1024 := length_blockOf (by decide)
  have hsuper : superBlock.length = 1024 := length_blockOf (by decide)
  have hgroup : (blockOf [(0x08, [3])]).length = 1024 := length_blockOf (by decide)
  have htable : reusedTable.length = 1024 := by
    rw [reusedTable, List.length_append, List.length_append, List.length_append, length_journalInode, length_rootInode,
      length_deletedInode, List.length_replicate]
  have hjournal : reusedJournalBlock.length = 1024 := length_blockOf (by decide)
  have hdescriptor : reusedDescriptor.length = 1024 := length_blockOf (by decide)
  have hformer : formerTable.length = 1024 := by
    rw [formerTable, List.length_append, List.length_append, length_formerInode, List.length_replicate,
      List.length_replicate]
  have hroot : reusedRoot.length = 1024 := by
    rw [reusedRoot, List.length_append, List.length_replicate]
    rfl
  simp [reusedBlocks, hblank, hsuper, hgroup, htable, hjournal, hdescriptor, hformer, hroot]

theorem length_reused : reusedBlocks.flatten.length = 9216 := by
  rw [List.length_flatten, List.map_congr_left length_reusedBlocks]
  rfl

def reusedSource : Source where
  data := reusedBlocks.flatten
  size_lt := by
    rw [length_reused]
    decide

theorem reused_reliable : reusedSource.Reliable := fun _ _ => rfl

theorem parse_reused : Volume.parse .debug reusedSource 0 = .ok (.ok smallVolume) := by decide +kernel

theorem read_reused {k : ℕ} (hk : k < 9) {block : List UInt8} (hblock : reusedBlocks[k]? = some block) :
    smallVolume.readBlock reusedSource k = .ok block :=
  read_smallBlock reused_reliable rfl length_reusedBlocks (by omega) hblock

theorem journalInode_reused : smallVolume.readInode reusedSource 1 = .ok (some journalInode) := by
  have hread := read_smallInode reused_reliable rfl length_reusedBlocks (show 0 < 8 by decide) rfl
  rwa [Nat.mul_zero, reusedTable, List.append_assoc, List.append_assoc, window_whole length_journalInode] at hread

theorem rootInode_reused : smallVolume.readInode reusedSource 2 = .ok (some rootInode) := by
  have hread := read_smallInode reused_reliable rfl length_reusedBlocks (show 1 < 8 by decide) rfl
  rwa [Nat.mul_one, reusedTable, List.append_assoc, List.append_assoc, window_behind length_journalInode le_rfl,
    Nat.sub_self, window_whole length_rootInode] at hread

theorem deletedInode_reused : smallVolume.readInode reusedSource 3 = .ok (some deletedInode) := by
  have hread := read_smallInode reused_reliable rfl length_reusedBlocks (show 2 < 8 by decide) rfl
  rwa [reusedTable, List.append_assoc, List.append_assoc, window_behind length_journalInode (by decide),
    window_behind length_rootInode (by decide), show 128 * 2 - 128 - 128 = 0 from rfl,
    window_whole length_deletedInode] at hread

def reusedJournal : smallVolume.Journal reusedSource where
  inode := journalInode
  read_inode := journalInode_reused
  has_blockmap := by decide +kernel
  size := 4096
  read_size := by decide +kernel
  size_ne := by decide
  start := 4
  rest := [5, 6, 7]
  mapped := by
    have hcount : divCeil 4096 smallVolume.blockSize = 4 := by decide
    rw [hcount, Volume.mapBlocks_direct length_journalInode.ge (by decide +kernel) (by decide) (le_max_of_le_left (by decide))]
    decide +kernel
  nodup := by decide
  superblock := reusedJournalBlock
  read_super := read_reused (by decide) rfl
  super_length := by decide +kernel
  super_magic := by decide +kernel
  ring := [reusedDescriptor, formerTable, blockOf []]
  ring_ne := by simp
  first_pos := by decide +kernel
  maxlen_eq := by decide +kernel
  maxlen_le := by decide +kernel
  maxlen_mapped := by decide +kernel
  read_ring := by
    intro p phys block hphys hblock
    have hfirst : beField reusedJournalBlock 0x14 4 = 1 := by decide +kernel
    have hp : p < 3 := (List.getElem?_eq_some_iff.mp hblock).1
    have hplace : ∀ p < 3, [4, 5, 6, 7][1 + p]? = some (5 + p) := by decide
    rw [hfirst, hplace p hp, Option.some.injEq] at hphys
    rw [← hphys]
    obtain rfl | rfl | rfl : p = 0 ∨ p = 1 ∨ p = 2 := by omega
    · obtain rfl : reusedDescriptor = block := Option.some.inj hblock
      exact read_reused (by decide) rfl
    · obtain rfl : formerTable = block := Option.some.inj hblock
      exact read_reused (by decide) rfl
    · obtain rfl : blockOf [] = block := Option.some.inj hblock
      exact read_reused (by decide) rfl

/-- The fields of the inodes, the slots of the journal and the one entry of the root directory. -/
theorem fields_reused : (beField reusedJournalBlock 0x14 4 = 1 ∧
      reusedJournal.ring.map (slotOf reusedJournal.fmt) = [some [3], none, none]) ∧
    (Volume.isFormat MODE_DIR rootInode = .ok true ∧ inodeHasBlockmap rootInode = .ok true ∧
      dirSize rootInode = .ok 12 ∧
      parseDirBlock smallVolume.filetypeDirents reusedRecord smallVolume.blockSize = .ok [⟨3, ['f']⟩]) ∧
    inodeLinks deletedInode = .ok 0 ∧ inodeDtime deletedInode = .ok 9 ∧
    Volume.isFormat MODE_DIR deletedInode = .ok false ∧ Volume.isFormat MODE_REG deletedInode = .ok true ∧
    regSize deletedInode = .ok 0 := by decide +kernel

/-- The journal has one copy of the block of the inodes. -/
theorem index_reused : smallVolume.buildJournalIndex reusedSource = .ok [(3, 6)] := by
  obtain ⟨hfirst, hslots⟩ := fields_reused.1
  have hphys : reusedJournal.phys 1 = some 6 := by
    change [4, 5, 6, 7][beField reusedJournalBlock 0x14 4 + 1]? = _
    rw [hfirst]
    rfl
  have hstops : stops 0 0 [some [3], none, none] = [(0, [3]), (2, [])] := rfl
  rw [reusedJournal.buildJournalIndex_eq, hslots, scanned, hstops, List.take_of_length_le (by decide)]
  simp [announced, located, hphys]

theorem map_reused : smallVolume.mapBlocks reusedSource rootInode 1 = .ok [8] := by
  rw [Volume.mapBlocks_direct length_rootInode.ge (by decide +kernel) (by decide) (le_max_of_le_left (by decide))]
  decide +kernel

theorem data_reused : smallVolume.readFileData reusedSource rootInode 12 =
    .ok reusedRecord := by
  have hsize : reusedSource.size = 9216 := length_reused
  have hroot : window reusedSource.data 8192 1024 = reusedRoot := by
    have hlast := window_flatten length_reusedBlocks 8
    rwa [reusedBlocks, List.getD_cons_succ, List.getD_cons_succ, List.getD_cons_succ, List.getD_cons_succ,
      List.getD_cons_succ, List.getD_cons_succ, List.getD_cons_succ, List.getD_cons_succ, List.getD_cons_zero] at hlast
  have hread : reusedSource.readAt 8192 12 = .ok reusedRecord := by
    have hrecord : window reusedRoot 0 12 = reusedRecord := window_whole rfl _
    rw [reused_reliable.readAt (by decide), ← hrecord, ← hroot, window, window, window, List.drop_zero, List.take_take,
      Nat.min_eq_left (by decide)]
  have hoff : satAdd smallVolume.offset (satMul 8 smallVolume.blockSize) = 8192 := by decide
  have hcut : reusedRecord.length = 12 := rfl
  have hroom : 12 ≤ smallVolume.limit reusedSource * smallVolume.blockSize := by
    have hlimit : 9 ≤ smallVolume.limit reusedSource := le_max_left ..
    rw [show smallVolume.blockSize = 1024 from rfl]
    omega
  have hmap := map_reused
  generalize rootInode = inode at hmap ⊢
  generalize reusedRecord = bytes at hread hcut ⊢
  rw [Volume.readFileData, if_neg (by decide), hsize]
  change (smallVolume.mapBlocks reusedSource inode 1 >>= _) = _
  rw [hmap, exec_ok_bind]
  change (request (smallVolume.limit reusedSource * smallVolume.blockSize) 12 >>= _) = _
  have htake : min (min 12 9216 - ([] : List UInt8).length) smallVolume.blockSize = 12 := by decide
  rw [request_eq hroom, exec_ok_bind, Volume.readBlocks, if_neg (by decide)]
  dsimp only
  rw [htake, if_neg (by decide), hoff, hread, exec_ok_bind, hcut, if_neg (by decide)]
  rfl

theorem dir_reused : smallVolume.dirInode reusedSource [(3, 6)] 2 = .ok (some rootInode) := by
  have hroot := rootInode_reused
  obtain ⟨hmode, hmap, -⟩ := fields_reused.2.1
  generalize rootInode = inode at hroot hmode hmap ⊢
  have hlive : smallVolume.liveDir reusedSource 2 = .ok (some inode) := by
    rw [Volume.liveDir, hroot]
    change (Volume.isFormat MODE_DIR inode >>= _) = _
    rw [hmode, exec_ok_bind, if_pos rfl, hmap]
    rfl
  rw [Volume.dirInode, hlive]
  rfl

theorem entries_reused : smallVolume.dirEntries reusedSource [(3, 6)] rootInode =
    .ok [⟨3, ['f']⟩] := by
  obtain ⟨-, -, hsize, hparsed⟩ := fields_reused.2.1
  have hdata := data_reused
  have hmap := map_reused
  generalize rootInode = inode at hsize hdata hmap ⊢
  generalize reusedRecord = bytes at hparsed hdata
  have hnone : smallVolume.journaledCopies reusedSource [(3, 6)] 8 = [] := rfl
  have hcount : divCeil 12 smallVolume.blockSize = 1 := by decide
  rw [Volume.dirEntries, hsize, exec_ok_bind, hdata]
  change (parseDirBlock smallVolume.filetypeDirents bytes smallVolume.blockSize >>= _) = _
  rw [hparsed, exec_ok_bind, if_neg (by decide), hcount, hmap]
  change (smallVolume.copiedEntries reusedSource [(3, 6)] [⟨3, ['f']⟩] 8 >>= _) = _
  rw [Volume.copiedEntries, hnone]
  rfl

theorem entry_reused : smallVolume.listEntry reusedSource false Volume.rootFrame ⟨3, ['f']⟩ =
    .ok ⟨[], [⟨3, [['f']], 0⟩]⟩ := by
  have hfile := deletedInode_reused
  obtain ⟨hlinks, hdtime, hdir, hreg, hsize⟩ := fields_reused.2.2
  generalize deletedInode = inode at hfile hlinks hdtime hdir hreg hsize
  have hread : tolerated none (smallVolume.readInode reusedSource 3) = .ok (some inode) := by
    rw [hfile]
    rfl
  rw [Volume.listEntry, if_neg (by decide), hread, exec_ok_bind]
  dsimp only
  rw [hlinks, exec_ok_bind, hdtime, exec_ok_bind, hdir, exec_ok_bind, if_neg Bool.false_ne_true, hreg, exec_ok_bind,
    if_pos rfl, if_pos (.inl rfl), hsize]
  rfl

/-- The root directory leads to the deleted file. -/
theorem list_reused : smallVolume.listDirectory reusedSource [(3, 6)] false Volume.rootFrame =
    .ok ⟨[], [⟨3, [['f']], 0⟩]⟩ := by
  have hentries := entries_reused
  have hdir := dir_reused
  generalize rootInode = inode at hentries hdir
  have hunique : [(⟨3, ['f']⟩ : DirEntry)].eraseDups = [⟨3, ['f']⟩] := by decide
  rw [Volume.listDirectory, show Volume.rootFrame.ino = 2 from rfl, hdir, exec_ok_bind]
  dsimp only
  rw [hentries, exec_ok_bind, hunique, Volume.listEntries, entry_reused]
  rfl

theorem walk_reused : ∃ r, smallVolume.walk reusedSource [(3, 6)] false 2 = some r ∧ ⟨3, [['f']], 0⟩ ∈ r.reports := by
  have hvisit : smallVolume.visit reusedSource [(3, 6)] false ∅ Volume.rootFrame =
      ⟨{2}, [2], [], [⟨3, [['f']], 0⟩], none⟩ := by
    rw [Volume.visit, if_neg (Finset.notMem_empty _), list_reused]
    rfl
  have hnext : body (smallVolume.visit reusedSource [(3, 6)] false) (.start Volume.rootFrame) =
      .next ⟨{2}, [2], [], [⟨3, [['f']], 0⟩]⟩ := by
    rw [body, State.start]
    dsimp only
    rw [hvisit]
    rfl
  refine ⟨⟨[2], [⟨3, [['f']], 0⟩], none⟩, ?_, List.mem_singleton_self _⟩
  rw [Volume.walk, walk, Loop.run_next hnext]
  exact Loop.run_done rfl 0

theorem from_file_iff_reused : smallVolume.FromFile reusedSource [(3, 6)] 3 ↔
    smallVolume.LiveMapped reusedSource 3 ∨ smallVolume.NoneOutlasts reusedSource [(3, 6)] 3 := by
  obtain ⟨r, hwalk, hmem⟩ := walk_reused
  have hiff := Volume.recovered_from_file_iff hwalk hmem
  dsimp only at hiff
  exact hiff

/-- The content of the deleted file is that of a directory which had its inode before. -/
theorem former_chosen : Volume.parse .debug reusedSource 0 = .ok (.ok smallVolume) ∧
    smallVolume.buildJournalIndex reusedSource = .ok [(3, 6)] ∧
    (∃ r, smallVolume.walk reusedSource [(3, 6)] false 2 = some r ∧ ⟨3, [['f']], 0⟩ ∈ r.reports) ∧
    smallVolume.chooseInode reusedSource [(3, 6)] 3 = .ok (some formerInode) ∧
    le (window formerInode 0 2) &&& MODE_FMT = MODE_DIR ∧
    ¬ smallVolume.FromFile reusedSource [(3, 6)] 3 := by
  have hmode : le (window formerInode 0 2) &&& MODE_FMT = MODE_DIR := by decide +kernel
  have hmap : inodeHasBlockmap deletedInode = .ok false := by decide +kernel
  have hformer : HasMap formerInode := by
    unfold HasMap
    decide +kernel
  have hcopies : smallVolume.mappedCopies reusedSource [(3, 6)] 3 = [formerInode] := by
    have hgroup : smallVolume.groups[(3 - 1) / smallVolume.inodesPerGroup]? = some ⟨3, 0⟩ := by decide
    have hbyte : satAdd (satMul 3 smallVolume.blockSize)
        (satMul ((3 - 1) % smallVolume.inodesPerGroup) smallVolume.inodeSize) = 3328 := by decide
    have hplace : 3328 / smallVolume.blockSize = 3 ∧ 3328 % smallVolume.blockSize = 256 := by decide
    have hread : smallVolume.readBlock reusedSource 6 = .ok formerTable := read_reused (by decide) rfl
    have hjournaled : smallVolume.journaledCopies reusedSource [(3, 6)] 3 = [formerTable] := by
      change [6].filterMap (fun phys => (smallVolume.readBlock reusedSource phys).toOption) = _
      rw [List.filterMap_cons, hread]
      rfl
    have hlen : 256 + smallVolume.inodeSize ≤ formerTable.length := by
      rw [length_reusedBlocks formerTable (by simp [reusedBlocks])]
      decide
    have hin : [formerTable].filter (fun copy => 256 + smallVolume.inodeSize ≤ copy.length) = [formerTable] := by
      simp [hlen]
    rw [Volume.mappedCopies, if_neg (by decide), hgroup]
    dsimp only
    rw [hbyte, hplace.1, hplace.2, hjournaled, hin, List.map_singleton, show smallVolume.inodeSize = 128 from rfl,
      window_formerTable]
    simp [hformer]
  have hchoice : smallVolume.chooseInode reusedSource [(3, 6)] 3 = .ok (some formerInode) := by
    have hread : tolerated none (smallVolume.readInode reusedSource 3) = .ok (some deletedInode) := by
      rw [deletedInode_reused]
      rfl
    rw [Volume.chooseInode, hread, exec_ok_bind]
    dsimp only
    rw [hmap, exec_ok_bind, if_neg Bool.false_ne_true, Volume.journaledInode_eq, hcopies]
    rfl
  refine ⟨parse_reused, index_reused, walk_reused, hchoice, hmode, fun hfrom => ?_⟩
  have hfile : le (window formerInode 0 2) &&& MODE_FMT = MODE_REG := (hfrom _ hchoice).1
  rw [hmode] at hfile
  exact absurd hfile (by decide)

end Reused

end Unearth.Ext
