import Unearth.ExtJournalFormat

/-!
# The index of a journal that has gone round

The journal is written round and round its ring, and the scan goes through the ring in the
order of its blocks. It finds every copy that is left, the oldest first, exactly when the
copies of each filesystem block are of one pass over the ring, and no descriptor comes after
the last block that a scan looks at.
-/

namespace Unearth.Ext
open Bytes Word Loop RingLog

theorem stops_skip {κ : Type} (skip pos : ℕ) (l : List (Option (List κ))) :
    stops skip pos l = stops 0 (pos + skip) (l.drop skip) := by
  induction l generalizing skip pos with
  | nil => cases skip <;> rw [List.drop_nil] <;> rfl
  | cons slot rest ih =>
    cases skip with
    | zero => rfl
    | succ n =>
      rw [stops, ih, List.drop_succ_cons]
      congr 1
      omega

/-- What a descriptor names, paired with the blocks behind it as far as there are some. -/
theorem located_announced {jblocks : List ℕ} (first pos : ℕ) (tags : List ℕ) :
    located (fun p => jblocks[first + p]?) (announced pos tags) =
      tags.zip (jblocks.drop (first + pos + 1)) := by
  have hzip (k : ℕ) : (tags.zipIdx k).filterMap
      (fun e => (jblocks[first + (pos + 1 + e.2)]?).map (e.1, ·)) =
        tags.zip (jblocks.drop (first + pos + 1 + k)) := by
    induction tags generalizing k with
    | nil => rfl
    | cons t rest ih =>
      rw [List.zipIdx_cons, List.filterMap_cons, ih (k + 1)]
      have hplace : first + (pos + 1 + k) = first + pos + 1 + k := by omega
      dsimp only
      rw [hplace]
      by_cases hlt : first + pos + 1 + k < jblocks.length
      · rw [List.getElem?_eq_getElem hlt, List.drop_eq_getElem_cons hlt, List.zip_cons_cons]
        rfl
      · have hge := not_lt.mp hlt
        rw [List.getElem?_eq_none hge, List.drop_eq_nil_of_le hge, List.drop_eq_nil_of_le (by omega),
          List.zip_nil_right, List.zip_nil_right]
        rfl
  rw [located, announced, List.filterMap_map]
  exact hzip 0

namespace Volume

variable {v : Volume} {src : Source}

section Scan

variable {jblocks : List ℕ} {first : ℕ} {ring : List (List UInt8)}

/-- The scan of a ring that can be read goes from stop to stop. -/
theorem scan_eval (fmt : TagFormat) (hlen : first + ring.length ≤ jblocks.length)
    (hread : ∀ p phys block, jblocks[first + p]? = some phys → ring[p]? = some block →
      v.readBlock src phys = .ok block) (pos steps : ℕ) (index : JournalIndex) :
    (v.scan src fmt jblocks (first + ring.length)).eval ⟨first + pos, steps, index⟩ =
      .ok (index ++ located (fun p => jblocks[first + p]?)
        (((stops 0 pos ((ring.map (slotOf fmt)).drop pos)).take (MAX_JOURNAL_BLOCKS - steps)).flatMap
          fun e => announced e.1 e.2)) := by
  by_cases hstop : ring.length ≤ pos ∨ MAX_JOURNAL_BLOCKS ≤ steps
  · have hdone : v.scanStep src fmt jblocks (first + ring.length) ⟨first + pos, steps, index⟩ =
        .done (.ok index) := if_pos (hstop.imp (by dsimp only; omega) id)
    have hnone : (stops 0 pos ((ring.map (slotOf fmt)).drop pos)).take (MAX_JOURNAL_BLOCKS - steps) = [] := by
      rcases hstop with hpos | hsteps
      · rw [List.drop_eq_nil_of_le (by rw [List.length_map]; exact hpos)]
        exact List.take_nil
      · rw [Nat.sub_eq_zero_of_le hsteps, List.take_zero]
    rw [(v.scan ..).eval_done hdone, hnone]
    simp [located]
  · rw [not_or, not_le, not_le] at hstop
    obtain ⟨hpos, hsteps⟩ := hstop
    have hin : first + pos < jblocks.length := by omega
    have hphys := List.getElem?_eq_getElem hin
    have hblock := List.getElem?_eq_getElem hpos
    have hcount : MAX_JOURNAL_BLOCKS - steps = (MAX_JOURNAL_BLOCKS - (steps + 1)) + 1 := by omega
    have hgo : ¬ (first + ring.length ≤ first + pos ∨ MAX_JOURNAL_BLOCKS ≤ steps) := by omega
    obtain ⟨tags, htags⟩ := exists_parseJournalTags fmt ring[pos]
    have hdrop : (ring.map (slotOf fmt)).drop pos =
        slotOf fmt ring[pos] :: (ring.map (slotOf fmt)).drop (pos + 1) := by
      rw [List.drop_eq_getElem_cons (by rw [List.length_map]; exact hpos), List.getElem_map]
    have hstep : v.scanStep src fmt jblocks (first + ring.length) ⟨first + pos, steps, index⟩ =
        .next ⟨first + (pos + 1 + ((slotOf fmt ring[pos]).getD []).length), steps + 1,
          index ++ located (fun p => jblocks[first + p]?) (announced pos ((slotOf fmt ring[pos]).getD []))⟩ := by
      unfold scanStep slotOf
      dsimp only
      rw [if_neg hgo, hphys]
      dsimp only
      rw [hread pos _ _ hphys hblock]
      dsimp only
      split_ifs with hother
      · simp [announced, located, Nat.add_assoc]
      · rw [htags]
        dsimp only
        rw [located_announced]
        simp only [Except.toOption, Option.getD_some]
        congr 2
        omega
    have hrest := scan_eval fmt hlen hread (pos + 1 + ((slotOf fmt ring[pos]).getD []).length) (steps + 1)
      (index ++ located (fun p => jblocks[first + p]?) (announced pos ((slotOf fmt ring[pos]).getD [])))
    rw [(v.scan ..).eval_next hstep, hrest, hdrop, stops, hcount, List.take_succ_cons, List.flatMap_cons,
      located_append, stops_skip ((slotOf fmt ring[pos]).getD []).length (pos + 1), List.drop_drop,
      List.append_assoc]
termination_by ring.length - pos

end Scan

/-- The journal of a volume: its file is long enough for its ring, no block of it has two
places, and what the ring has can be read. -/
structure Journal (v : Volume) (src : Source) where
  inode : List UInt8
  read_inode : v.readInode src v.journalInum = .ok (some inode)
  has_blockmap : inodeHasBlockmap inode = .ok true
  size : ℕ
  read_size : regSize inode = .ok size
  size_ne : size ≠ 0
  start : ℕ
  rest : List ℕ
  mapped : v.mapBlocks src inode (divCeil size v.blockSize) = .ok (start :: rest)
  nodup : (start :: rest).Nodup
  superblock : List UInt8
  read_super : v.readBlock src start = .ok superblock
  super_length : 0x2C ≤ superblock.length
  super_magic : beField superblock 0 4 = JBD2_MAGIC
  ring : List (List UInt8)
  ring_ne : ring ≠ []
  first_pos : 0 < beField superblock 0x14 4
  maxlen_eq : beField superblock 0x10 4 = beField superblock 0x14 4 + ring.length
  maxlen_le : beField superblock 0x10 4 ≤ divCeil size v.blockSize
  maxlen_mapped : beField superblock 0x10 4 ≤ (start :: rest).length
  read_ring : ∀ p phys block, (start :: rest)[beField superblock 0x14 4 + p]? = some phys →
    ring[p]? = some block → v.readBlock src phys = .ok block

namespace Journal

variable (J : Journal v src)

def fmt : TagFormat := .read J.superblock
def first : ℕ := beField J.superblock 0x14 4
def jblocks : List ℕ := J.start :: J.rest

/-- The block of the journal's file in which a slot of the ring is. -/
def phys (p : ℕ) : Option ℕ := J.jblocks[J.first + p]?

/-- The copies of a filesystem block that are left of a log, under descriptors that are left,
the oldest first. -/
def keptCopies (history : List Transaction) (fsBlock : ℕ) : List ℕ :=
  select fsBlock (located (fun i => J.phys (i % J.ring.length))
    (kept J.ring.length (history.flatMap Transaction.slots)))

theorem buildJournalIndex_eq :
    v.buildJournalIndex src = .ok (scanned J.phys MAX_JOURNAL_BLOCKS (J.ring.map (slotOf J.fmt))) := by
  have hmax : min (beField J.superblock 0x10 4) (divCeil J.size v.blockSize) = J.first + J.ring.length := by
    rw [min_eq_left J.maxlen_le, J.maxlen_eq, first]
  have hfirst : max (beField J.superblock 0x14 4) 1 = J.first + 0 := max_eq_left J.first_pos
  have hlen : J.first + J.ring.length ≤ J.jblocks.length := J.maxlen_eq ▸ J.maxlen_mapped
  have hsuper : ¬ (J.superblock.length < 0x2C ∨ beField J.superblock 0 4 ≠ JBD2_MAGIC) := by
    rw [J.super_magic]
    have hlong := J.super_length
    omega
  have hscan := scan_eval J.fmt hlen J.read_ring 0 0 []
  rw [List.drop_zero, Nat.sub_zero, List.nil_append] at hscan
  have hindex : v.scanJournal src (J.start :: J.rest) (divCeil J.size v.blockSize) =
      .ok (scanned J.phys MAX_JOURNAL_BLOCKS (J.ring.map (slotOf J.fmt))) := by
    rw [scanJournal, J.read_super]
    change (if _ then _ else _) = _
    rw [if_neg hsuper, hmax, hfirst]
    exact hscan
  rw [buildJournalIndex, J.read_inode]
  change (inodeHasBlockmap J.inode >>= _) = _
  rw [J.has_blockmap]
  change (regSize J.inode >>= _) = _
  rw [J.read_size]
  change (if J.size = 0 then _ else _) = _
  rw [if_neg J.size_ne]
  rw [J.mapped]
  exact hindex

theorem phys_injective (p q x : ℕ) (hp : J.phys p = some x) (hq : J.phys q = some x) : p = q := by
  obtain ⟨hplt, hp⟩ := List.getElem?_eq_some_iff.mp hp
  obtain ⟨hqlt, hq⟩ := List.getElem?_eq_some_iff.mp hq
  have hsame := List.getElem_inj J.nodup |>.mp (hp.trans hq.symm)
  omega

/-- The index lists, under every filesystem block, the copies that are left of the journal's
history, the oldest first, if and only if each block's copies are of one pass over the ring
and no descriptor comes after the last block that a scan looks at. -/
theorem index_iff {blank : List (List UInt8)} {history : List Transaction}
    (hblank : ∀ block ∈ blank, Plain block) (hlen : blank.length = J.ring.length)
    (hhistory : ∀ t ∈ history, t.WellFormed J.fmt v.blockSize)
    (hring : J.ring = written blank (history.flatMap (Transaction.blocks J.fmt))) :
    (∃ index, v.buildJournalIndex src = .ok index ∧
      ∀ fsBlock, index.copies fsBlock = J.keptCopies history fsBlock) ↔
    OnePass J.ring.length (kept J.ring.length (history.flatMap Transaction.slots)) ∧
      Reached MAX_JOURNAL_BLOCKS (J.ring.map (slotOf J.fmt)) := by
  have hpos : 0 < blank.length := by
    rw [hlen]
    exact List.length_pos_iff.mpr J.ring_ne
  have hnone : ∀ s ∈ blank.map (slotOf J.fmt), s = none := by
    intro s hs
    obtain ⟨block, hblock, rfl⟩ := List.mem_map.mp hs
    exact slotOf_plain (hblank block hblock)
  have hslots : J.ring.map (slotOf J.fmt) =
      written (blank.map (slotOf J.fmt)) (history.flatMap Transaction.slots) := by
    rw [hring, written_map, history_slots hhistory v.block_le]
  have hphys : ∀ p < (blank.map (slotOf J.fmt)).length, (J.phys p).isSome := by
    intro p hp
    rw [List.length_map, hlen] at hp
    have hmapped := J.maxlen_mapped
    rw [J.maxlen_eq] at hmapped
    rw [phys, jblocks, List.getElem?_eq_getElem (by rw [first]; omega)]
    rfl
  have hiff := select_scanned_iff MAX_JOURNAL_BLOCKS (by rwa [List.length_map]) hnone
    (whole_history hhistory) hphys J.phys_injective
  rw [List.length_map, hlen, ← hslots] at hiff
  rw [← hiff, J.buildJournalIndex_eq]
  constructor
  · intro ⟨index, hindex, hcopies⟩
    cases hindex
    exact hcopies
  · intro h
    exact ⟨_, rfl, h⟩

end Journal

end Volume

section Wrapped

/-- Fields at their offsets in a block of 1024 bytes. -/
def blockOf (fields : List (ℕ × List UInt8)) : List UInt8 :=
  fields.foldl (fun block f => writeAt block f.1 f.2) (List.replicate 1024 0)

theorem length_blockOf {fields : List (ℕ × List UInt8)} (h : ∀ f ∈ fields, f.1 + f.2.length ≤ 1024) :
    (blockOf fields).length = 1024 := by
  rw [blockOf, length_foldl_writeAt (by rwa [List.length_replicate]), List.length_replicate]

theorem least_block : 1024 ≤ 1024 := le_rfl

theorem least_block_le : 1024 ≤ 2 ^ 16 := by decide

theorem least_inode : 128 ≤ 128 := le_rfl

theorem least_inode_le : 128 ≤ 1024 := by decide

def smallVolume : Volume where
  offset := 0
  blockSize := 1024
  inodeSize := 128
  inodesPerGroup := 8
  filetypeDirents := false
  totalBlocks := 9
  journalInum := 1
  groups := [⟨3, 0⟩]
  blocksPerGroup := 9
  firstDataBlock := 1
  block_ge := least_block
  block_le := least_block_le
  inode_ge := least_inode
  inode_le := least_inode_le
  blocks_pos := by decide
  total_lt := by decide

section Blocks

variable {src : Source} {blocks : List (List UInt8)}

theorem read_smallBlock (hrel : src.Reliable) (hdata : src.data = blocks.flatten) (hlen : ∀ b ∈ blocks, b.length = 1024)
    {k : ℕ} (hk : k < 2 ^ 32) {block : List UInt8} (hblock : blocks[k]? = some block) :
    smallVolume.readBlock src k = .ok block := by
  have hat : satAdd smallVolume.offset (satMul k smallVolume.blockSize) = 1024 * k := by
    change satAdd 0 (satMul k 1024) = _
    rw [satMul_eq (by omega), satAdd_eq (by omega)]
    omega
  rw [Volume.readBlock, hat]
  exact hrel.readAt_block hdata hlen (by omega) rfl hblock

/-- The inodes are in the fourth block. -/
theorem read_smallInode (hrel : src.Reliable) (hdata : src.data = blocks.flatten) (hlen : ∀ b ∈ blocks, b.length = 1024)
    {i : ℕ} (hi : i < 8) {table : List UInt8} (htable : blocks[3]? = some table) :
    smallVolume.readInode src (i + 1) = .ok (some (window table (128 * i) 128)) := by
  have hlength : table.length = 1024 := hlen table (List.mem_of_getElem? htable)
  have hblock : window src.data (1024 * 3) 1024 = table := by
    rw [hdata, window_flatten hlen, List.getD_eq_getElem?_getD, htable, Option.getD_some]
  have hwindow : window src.data (1024 * 3 + 128 * i) 128 = window table (128 * i) 128 := by
    rw [← hblock, window, window, window, List.drop_take, List.drop_drop, List.take_take, Nat.min_eq_left (by omega)]
  have hread : src.readAt (1024 * 3 + 128 * i) 128 = .ok (window table (128 * i) 128) := by
    rw [hrel.readAt (by omega), hwindow]
  have hgroup : smallVolume.groups[(i + 1 - 1) / smallVolume.inodesPerGroup]? = some ⟨3, 0⟩ := by
    have hzero : i / 8 = 0 := Nat.div_eq_of_lt hi
    change [(⟨3, 0⟩ : Group)][(i + 1 - 1) / 8]? = _
    rw [Nat.add_sub_cancel, hzero]
    rfl
  have hoff : satAdd (satAdd smallVolume.offset (satMul 3 smallVolume.blockSize))
      (satMul ((i + 1 - 1) % smallVolume.inodesPerGroup) smallVolume.inodeSize) = 1024 * 3 + 128 * i := by
    change satAdd (satAdd 0 (satMul 3 1024)) (satMul ((i + 1 - 1) % 8) 128) = _
    rw [Nat.add_sub_cancel, Nat.mod_eq_of_lt hi, satMul_eq (by omega), satMul_eq (by omega),
      satAdd_eq (show 0 + 3 * 1024 < 2 ^ 64 by decide), satAdd_eq (by omega)]
    omega
  have hfull : ¬ (window table (128 * i) 128).length < 128 := by
    rw [length_window, hlength]
    omega
  rw [Volume.readInode, if_neg (Nat.succ_ne_zero i), hgroup]
  dsimp only
  rw [hoff, show smallVolume.inodeSize = 128 from rfl, hread, exec_ok_bind, if_neg hfull]
  rfl

end Blocks

def classic : TagFormat := ⟨false, false⟩

/-- A transaction with one copy of filesystem block 7. -/
def transactionOf (sequence : ℕ) (content : UInt8) : Transaction where
  sequence
  batches := [{
    tags := [⟨7, false, false, false, 0, List.replicate 16 0⟩]
    tail := List.replicate 988 0
    copies := [List.replicate 1024 content] }]
  commit := List.replicate 1012 0

/-- The second transaction begins in the last slot of the ring and ends in its second. -/
def wrappedHistory : List Transaction := [transactionOf 1 0xAA, transactionOf 2 0xBB]

def blankRing : List (List UInt8) := List.replicate 4 (List.replicate 1024 0)

def wrappedRing : List (List UInt8) := written blankRing (wrappedHistory.flatMap (Transaction.blocks classic))

theorem length_wrappedRing : wrappedRing.length = 4 := length_written ..

def inodeBlock : List UInt8 :=
  blockOf [(0x04, [0x00, 0x14]), (0x28, [4]), (0x2C, [5]), (0x30, [6]), (0x34, [7]), (0x38, [8])]

def journalBlock : List UInt8 := blockOf [(0x00, toBe 4 JBD2_MAGIC), (0x10, toBe 4 5), (0x14, toBe 4 1)]

/-- A superblock of nine blocks and one group, whose first inode is that of the journal. -/
def superBlock : List UInt8 :=
  blockOf [(0x00, [8]), (0x04, [9]), (0x14, [1]), (0x20, [9]), (0x28, [8]), (0x38, [0x53, 0xEF]), (0xE0, [1])]

theorem wrapped_blocks : ∀ b ∈ [blockOf [], superBlock, blockOf [(0x08, [3])], inodeBlock, journalBlock] ++ wrappedRing,
    b.length = 1024 := by
  have hblank : (blockOf []).length = 1024 := length_blockOf (by decide)
  have hsuper : superBlock.length = 1024 := length_blockOf (by decide)
  have hgroup : (blockOf [(0x08, [3])]).length = 1024 := length_blockOf (by decide)
  have hinode : inodeBlock.length = 1024 := length_blockOf (by decide)
  have hjournal : journalBlock.length = 1024 := length_blockOf (by decide)
  have hring : ∀ b ∈ wrappedRing, b.length = 1024 := by decide +kernel
  simp only [List.forall_mem_append, List.forall_mem_cons, hblank, hsuper, hgroup, hinode, hjournal, true_and]
  exact ⟨List.forall_mem_nil _, hring⟩

theorem wrapped_size :
    ([blockOf [], superBlock, blockOf [(0x08, [3])], inodeBlock, journalBlock].flatten ++ wrappedRing.flatten).length <
      2 ^ 63 := by
  rw [← List.flatten_append, List.length_flatten, List.map_congr_left wrapped_blocks]
  decide

/-- A volume of nine blocks whose journal is in the last five. -/
def wrappedSource : Source where
  data := [blockOf [], superBlock, blockOf [(0x08, [3])], inodeBlock, journalBlock].flatten ++ wrappedRing.flatten
  size_lt := wrapped_size

theorem wrapped_reliable : wrappedSource.Reliable := fun _ _ => rfl

theorem wrapped_data : wrappedSource.data =
    ([blockOf [], superBlock, blockOf [(0x08, [3])], inodeBlock, journalBlock] ++ wrappedRing).flatten := by
  rw [wrappedSource, List.flatten_append]

theorem parse_wrapped : Volume.parse .debug wrappedSource 0 = .ok (.ok smallVolume) := by decide +kernel

theorem read_block {k : ℕ} (hk : k < 9) {block : List UInt8}
    (hblock : ([blockOf [], superBlock, blockOf [(0x08, [3])], inodeBlock, journalBlock] ++ wrappedRing)[k]? =
      some block) : smallVolume.readBlock wrappedSource k = .ok block :=
  read_smallBlock wrapped_reliable wrapped_data wrapped_blocks (by omega) hblock

theorem read_wrapped : ∀ p < 4, smallVolume.readBlock wrappedSource (5 + p) = .ok (wrappedRing.getD p []) := by
  intro p hp
  apply read_block (by omega)
  have hlt : p < wrappedRing.length := by rwa [length_wrappedRing]
  rw [List.getElem?_append_right (Nat.le_add_right 5 p)]
  change wrappedRing[5 + p - 5]? = _
  rw [Nat.add_sub_cancel_left, List.getD_eq_getElem _ _ hlt, List.getElem?_eq_getElem hlt]

theorem read_inode_wrapped : smallVolume.readInode wrappedSource 1 = .ok (some (inodeBlock.take 128)) := by
  have htable : ([blockOf [], superBlock, blockOf [(0x08, [3])], inodeBlock, journalBlock] ++ wrappedRing)[3]? =
    some inodeBlock := rfl
  have hread := read_smallInode wrapped_reliable wrapped_data wrapped_blocks (show 0 < 8 by decide) htable
  rwa [Nat.mul_zero, window, List.drop_zero] at hread

def wrappedJournal : smallVolume.Journal wrappedSource where
  inode := inodeBlock.take 128
  read_inode := read_inode_wrapped
  has_blockmap := by decide +kernel
  size := 5120
  read_size := by decide +kernel
  size_ne := by decide
  start := 4
  rest := [5, 6, 7, 8]
  mapped := by decide +kernel
  nodup := by decide
  superblock := journalBlock
  read_super := read_block (show 4 < 9 by decide) rfl
  super_length := by decide +kernel
  super_magic := by decide +kernel
  ring := wrappedRing
  ring_ne := by decide +kernel
  first_pos := by decide +kernel
  maxlen_eq := by
    rw [length_wrappedRing]
    decide +kernel
  maxlen_le := by decide +kernel
  maxlen_mapped := by decide +kernel
  read_ring := by
    intro p phys block hphys hblock
    have hfirst : beField journalBlock 0x14 4 = 1 := by decide +kernel
    have hp : p < 4 := by
      rw [← length_wrappedRing]
      exact (List.getElem?_eq_some_iff.mp hblock).1
    have hplace : ∀ p < 4, [4, 5, 6, 7, 8][1 + p]? = some (5 + p) := by decide
    rw [hfirst, hplace p hp, Option.some.injEq] at hphys
    rw [← hphys, read_wrapped p hp, List.getD_eq_getElem?_getD, hblock]
    rfl

theorem fmt_wrapped : wrappedJournal.fmt = classic := by decide +kernel

theorem plain_zero : Plain (List.replicate 1024 0) := show beField _ 0 4 ≠ _ by decide +kernel

theorem transactionOf_wellFormed (sequence : ℕ) {content : UInt8}
    (hplain : Plain (List.replicate 1024 content)) : (transactionOf sequence content).WellFormed classic 1024 := by
  refine ⟨fun d hd => ?_⟩
  cases List.mem_singleton.mp hd
  refine ⟨by simp, ?_, rfl, ?_, ?_⟩
  · intro t ht
    cases List.mem_singleton.mp ht
    exact ⟨by decide, by simp⟩
  · intro copy hcopy
    cases List.mem_singleton.mp hcopy
    exact hplain
  · rw [Batch.descriptor, List.length_append, List.length_append, length_blockHeader,
      List.length_replicate]
    rfl

theorem plain_blankRing : ∀ block ∈ blankRing, Plain block := by
  intro block hblock
  rw [List.eq_of_mem_replicate hblock]
  exact plain_zero

theorem wrappedHistory_wellFormed :
    ∀ t ∈ wrappedHistory, t.WellFormed wrappedJournal.fmt smallVolume.blockSize := by
  intro t ht
  rw [fmt_wrapped]
  rcases List.mem_pair.mp ht with rfl | rfl
  · exact transactionOf_wellFormed 1 (show beField _ 0 4 ≠ _ by decide +kernel)
  · exact transactionOf_wellFormed 2 (show beField _ 0 4 ≠ _ by decide +kernel)

theorem wrappedRing_written : wrappedJournal.ring =
    written blankRing (wrappedHistory.flatMap (Transaction.blocks wrappedJournal.fmt)) := by
  rw [fmt_wrapped]
  rfl

theorem index_iff_wrapped :
    (∃ index, smallVolume.buildJournalIndex wrappedSource = .ok index ∧
      ∀ fsBlock, index.copies fsBlock = wrappedJournal.keptCopies wrappedHistory fsBlock) ↔
    OnePass wrappedJournal.ring.length
        (kept wrappedJournal.ring.length (wrappedHistory.flatMap Transaction.slots)) ∧
      Reached MAX_JOURNAL_BLOCKS (wrappedJournal.ring.map (slotOf wrappedJournal.fmt)) :=
  wrappedJournal.index_iff plain_blankRing length_wrappedRing.symm wrappedHistory_wellFormed
    wrappedRing_written

/-- The second copy of block 7 is in the first slot of the ring, under the descriptor in the
last one, and is not found. -/
theorem index_wrapped : Volume.parse .debug wrappedSource 0 = .ok (.ok smallVolume) ∧
    (∀ block ∈ blankRing, Plain block) ∧
    (∀ t ∈ wrappedHistory, t.WellFormed wrappedJournal.fmt smallVolume.blockSize) ∧
    wrappedJournal.ring = written blankRing (wrappedHistory.flatMap (Transaction.blocks wrappedJournal.fmt)) ∧
    ¬ ∃ index, smallVolume.buildJournalIndex wrappedSource = .ok index ∧
      ∀ fsBlock, index.copies fsBlock = wrappedJournal.keptCopies wrappedHistory fsBlock := by
  refine ⟨parse_wrapped, plain_blankRing, wrappedHistory_wellFormed, wrappedRing_written, ?_⟩
  intro ⟨index, hindex, hcopies⟩
  have hslots : wrappedRing.map (slotOf classic) = [none, none, none, some [7]] := by decide +kernel
  have hempty : smallVolume.buildJournalIndex wrappedSource = .ok [] := by
    have hring : wrappedJournal.ring.map (slotOf classic) = [none, none, none, some [7]] := hslots
    rw [wrappedJournal.buildJournalIndex_eq, fmt_wrapped, hring]
    have hfirst : beField journalBlock 0x14 4 = 1 := by decide +kernel
    have hphys : wrappedJournal.phys 4 = none := by
      change [4, 5, 6, 7, 8][beField journalBlock 0x14 4 + 4]? = none
      rw [hfirst]
      rfl
    have hstops : stops 0 0 [none, none, none, some [7]] = [(0, []), (1, []), (2, []), (3, [7])] := rfl
    rw [scanned, hstops, List.take_of_length_le (by decide)]
    simp [announced, located, hphys]
  have hkept : wrappedJournal.keptCopies wrappedHistory 7 = [5] := by decide +kernel
  rw [hempty] at hindex
  cases hindex
  have hcopies := hcopies 7
  rw [hkept] at hcopies
  cases hcopies

end Wrapped

end Unearth.Ext
