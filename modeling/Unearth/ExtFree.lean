import Unearth.ExtJournalRing
import Unearth.ExtSafety

/-!
# The free blocks of an ext volume

The bitmaps of the groups are gone through block by block. Only the offset of a free block and
the length of a run of them are computed without a check.
-/

namespace Unearth.Ext
open Bytes Word Loop Post

/-- The blocks seen so far as extents, the last one first, and the bitmap of the last block's group. -/
structure FreeScan where
  block : ℕ
  bitmap : Option (ℕ × List UInt8)
  out : List (ℕ × ℕ)

namespace Volume

variable (b : Build) (v : Volume) (src : Source)

def groupOf (block : ℕ) : ℕ := (block - v.firstDataBlock) / v.blocksPerGroup

/-- Whether the bitmap of its group shows a block free. What the bitmap does not reach is not. -/
def freeIn (bitmap : List UInt8) (block : ℕ) : Bool :=
  let bit := (block - v.firstDataBlock) % v.blocksPerGroup
  match bitmap[bit / 8]? with
  | some byte => !byte.toNat.testBit (bit % 8)
  | none => false

/-- The bitmap of a group, which is read where the group begins. -/
def loadBitmap (s : FreeScan) (group : ℕ) : Option (Exec (List UInt8)) :=
  match s.bitmap with
  | some (g, bitmap) => if g = group then some (.ok bitmap) else (v.groups[group]?).map fun g => v.readBlock src g.blockBitmap
  | none => (v.groups[group]?).map fun g => v.readBlock src g.blockBitmap

/-- The extents with a free block that starts at an offset. -/
def addFree (start : ℕ) : List (ℕ × ℕ) → Exec (List (ℕ × ℕ))
  | [] => return [(start, v.blockSize)]
  | (first, len) :: rest => do
    if (← plus b first len) = start then return (first, ← plus b len v.blockSize) :: rest
    else return (start, v.blockSize) :: (first, len) :: rest

/-- The extents with the next block, which is free. -/
def extendFree (s : FreeScan) : Exec (List (ℕ × ℕ)) := do
  v.addFree b (← plus b v.offset (← times b s.block v.blockSize)) s.out

/-- The scan behind a block whose group's bitmap was asked for. -/
def passBlock (s : FreeScan) : Option (Exec (List UInt8)) → Ctl FreeScan (Exec (List (ℕ × ℕ)))
  | none => .done (.ok s.out.reverse)
  | some (.error e) => .done (.error e)
  | some (.ok bitmap) =>
    if v.freeIn bitmap s.block then
      match v.extendFree b s with
      | .error e => .done (.error e)
      | .ok out => .next ⟨s.block + 1, some (v.groupOf s.block, bitmap), out⟩
    else .next ⟨s.block + 1, some (v.groupOf s.block, bitmap), s.out⟩

def freeStep (s : FreeScan) : Ctl FreeScan (Exec (List (ℕ × ℕ))) :=
  if v.totalBlocks ≤ s.block then .done (.ok s.out.reverse)
  else v.passBlock b s (v.loadBitmap src s (v.groupOf s.block))

theorem freeStep_next {s s' : FreeScan} (h : v.freeStep b src s = .next s') :
    s.block < v.totalBlocks ∧ s'.block = s.block + 1 := by
  unfold freeStep at h
  split at h
  · cases h
  · rename_i hlt
    refine ⟨not_le.mp hlt, ?_⟩
    unfold passBlock at h
    split at h
    · cases h
    · cases h
    · split at h
      · split at h
        · cases h
        · cases h
          rfl
      · cases h
        rfl

def freeLoop : While FreeScan (Exec (List (ℕ × ℕ))) where
  body := v.freeStep b src
  measure s := v.totalBlocks - s.block
  decreases s s' h := by
    obtain ⟨hlt, heq⟩ := v.freeStep_next b src h
    omega

/-- The offsets and lengths of the runs of free blocks. -/
def freeExtents : Exec (List (ℕ × ℕ)) := (v.freeLoop b src).eval ⟨v.firstDataBlock, none, []⟩

/-- The bitmap of a group as it is on the disk, if it can be read. -/
def bitmapOf (group : ℕ) : Option (List UInt8) :=
  match v.groups[group]? with
  | none => none
  | some g => (v.readBlock src g.blockBitmap).toOption

/-- A block that the bitmap of its group shows free. -/
def Free (block : ℕ) : Prop :=
  ∃ bitmap, v.bitmapOf src (v.groupOf block) = some bitmap ∧ v.freeIn bitmap block = true

/-- The offset of a block is a word, and so is the length of every run of free blocks up to it. -/
structure BlockFits (block : ℕ) : Prop where
  offset : v.offset + block * v.blockSize < 2 ^ 64
  run : ∀ first, v.firstDataBlock ≤ first → first ≤ block →
    (∀ k, first ≤ k → k ≤ block → v.Free src k) → (block + 1 - first) * v.blockSize < 2 ^ 64

/-- Every free block fits, as long as the bitmaps before it can be read. -/
def FreeFits (start : ℕ) : Prop :=
  ∀ block, start ≤ block → block < v.totalBlocks →
    (∀ k, start ≤ k → k < block → (v.bitmapOf src (v.groupOf k)).isSome) →
    v.Free src block → v.BlockFits src block

/-- The bitmap at hand is that of its group, and the last extent is the run of free blocks that
ends before the next block, or ends before the last one. -/
structure FreeInv (s : FreeScan) : Prop where
  start : v.firstDataBlock ≤ s.block
  bitmap : ∀ e ∈ s.bitmap, v.bitmapOf src e.1 = some e.2
  run : ∃ f, v.firstDataBlock ≤ f ∧ f ≤ s.block ∧ (∀ k, f ≤ k → k < s.block → v.Free src k) ∧
    (f = v.firstDataBlock ∨ ¬ v.Free src (f - 1)) ∧
    (f < s.block → ∃ rest, s.out = (v.offset + f * v.blockSize, (s.block - f) * v.blockSize) :: rest) ∧
    (f = s.block → ∀ e ∈ s.out.head?, e.1 + e.2 < v.offset + s.block * v.blockSize)

variable {v src}

theorem loadBitmap_eq {s : FreeScan} (h : v.FreeInv src s) (group : ℕ) :
    (v.loadBitmap src s group = none ∧ v.bitmapOf src group = none) ∨
    (v.loadBitmap src s group = some (.error .io) ∧ v.bitmapOf src group = none) ∨
    ∃ bitmap, v.loadBitmap src s group = some (.ok bitmap) ∧ v.bitmapOf src group = some bitmap := by
  have hread (r : Option (Exec (List UInt8)))
      (hr : r = (v.groups[group]?).map fun g => v.readBlock src g.blockBitmap) :
      (r = none ∧ v.bitmapOf src group = none) ∨
      (r = some (.error .io) ∧ v.bitmapOf src group = none) ∨
      ∃ bitmap, r = some (.ok bitmap) ∧ v.bitmapOf src group = some bitmap := by
    cases hgroup : v.groups[group]? with
    | none =>
      rw [hgroup] at hr
      exact .inl ⟨hr, by rw [bitmapOf, hgroup]⟩
    | some g =>
      rw [hgroup, Option.map_some] at hr
      have hbitmap : v.bitmapOf src group = (v.readBlock src g.blockBitmap).toOption := by
        rw [bitmapOf, hgroup]
      cases hblock : v.readBlock src g.blockBitmap with
      | error e =>
        rw [hblock] at hr hbitmap
        rw [Source.readAt_error hblock] at hr
        exact .inr (.inl ⟨hr, hbitmap⟩)
      | ok bitmap =>
        rw [hblock] at hr hbitmap
        exact .inr (.inr ⟨bitmap, hr, hbitmap⟩)
  unfold loadBitmap
  cases hat : s.bitmap with
  | none => exact hread _ rfl
  | some e =>
    obtain ⟨g, bitmap⟩ := e
    dsimp only
    split_ifs with hg
    · exact .inr (.inr ⟨bitmap, rfl, hg ▸ h.bitmap _ hat⟩)
    · exact hread _ rfl

theorem freeFits_succ {start : ℕ} (hread : (v.bitmapOf src (v.groupOf start)).isSome)
    (hlt : start < v.totalBlocks) :
    v.FreeFits src start ↔ (v.Free src start → v.BlockFits src start) ∧ v.FreeFits src (start + 1) := by
  constructor
  · intro h
    refine ⟨h start le_rfl hlt fun k hk hk' => by omega, fun block hle hblock hbefore => ?_⟩
    refine h block (by omega) hblock fun k hk hk' => ?_
    by_cases heq : k = start
    · rwa [heq]
    · exact hbefore k (by omega) hk'
  · intro ⟨hfirst, hrest⟩ block hle hblock hbefore
    by_cases heq : block = start
    · rw [heq]
      exact hfirst
    · exact hrest block (by omega) hblock fun k hk hk' => hbefore k (by omega) hk'

theorem times_debug {x y : ℕ} (h : 2 ^ 64 ≤ x * y) : times .debug x y = .error .overflow := by
  rw [times, if_neg (not_lt.mpr h)]

/-- Only the longest run that a block ends counts. -/
theorem blockFits_iff {f block : ℕ} (hf : v.firstDataBlock ≤ f) (hle : f ≤ block)
    (hrun : ∀ k, f ≤ k → k ≤ block → v.Free src k) (hmax : f = v.firstDataBlock ∨ ¬ v.Free src (f - 1)) :
    v.BlockFits src block ↔
      v.offset + block * v.blockSize < 2 ^ 64 ∧ (block + 1 - f) * v.blockSize < 2 ^ 64 := by
  constructor
  · exact fun h => ⟨h.offset, h.run f hf hle hrun⟩
  · intro ⟨hoffset, hlen⟩
    refine ⟨hoffset, fun first hfirst hle' hall => ?_⟩
    have hge : f ≤ first := by
      by_contra hlt
      rcases hmax with heq | hnot
      · omega
      · exact hnot (hall (f - 1) (by omega) (by omega))
    exact (Nat.mul_le_mul_right v.blockSize (show block + 1 - first ≤ block + 1 - f by omega)).trans_lt hlen

/-- A free block goes on with the last extent or begins one, or a sum overflows. -/
theorem addFree_eq {s : FreeScan} (h : v.FreeInv src s) (hfree : v.Free src s.block) :
    (v.BlockFits src s.block → ∃ out,
      v.extendFree .debug s = .ok out ∧
        ∀ bitmap, v.bitmapOf src (v.groupOf s.block) = some bitmap →
          v.FreeInv src ⟨s.block + 1, some (v.groupOf s.block, bitmap), out⟩) ∧
    (¬ v.BlockFits src s.block → v.extendFree .debug s = .error .overflow) := by
  obtain ⟨f, hf, hle, hrun, hmax, hlong, hshort⟩ := h.run
  have hall : ∀ k, f ≤ k → k ≤ s.block → v.Free src k := by
    intro k hk hk'
    by_cases heq : k = s.block
    · rwa [heq]
    · exact hrun k hk (by omega)
  have hfits := blockFits_iff hf hle hall hmax
  have hinv (out : List (ℕ × ℕ)) (hout : ∃ rest,
      out = (v.offset + f * v.blockSize, (s.block + 1 - f) * v.blockSize) :: rest) :
      ∀ bitmap, v.bitmapOf src (v.groupOf s.block) = some bitmap →
        v.FreeInv src ⟨s.block + 1, some (v.groupOf s.block, bitmap), out⟩ := by
    intro bitmap hbitmap
    refine ⟨h.start.trans (Nat.le_succ _), ?_, f, hf, by dsimp only; omega, fun k hk hk' => ?_, hmax, fun _ => hout, ?_⟩
    · intro e he
      cases he
      exact hbitmap
    · exact hall k hk (Nat.le_of_lt_succ hk')
    · intro heq
      dsimp only at heq
      omega
  by_cases hoff : v.offset + s.block * v.blockSize < 2 ^ 64
  · have hextend : v.extendFree .debug s = v.addFree .debug (v.offset + s.block * v.blockSize) s.out := by
      rw [extendFree, times_eq (by omega)]
      change (plus .debug v.offset (s.block * v.blockSize) >>= _) = _
      rw [plus_eq hoff]
      rfl
    rw [hextend, hfits]
    by_cases hend : f = s.block
    · have hone : (s.block + 1 - f) * v.blockSize = v.blockSize := by
        rw [hend, Nat.add_sub_cancel_left, Nat.one_mul]
      have hsize := v.block_le
      refine ⟨fun _ => ⟨(v.offset + s.block * v.blockSize, v.blockSize) :: s.out, ?_, ?_⟩, fun hnot => ?_⟩
      · cases hout : s.out with
        | nil => rfl
        | cons e rest =>
          have hlt := hshort hend e (by rw [hout]; rfl)
          rw [addFree, plus_eq (by omega)]
          exact if_neg (by omega)
      · exact hinv _ ⟨s.out, by rw [hone, hend]⟩
      · exact absurd ⟨hoff, by omega⟩ hnot
    · obtain ⟨rest, hout⟩ := hlong (by omega)
      have hstart : v.offset + f * v.blockSize + (s.block - f) * v.blockSize =
          v.offset + s.block * v.blockSize := by
        rw [Nat.add_assoc, ← Nat.add_mul, Nat.add_sub_cancel' hle]
      have hlen : (s.block - f) * v.blockSize + v.blockSize = (s.block + 1 - f) * v.blockSize := by
        rw [← Nat.succ_mul, Nat.succ_eq_add_one, ← Nat.sub_add_comm hle]
      have hadd : v.addFree .debug (v.offset + s.block * v.blockSize) s.out = (do
          return (v.offset + f * v.blockSize, ← plus .debug ((s.block - f) * v.blockSize) v.blockSize) :: rest) := by
        rw [hout, addFree, plus_eq (by omega), hstart]
        exact if_pos rfl
      rw [hadd]
      constructor
      · intro hboth
        rw [plus_eq (by omega), hlen]
        exact ⟨_, rfl, hinv _ ⟨rest, rfl⟩⟩
      · intro hnot
        rw [plus_debug (by omega)]
        rfl
  · refine ⟨fun hyes => absurd (hfits.mp hyes).1 hoff, fun _ => ?_⟩
    rw [extendFree]
    by_cases hmul : s.block * v.blockSize < 2 ^ 64
    · rw [times_eq hmul]
      change (plus .debug v.offset (s.block * v.blockSize) >>= _) = _
      rw [plus_debug (not_lt.mp hoff)]
      rfl
    · rw [times_debug (not_lt.mp hmul)]
      rfl

/-- A block that is not free is passed over. -/
theorem FreeInv.pass {s : FreeScan} (h : v.FreeInv src s) (hused : ¬ v.Free src s.block) {bitmap : List UInt8}
    (hbitmap : v.bitmapOf src (v.groupOf s.block) = some bitmap) :
    v.FreeInv src ⟨s.block + 1, some (v.groupOf s.block, bitmap), s.out⟩ := by
  obtain ⟨f, hf, hle, hrun, hmax, hlong, hshort⟩ := h.run
  refine ⟨h.start.trans (Nat.le_succ _), ?_, s.block + 1, h.start.trans (Nat.le_succ _), le_rfl,
    fun k hk hk' => absurd hk (not_le.mpr hk'), .inr hused, fun hlt => absurd hlt (lt_irrefl _), fun _ e he => ?_⟩
  · intro e he
    cases he
    exact hbitmap
  · have hpos := v.block_pos
    have hnext : (s.block + 1) * v.blockSize = s.block * v.blockSize + v.blockSize := Nat.succ_mul ..
    dsimp only at he ⊢
    rw [hnext]
    by_cases hend : f = s.block
    · have hlt := hshort hend e he
      omega
    · obtain ⟨rest, hout⟩ := hlong (by omega)
      rw [hout] at he
      cases he
      dsimp only
      rw [Nat.add_assoc, ← Nat.add_mul, Nat.add_sub_cancel' hle]
      omega

/-- The free blocks are listed if and only if they fit. -/
theorem safe_freeLoop_iff (s : FreeScan) (hs : v.FreeInv src s) :
    Safe (fun _ => True) ((v.freeLoop .debug src).eval s) ↔ v.FreeFits src s.block := by
  induction s using (v.freeLoop .debug src).induct with
  | step s ih =>
    have hdone {r : Exec (List (ℕ × ℕ))} (hstep : v.freeStep .debug src s = .done r) :
        (v.freeLoop .debug src).eval s = r := (v.freeLoop .debug src).eval_done hstep
    by_cases hend : v.totalBlocks ≤ s.block
    · have hstep : v.freeStep .debug src s = .done (.ok s.out.reverse) := if_pos hend
      rw [hdone hstep]
      exact iff_of_true trivial fun block hle hlt => by omega
    · have hlt := not_le.mp hend
      have hstep : v.freeStep .debug src s =
          v.passBlock .debug s (v.loadBitmap src s (v.groupOf s.block)) := if_neg hend
      have hunread : v.bitmapOf src (v.groupOf s.block) = none → v.FreeFits src s.block := by
        intro hnone block hle _ hbefore hfree
        by_cases heq : block = s.block
        · obtain ⟨bitmap, hbitmap, -⟩ := hfree
          rw [heq, hnone] at hbitmap
          cases hbitmap
        · have hsome := hbefore s.block le_rfl (by omega)
          rw [hnone] at hsome
          cases hsome
      obtain ⟨hload, hnone⟩ | ⟨hload, hnone⟩ | ⟨bitmap, hload, hbitmap⟩ := loadBitmap_eq hs (v.groupOf s.block)
      all_goals rw [hload] at hstep
      · rw [hdone hstep]
        exact iff_of_true trivial (hunread hnone)
      · rw [hdone hstep]
        exact iff_of_true rfl (hunread hnone)
      · rw [freeFits_succ (by rw [hbitmap]; rfl) hlt]
        by_cases hfree : v.freeIn bitmap s.block = true
        · obtain ⟨hyes, hno⟩ := addFree_eq hs ⟨bitmap, hbitmap, hfree⟩
          rw [passBlock, if_pos hfree] at hstep
          by_cases hfits : v.BlockFits src s.block
          · obtain ⟨out, hout, hinv⟩ := hyes hfits
            rw [hout] at hstep
            rw [(v.freeLoop .debug src).eval_next hstep, ih _ hstep (hinv bitmap hbitmap)]
            exact (and_iff_right fun _ => hfits).symm
          · rw [hno hfits] at hstep
            rw [hdone hstep]
            refine iff_of_false (fun h => by cases h) fun h => hfits (h.1 ⟨bitmap, hbitmap, hfree⟩)
        · have hused : ¬ v.Free src s.block := by
            intro ⟨bitmap', hbitmap', hfree'⟩
            rw [hbitmap] at hbitmap'
            cases hbitmap'
            exact hfree hfree'
          rw [passBlock, if_neg hfree] at hstep
          rw [(v.freeLoop .debug src).eval_next hstep, ih _ hstep (hs.pass hused hbitmap)]
          exact (and_iff_right fun h => absurd h hused).symm

/-- The free blocks of a volume are listed if and only if they fit. -/
theorem safe_freeExtents_iff : Safe (fun _ => True) (v.freeExtents .debug src) ↔ v.FreeFits src v.firstDataBlock := by
  apply safe_freeLoop_iff
  refine ⟨le_rfl, by simp, v.firstDataBlock, le_rfl, le_rfl, fun k hk hk' => absurd hk (not_le.mpr hk'), .inl rfl,
    fun h => absurd h (lt_irrefl _), fun _ => by simp⟩

/-- Nothing stops the undelete of a volume, nor the list of its free blocks, if and only if the
journal's file and the directories that are met are no larger than the volume or the source,
and every free block fits. -/
theorem undelete_unstopped_iff (windows : Bool) (opts : RecoverOptions) :
    (v.Unstopped src windows opts ∧ Safe (fun _ => True) (v.freeExtents .debug src)) ↔
      v.JournalFits src ∧
      (∀ journal, tolerated [] (v.buildJournalIndex src) = .ok journal →
        ∀ s, v.Reached src journal windows s → v.NextFits src journal s) ∧
      v.FreeFits src v.firstDataBlock := by
  rw [v.unstopped_iff src windows opts, safe_freeExtents_iff, and_assoc]

end Volume

/-- A volume whose journal's inode claims a file of 2^40 bytes. -/
def hugeJournalSource : Source where
  data := [blockOf [], superBlock, blockOf [(0x08, [3])], blockOf [(0x28, [1]), (0x6C, [0x00, 0x01])]].flatten
  size_lt := by decide +kernel

theorem undelete_hugeJournal : Volume.parse .debug hugeJournalSource 0 = .ok (.ok smallVolume) ∧
    ∀ windows opts fuel, smallVolume.recoverDeleted hugeJournalSource windows opts fuel = some (.error .capacity) := by
  refine ⟨by decide +kernel, fun windows opts fuel => ?_⟩
  have hindex : tolerated [] (smallVolume.buildJournalIndex hugeJournalSource) = .error .capacity := by
    decide +kernel
  rw [Volume.recoverDeleted, hindex]

end Unearth.Ext
