import Unearth.ExtFree
import Unearth.FreeExtents
import Unearth.HfsForks
import Unearth.NtfsFileData

/-!
# The free blocks of NTFS, ext and HFS+ volumes

The three bitmaps are laid out in three ways: as the data of a record, as a block for each group,
and as a file of up to eight extents whose bits are counted from the top. Their free blocks are
joined by the same scan.
-/

namespace Unearth
open Bytes Word Spans Gaps

/-- Where a cluster or block of some size begins behind an offset. -/
def unitOffset (b : Build) (base size c : ℕ) : Exec ℕ := do plus b base (← times b c size)

/-- A bit that is there and clear in a bitmap, of which is given what bytes it has at each place. -/
def ClearBit (has : ℕ → UInt8 → Prop) (place bit : ℕ) : Prop := ∃ x, has place x ∧ x.toNat.testBit bit = false

/-- The bit of a mask. Past the end of the bitmap it counts as set. -/
def maskSet (bitmap : List UInt8) (place mask : ℕ) : Bool :=
  ((bitmap[place]?).map fun x => decide (x.toNat &&& mask ≠ 0)).getD true

theorem maskSet_false_iff {bitmap : List UInt8} {place bit : ℕ} :
    maskSet bitmap place (2 ^ bit) = false ↔ ClearBit (fun i x => bitmap[i]? = some x) place bit := by
  unfold maskSet ClearBit
  cases hbyte : bitmap[place]? with
  | none => simp [hbyte]
  | some x =>
    cases hbit : x.toNat.testBit bit with
    | false => simp [Nat.and_two_pow, hbyte, hbit]
    | true => simp [Nat.and_two_pow, hbyte, hbit]

section Placed

variable {b : Build} {size : ℕ} {free : ℕ → Option Bool} {offset : ℕ → Exec ℕ} {start : ℕ → ℕ} {clusters : List ℕ}

/-- Only the free clusters count. -/
theorem scanClusters_filter (hmissing : clusters.Pairwise fun c d => free c = none → free d = none) (out : List Span) :
    scanClusters b size free offset clusters out =
      scanClusters b size free offset (clusters.filter fun c => free c = some true) out := by
  induction clusters generalizing out with
  | nil => rfl
  | cons c rest ih =>
    obtain ⟨hbefore, hrest⟩ := List.pairwise_cons.mp hmissing
    cases hfree : free c with
    | none =>
      have hnone : rest.filter (fun c => free c = some true) = [] := by
        rw [List.filter_eq_nil_iff]
        intro d hd
        simp [hbefore d hd hfree]
      rw [List.filter_cons_of_neg (by simp [hfree]), hnone, scanClusters, scanClusters, hfree]
    | some isFree =>
      cases isFree with
      | false =>
        rw [List.filter_cons_of_neg (by simp [hfree]), ← ih hrest out, scanClusters, hfree]
      | true =>
        rw [List.filter_cons_of_pos (by simp [hfree]), scanClusters, scanClusters, hfree]
        dsimp only
        refine bind_congr fun s => bind_congr fun out' => ?_
        exact ih hrest out'

/-- The scan gives exactly the free clusters when these end below the last offset. -/
theorem exact_of_placed (b : Build) (size : ℕ) (free : ℕ → Option Bool) (offset : ℕ → Exec ℕ) {start : ℕ → ℕ}
    (hplaced : ∀ c ∈ clusters, free c = some true →
      offset c = .ok (start c) ∧ start c + size < 2 ^ 64)
    (hordered : clusters.Pairwise fun c d => start c + size ≤ start d)
    (hmissing : clusters.Pairwise fun c d => free c = none → free d = none) :
    ∃ extents, scanClusters b size free offset clusters [] = .ok extents ∧
      ExactExtents (fun c => c ∈ clusters ∧ free c = some true) start size extents := by
  have hmem (c : ℕ) : c ∈ clusters.filter (fun c => free c = some true) ↔ c ∈ clusters ∧ free c = some true := by simp
  obtain ⟨extents, hscan, hexact⟩ := exact_of_scan b free offset start size
    (clusters.filter fun c => free c = some true) (Nat.zero_le (2 ^ 64 - 1)) (by decide)
    (fun c hc => by
      obtain ⟨hc, hfree⟩ := (hmem c).mp hc
      obtain ⟨hoffset, hend⟩ := hplaced c hc hfree
      exact ⟨hoffset, Nat.zero_le _, Nat.le_pred_of_lt hend⟩)
    (hordered.filter _) (hmissing.filter _)
  have hsame : (fun c => c ∈ clusters.filter (fun c => free c = some true) ∧ free c = some true) =
      fun c => c ∈ clusters ∧ free c = some true := by
    funext c
    rw [hmem]
    exact propext ⟨fun h => h.1, fun h => ⟨h, h.2⟩⟩
  exact ⟨extents, (scanClusters_filter hmissing []).trans hscan, hsame ▸ hexact⟩

/-- Blocks of a size that lie one behind the other from some offset on. -/
theorem ordered_blocks (base size : ℕ) {l : List ℕ} (h : l.Pairwise (· < ·)) :
    l.Pairwise fun c d => base + c * size + size ≤ base + d * size := by
  refine h.imp fun {c d} hlt => ?_
  have hmul := Nat.mul_le_mul_right size (Nat.succ_le_of_lt hlt)
  rw [Nat.succ_mul] at hmul
  omega

/-- The offset of a block that ends below the last offset is computed as it is. -/
theorem offset_eq {base c : ℕ} (h : base + c * size + size < 2 ^ 64) :
    unitOffset b base size c = .ok (base + c * size) := by
  rw [unitOffset, times_eq (by omega)]
  exact plus_eq (by omega)

end Placed

namespace Ntfs

def BITMAP_RECORD : ℕ := 6
def MAX_BITMAP : ℕ := 256 * 1024 * 1024

namespace Volume

variable (b : Build) (v : Volume) (src : Source)

/-- The data of the record of the bitmap. -/
def bitmapData : Exec (Option DataAttr) := do
  match ← readRecord b src v BITMAP_RECORD with
  | none => return none
  | some rec => return (← parseRecord b rec).bind ParsedRecord.data

/-- The bitmap, as it is in the record, or up to a limit of what its runs hold. -/
def readBitmap (limit : ℕ) : DataKind → Exec (List UInt8)
  | .resident bytes => return bytes
  | .nonResident runs => readRunsRange b src v.offset v.clusterSize runs 0 limit

def freeExtents : Exec (List Span) := do
  match ← v.bitmapData b src with
  | none => return []
  | some data =>
    let bitmap ← v.readBitmap b src (min data.size MAX_BITMAP) data.kind
    scanClusters b v.clusterSize (fun c => some !maskSet bitmap (c / 8) (2 ^ (c % 8)))
      (unitOffset b v.offset v.clusterSize) (List.range (v.volumeSize / v.clusterSize)) []

/-- A byte of the bitmap, as it is in the record, or up to a limit in the runs before the first
one whose cluster is none. -/
def BitmapByte (limit : ℕ) (kind : DataKind) (i : ℕ) (x : UInt8) : Prop :=
  match kind with
  | .resident bytes => bytes[i]? = some x
  | .nonResident runs => i < limit ∧ (∀ k ≤ i, ¬ Negative v.clusterSize runs k) ∧
      logicalByte src v.offset v.clusterSize runs i = some x

/-- The bitmap is read without an error, and what is missing of its runs comes behind what is there. -/
structure BitmapRead (limit : ℕ) (kind : DataKind) : Prop where
  read : ∃ bitmap, v.readBitmap b src limit kind = .ok bitmap
  noGap : ∀ runs, kind = .nonResident runs → NoGap src v.offset v.clusterSize runs 0 limit
  words : ∀ runs, kind = .nonResident runs → b = .debug ∨ ∀ r ∈ runs, r.2 * v.clusterSize < 2 ^ 64

/-- A cluster of the volume that the bitmap shows free. -/
def FreeCluster (limit : ℕ) (kind : DataKind) (c : ℕ) : Prop :=
  c < v.volumeSize / v.clusterSize ∧ ClearBit (v.BitmapByte src limit kind) (c / 8) (c % 8)

variable {b v src}

theorem readBitmap_byte {limit : ℕ} {kind : DataKind} (h : v.BitmapRead b src limit kind) :
    ∃ bitmap, v.readBitmap b src limit kind = .ok bitmap ∧
      ∀ i x, bitmap[i]? = some x ↔ v.BitmapByte src limit kind i x := by
  obtain ⟨bitmap, hread⟩ := h.read
  refine ⟨bitmap, hread, fun i x => ?_⟩
  cases kind with
  | resident bytes =>
    cases hread
    exact Iff.rfl
  | nonResident runs =>
    have hstream := stream_streamed src v.offset v.clusterSize runs 0 limit
    unfold readBitmap readRunsRange at hread
    split_ifs at hread
    obtain rfl : bitmap = (stream src v.offset v.clusterSize runs 0 limit).reduceOption :=
      readRuns_stream (h.words runs rfl) hread
    rw [(show Gapless _ from noGap_iff.mp (h.noGap runs rfl)).getElem?_reduceOption]
    generalize stream src v.offset v.clusterSize runs 0 limit = bytes at hstream
    by_cases hi : i < bytes.length
    · obtain ⟨hlimit, -⟩ := hstream.short i hi
      have hneg (k : ℕ) (hk : k ≤ i) : ¬ Negative v.clusterSize runs k := by
        have hshort := (hstream.short k (by omega)).2
        rwa [Nat.zero_add] at hshort
      rw [hstream.get i hi, Nat.zero_add]
      exact ⟨fun hbyte => ⟨hlimit, hneg, hbyte⟩, fun hbyte => hbyte.2.2⟩
    · rw [List.getElem?_eq_none (not_lt.mp hi)]
      refine iff_of_false (fun h => by cases h) fun ⟨hlimit, hneg, hbyte⟩ => ?_
      rcases hstream.ended (by omega) with hend | hend
      · rw [Nat.zero_add] at hend
        exact hneg _ (not_lt.mp hi) hend
      · rw [logicalByte, hend i (by omega)] at hbyte
        cases hbyte

/-- The extents are exact for the part of the bitmap that is read. -/
theorem freeExtents_exact {data : DataAttr} (hdata : v.bitmapData b src = .ok (some data))
    (hread : v.BitmapRead b src (min data.size MAX_BITMAP) data.kind)
    (hends : ∀ c, v.FreeCluster src (min data.size MAX_BITMAP) data.kind c →
      v.offset + c * v.clusterSize + v.clusterSize < 2 ^ 64) :
    ∃ extents, v.freeExtents b src = .ok extents ∧
      ExactExtents (v.FreeCluster src (min data.size MAX_BITMAP) data.kind) (fun c => v.offset + c * v.clusterSize)
        v.clusterSize extents := by
  obtain ⟨bitmap, hbitmap, hbytes⟩ := readBitmap_byte hread
  have hfree (c : ℕ) : (c ∈ List.range (v.volumeSize / v.clusterSize) ∧
      some (!maskSet bitmap (c / 8) (2 ^ (c % 8))) = some true) ↔
        v.FreeCluster src (min data.size MAX_BITMAP) data.kind c := by
    have hclear : maskSet bitmap (c / 8) (2 ^ (c % 8)) = false ↔
        ClearBit (v.BitmapByte src (min data.size MAX_BITMAP) data.kind) (c / 8) (c % 8) := by
      rw [maskSet_false_iff]
      exact exists_congr fun x => and_congr_left fun _ => hbytes _ x
    rw [List.mem_range, FreeCluster, ← hclear]
    simp
  obtain ⟨extents, hscan, hexact⟩ := exact_of_placed b v.clusterSize
    (fun c => some !maskSet bitmap (c / 8) (2 ^ (c % 8))) (unitOffset b v.offset v.clusterSize)
    (fun c hc hset => ⟨offset_eq (hends c ((hfree c).mp ⟨hc, hset⟩)), hends c ((hfree c).mp ⟨hc, hset⟩)⟩)
    (ordered_blocks v.offset v.clusterSize List.pairwise_lt_range)
    (List.pairwise_lt_range.imp fun _ hnone => by cases hnone)
  refine ⟨extents, ?_, ?_⟩
  · unfold freeExtents
    rw [hdata, exec_ok_bind]
    dsimp only
    rw [hbitmap, exec_ok_bind]
    exact hscan
  · rwa [funext fun c => propext (hfree c)] at hexact

end Volume

end Ntfs

namespace Ext

def pairOf (s : Span) : ℕ × ℕ := (s.offset, s.len)

namespace Volume

variable (b : Build) (v : Volume) (src : Source)

/-- A byte of the block that holds the bitmap of a group. -/
def BitmapByte (group i : ℕ) (x : UInt8) : Prop :=
  i < v.blockSize ∧ ∃ g, v.groups[group]? = some g ∧ src.data[v.offset + g.blockBitmap * v.blockSize + i]? = some x

/-- The bitmaps of the groups with a descriptor, as far as the volume goes, are read without an error. -/
def BitmapsRead : Prop := ∀ c, v.firstDataBlock ≤ c → c < v.totalBlocks →
  ∀ g, v.groups[v.groupOf c]? = some g → ∃ bitmap, v.readBlock src g.blockBitmap = .ok bitmap

/-- A block of the volume that the bitmap of its group shows free. -/
def FreeBlock (c : ℕ) : Prop :=
  (v.firstDataBlock ≤ c ∧ c < v.totalBlocks) ∧ ClearBit (v.BitmapByte src (v.groupOf c))
    ((c - v.firstDataBlock) % v.blocksPerGroup / 8) ((c - v.firstDataBlock) % v.blocksPerGroup % 8)

/-- What the bitmap of its group says about a block, if there is one. -/
def freeAt (c : ℕ) : Option Bool := (v.bitmapOf src (v.groupOf c)).map fun bitmap => v.freeIn bitmap c

variable {b v src}

theorem addFree_pairs (start : ℕ) (out : List Span) :
    v.addFree b start (out.map pairOf) = List.map pairOf <$> Unearth.addExtent b v.blockSize start out := by
  cases out with
  | nil => rfl
  | cons last rest =>
    rw [List.map_cons, pairOf, addFree, Unearth.addExtent]
    cases plus b last.offset last.len with
    | error e => rfl
    | ok stop =>
      rw [exec_ok_bind, exec_ok_bind]
      by_cases htouch : stop = start
      · rw [if_pos htouch, if_pos htouch]
        cases plus b last.len v.blockSize <;> rfl
      · rw [if_neg htouch, if_neg htouch]
        rfl

theorem extendFree_pairs (c : ℕ) (bm : Option (ℕ × List UInt8)) (out : List Span) :
    v.extendFree b ⟨c, bm, out.map pairOf⟩ = List.map pairOf <$> (do
      Unearth.addExtent b v.blockSize (← unitOffset b v.offset v.blockSize c) out) := by
  unfold extendFree unitOffset
  cases times b c v.blockSize with
  | error e => rfl
  | ok bytes =>
    rw [exec_ok_bind, exec_ok_bind]
    cases plus b v.offset bytes with
    | error e => rfl
    | ok start => exact addFree_pairs start out

/-- The bitmap at hand is that of its group, and any other one can be read. -/
theorem loadBitmap_read {s : FreeScan} {group : ℕ} (hs : ∀ e ∈ s.bitmap, v.bitmapOf src e.1 = some e.2)
    (hread : ∀ g, v.groups[group]? = some g → ∃ bitmap, v.readBlock src g.blockBitmap = .ok bitmap) :
    v.loadBitmap src s group = (v.bitmapOf src group).map Except.ok := by
  have hgroup : (v.groups[group]?).map (fun g => v.readBlock src g.blockBitmap) =
      (v.bitmapOf src group).map Except.ok := by
    unfold bitmapOf
    cases hg : v.groups[group]? with
    | none => rfl
    | some g =>
      obtain ⟨bitmap, hbitmap⟩ := hread g hg
      dsimp only [Option.map_some]
      rw [hbitmap]
      rfl
  unfold loadBitmap
  cases hat : s.bitmap with
  | none => exact hgroup
  | some e =>
    obtain ⟨g, bitmap⟩ := e
    dsimp only
    split_ifs with hg
    · rw [← hg, hs (g, bitmap) hat]
      rfl
    · exact hgroup

/-- The blocks are gone through as by the scan of the clusters. -/
theorem freeLoop_scan {n c : ℕ} (hn : v.totalBlocks - c = n) (hfirst : v.firstDataBlock ≤ c)
    (hread : v.BitmapsRead src) {bm : Option (ℕ × List UInt8)} (hbm : ∀ e ∈ bm, v.bitmapOf src e.1 = some e.2)
    (out : List Span) :
    (v.freeLoop b src).eval ⟨c, bm, out.map pairOf⟩ = List.map pairOf <$>
      scanClusters b v.blockSize (v.freeAt src) (unitOffset b v.offset v.blockSize) (List.range' c n) out := by
  have hdone {s : FreeScan} {r : Exec (List (ℕ × ℕ))} (hstep : v.freeStep b src s = .done r) :
      (v.freeLoop b src).eval s = r := (v.freeLoop b src).eval_done hstep
  induction n generalizing c bm out with
  | zero =>
    rw [hdone (if_pos (by dsimp only; omega))]
    exact congrArg Except.ok List.map_reverse.symm
  | succ n ih =>
    have hlt : c < v.totalBlocks := by omega
    have hstep : v.freeStep b src ⟨c, bm, out.map pairOf⟩ =
        v.passBlock b ⟨c, bm, out.map pairOf⟩ ((v.bitmapOf src (v.groupOf c)).map Except.ok) := by
      rw [← loadBitmap_read (s := ⟨c, bm, out.map pairOf⟩) hbm (hread c hfirst hlt)]
      exact if_neg (not_le.mpr hlt)
    rw [List.range'_succ, scanClusters, freeAt]
    cases hbitmap : v.bitmapOf src (v.groupOf c) with
    | none =>
      rw [hbitmap] at hstep
      rw [hdone hstep]
      exact congrArg Except.ok List.map_reverse.symm
    | some bitmap =>
      have hnext : ∀ e ∈ some (v.groupOf c, bitmap), v.bitmapOf src e.1 = some e.2 := by
        intro e he
        cases he
        exact hbitmap
      rw [hbitmap, Option.map_some, passBlock] at hstep
      rw [Option.map_some]
      cases hfree : v.freeIn bitmap c with
      | false =>
        rw [if_neg (by simp [hfree])] at hstep
        rw [(v.freeLoop b src).eval_next hstep]
        exact ih (c := c + 1) (by omega) (by omega) hnext out
      | true =>
        rw [if_pos hfree, extendFree_pairs] at hstep
        dsimp only
        cases hoff : unitOffset b v.offset v.blockSize c with
        | error e =>
          rw [hoff] at hstep
          exact hdone hstep
        | ok start =>
          rw [hoff, exec_ok_bind] at hstep
          rw [exec_ok_bind]
          cases hadd : Unearth.addExtent b v.blockSize start out with
          | error e =>
            rw [hadd] at hstep
            exact hdone hstep
          | ok out' =>
            rw [hadd] at hstep
            rw [exec_ok_bind, (v.freeLoop b src).eval_next hstep]
            exact ih (c := c + 1) (by omega) (by omega) hnext out'

/-- A block that is read is on the disk at its place. -/
theorem readBlock_place {block : ℕ} {bytes : List UInt8} (h : v.readBlock src block = .ok bytes) :
    bytes = window src.data (v.offset + block * v.blockSize) v.blockSize := by
  have hplace : satAdd v.offset (satMul block v.blockSize) = v.offset + block * v.blockSize := by
    have hlt : satAdd v.offset (satMul block v.blockSize) < 2 ^ 63 := by
      have hpos := v.block_pos
      by_contra hlarge
      rw [readBlock, Source.readAt, if_pos ⟨by omega, .inl (not_lt.mp hlarge)⟩] at h
      cases h
    simp only [satAdd, satMul] at hlt ⊢
    omega
  rw [Source.readAt_ok h, hplace]

theorem freeAt_iff (hread : v.BitmapsRead src) {c : ℕ} (hfirst : v.firstDataBlock ≤ c) (hlt : c < v.totalBlocks) :
    v.freeAt src c = some true ↔ ClearBit (v.BitmapByte src (v.groupOf c))
      ((c - v.firstDataBlock) % v.blocksPerGroup / 8) ((c - v.firstDataBlock) % v.blocksPerGroup % 8) := by
  unfold freeAt bitmapOf ClearBit BitmapByte
  cases hg : v.groups[v.groupOf c]? with
  | none => simp
  | some g =>
    obtain ⟨bitmap, hbitmap⟩ := hread c hfirst hlt g hg
    dsimp only
    rw [hbitmap]
    change some (v.freeIn bitmap c) = some true ↔ _
    have hbyte (i : ℕ) : bitmap[i]? =
        if i < v.blockSize then src.data[v.offset + g.blockBitmap * v.blockSize + i]? else none := by
      rw [readBlock_place hbitmap, window, List.getElem?_take, List.getElem?_drop]
    unfold freeIn
    dsimp only
    rw [hbyte]
    generalize (c - v.firstDataBlock) % v.blocksPerGroup = bit
    by_cases hi : bit / 8 < v.blockSize
    · rw [if_pos hi]
      cases hplace : src.data[v.offset + g.blockBitmap * v.blockSize + bit / 8]? with
      | none => simp [hplace]
      | some x => simp [hplace, hi]
    · rw [if_neg hi]
      simp [hi]

/-- The extents are exact for the bitmaps of the groups. -/
theorem freeExtents_exact (hread : v.BitmapsRead src)
    (hends : ∀ c, v.FreeBlock src c → v.offset + c * v.blockSize + v.blockSize < 2 ^ 64) :
    ∃ extents, v.freeExtents b src = .ok (extents.map pairOf) ∧
      ExactExtents (v.FreeBlock src) (fun c => v.offset + c * v.blockSize) v.blockSize extents := by
  have hmem (c : ℕ) : c ∈ List.range' v.firstDataBlock (v.totalBlocks - v.firstDataBlock) ↔
      v.firstDataBlock ≤ c ∧ c < v.totalBlocks := by
    rw [List.mem_range'_1]
    omega
  have hfree (c : ℕ) : (c ∈ List.range' v.firstDataBlock (v.totalBlocks - v.firstDataBlock) ∧
      v.freeAt src c = some true) ↔ v.FreeBlock src c := by
    rw [hmem, FreeBlock]
    exact and_congr_right fun h => freeAt_iff hread h.1 h.2
  have hascending : (List.range' v.firstDataBlock (v.totalBlocks - v.firstDataBlock)).Pairwise (· < ·) :=
    List.pairwise_lt_range'
  -- No group behind one without a descriptor has one.
  have hmissing {c d : ℕ} (hc : v.firstDataBlock ≤ c ∧ c < v.totalBlocks) (hlt : c < d)
      (hnone : v.freeAt src c = none) : v.freeAt src d = none := by
    unfold freeAt bitmapOf at hnone ⊢
    have hgroup : v.groups[v.groupOf c]? = none := by
      cases hg : v.groups[v.groupOf c]? with
      | none => rfl
      | some g =>
        obtain ⟨bitmap, hbitmap⟩ := hread c hc.1 hc.2 g hg
        rw [hg] at hnone
        dsimp only at hnone
        rw [hbitmap] at hnone
        cases hnone
    have hle : v.groupOf c ≤ v.groupOf d := Nat.div_le_div_right (by omega)
    rw [List.getElem?_eq_none ((List.getElem?_eq_none_iff.mp hgroup).trans hle)]
    rfl
  obtain ⟨extents, hscan, hexact⟩ := exact_of_placed b v.blockSize (v.freeAt src) (unitOffset b v.offset v.blockSize)
    (fun c hc hset => ⟨offset_eq (hends c ((hfree c).mp ⟨hc, hset⟩)), hends c ((hfree c).mp ⟨hc, hset⟩)⟩)
    (ordered_blocks v.offset v.blockSize hascending)
    (hascending.imp_of_mem fun hc _ hlt hnone => hmissing ((hmem _).mp hc) hlt hnone)
  refine ⟨extents, ?_, ?_⟩
  · unfold freeExtents
    rw [← List.map_nil (f := pairOf), freeLoop_scan rfl le_rfl hread (fun e he => by cases he), hscan]
    rfl
  · rwa [funext fun c => propext (hfree c)] at hexact

end Volume

end Ext

namespace Hfs

def MAX_BITMAP : ℕ := 256 * 1024 * 1024

namespace Volume

variable (b : Build) (v : Volume) (src : Source)

/-- The bitmap, up to a limit. -/
def readBitmap (limit : ℕ) : Exec (List UInt8) := do
  let bytes ← word 64 b ((v.allocationExtents.extents.map fun e => e.2 * v.blockSize).sum)
  let want := min bytes limit
  return (← v.readExtents b src want v.allocationExtents.extents []).take want

def readAllocationBitmap : Exec (List UInt8) := v.readBitmap b src MAX_BITMAP

def freeExtents : Exec (List Span) :=
  if v.allocationExtents.extents = [] then return []
  else do
    let bitmap ← v.readAllocationBitmap b src
    scanClusters b v.blockSize (fun c => some !maskSet bitmap (c / 8) (0x80 >>> (c % 8)))
      (unitOffset b v.offset v.blockSize) (List.range v.totalBlocks) []

/-- The bitmap is read without an error, and what is missing of its extents comes behind what is there. -/
structure BitmapForkRead (limit : ℕ) : Prop where
  read : ∃ bitmap, v.readBitmap b src limit = .ok bitmap
  noGap : ∀ i j, i < j → forkByte v src v.allocationExtents.extents i = none →
    forkByte v src v.allocationExtents.extents j = none

/-- A block of the volume that the bitmap, whose bits are counted from the top of each byte, shows free. -/
def FreeBlock (limit c : ℕ) : Prop :=
  c < v.totalBlocks ∧ ClearBit
    (fun i x => i < limit ∧ forkByte v src v.allocationExtents.extents i = some x) (c / 8) (7 - c % 8)

variable {b v src}

theorem readBitmap_byte {limit : ℕ} (hoffset : v.offset < 2 ^ 63) (h : v.BitmapForkRead b src limit) :
    ∃ bitmap, v.readBitmap b src limit = .ok bitmap ∧
      ∀ i x, bitmap[i]? = some x ↔ i < limit ∧ forkByte v src v.allocationExtents.extents i = some x := by
  obtain ⟨bitmap, hbitmap⟩ := h.read
  refine ⟨bitmap, hbitmap, fun i x => ?_⟩
  have hgap := gapless_forkBytes h.noGap
  have hinside : ∀ e ∈ v.allocationExtents.extents, e.1 + e.2 ≤ v.totalBlocks + 1 :=
    fun e he => (v.allocationExtents.inside e he).2
  obtain ⟨bytes, hbytes, hread⟩ := exec_bind_ok hbitmap
  rw [word_eq (v.extents_lt v.allocationExtents)] at hbytes
  cases hbytes
  obtain ⟨r, hr, hread⟩ := exec_bind_ok hread
  cases hread
  rw [readExtents_gapless hoffset hinside hr hgap, List.nil_append, ← length_forkBytes src, List.getElem?_take,
    hgap.getElem?_reduceOption, getElem?_forkBytes]
  by_cases hlength : i < (forkBytes v src v.allocationExtents.extents).length
  · by_cases hlimit : i < limit
    · rw [if_pos (lt_min hlength hlimit)]
      exact (and_iff_right hlimit).symm
    · rw [if_neg fun hlt => hlimit (lt_min_iff.mp hlt).2]
      exact iff_of_false (fun h => by cases h) fun h => hlimit h.1
  · rw [if_neg fun hlt => hlength (lt_min_iff.mp hlt).1, ← getElem?_forkBytes, List.getElem?_eq_none (not_lt.mp hlength)]
    exact iff_of_false (fun h => by cases h) fun h => by cases h.2

/-- The extents are exact for the part of the bitmap that is read. -/
theorem freeExtents_exact (hoffset : v.offset < 2 ^ 63) (hread : v.BitmapForkRead b src MAX_BITMAP) :
    ∃ extents, v.freeExtents b src = .ok extents ∧
      ExactExtents (v.FreeBlock src MAX_BITMAP) (fun c => v.offset + c * v.blockSize) v.blockSize extents := by
  have hsize := v.bytes_lt
  obtain ⟨bitmap, hbitmap, hbytes⟩ := readBitmap_byte hoffset hread
  have hmask (c : ℕ) : 0x80 >>> (c % 8) = 2 ^ (7 - c % 8) := by
    have hlt := Nat.mod_lt c (show 0 < 8 by decide)
    generalize c % 8 = k at hlt
    interval_cases k <;> rfl
  have hfree (c : ℕ) : (c ∈ List.range v.totalBlocks ∧
      some (!maskSet bitmap (c / 8) (0x80 >>> (c % 8))) = some true) ↔ v.FreeBlock src MAX_BITMAP c := by
    have hclear : maskSet bitmap (c / 8) (2 ^ (7 - c % 8)) = false ↔ ClearBit
        (fun i x => i < MAX_BITMAP ∧ forkByte v src v.allocationExtents.extents i = some x) (c / 8) (7 - c % 8) := by
      rw [maskSet_false_iff]
      exact exists_congr fun x => and_congr_left fun _ => hbytes _ x
    rw [hmask, List.mem_range, FreeBlock, ← hclear]
    simp
  have hends (c : ℕ) (hc : c ∈ List.range v.totalBlocks) : v.offset + c * v.blockSize + v.blockSize < 2 ^ 64 := by
    have hmul := Nat.mul_le_mul_right v.blockSize (Nat.succ_le_of_lt (List.mem_range.mp hc))
    rw [Nat.succ_mul] at hmul
    omega
  obtain ⟨extents, hscan, hexact⟩ := exact_of_placed b v.blockSize
    (fun c => some !maskSet bitmap (c / 8) (0x80 >>> (c % 8))) (unitOffset b v.offset v.blockSize)
    (fun c hc _ => ⟨offset_eq (hends c hc), hends c hc⟩)
    (ordered_blocks v.offset v.blockSize List.pairwise_lt_range)
    (List.pairwise_lt_range.imp fun _ hnone => by cases hnone)
  rw [funext fun c => propext (hfree c)] at hexact
  unfold freeExtents
  by_cases hempty : v.allocationExtents.extents = []
  · have hnone (c : ℕ) : ¬ v.FreeBlock src MAX_BITMAP c := by
      intro hc
      obtain ⟨-, x, ⟨-, hx⟩, -⟩ := hc
      rw [hempty] at hx
      cases hx
    rw [if_pos hempty]
    refine ⟨[], rfl, List.Pairwise.nil, fun s hs => (by cases hs), fun p => ?_⟩
    exact iff_of_false (covers_nil p) fun ⟨c, hc, _⟩ => hnone c hc
  · rw [if_neg hempty]
    refine ⟨extents, ?_, hexact⟩
    rw [readAllocationBitmap, hbitmap, exec_ok_bind]
    exact hscan

end Volume

end Hfs

namespace Ntfs

/-- A record whose data have a size and runs of eight bytes each. -/
def runRecord (size runs : List UInt8) : List UInt8 :=
  magic ++ [48, 0, 0, 0] ++ List.replicate 12 0 ++ [56, 0] ++ List.replicate 34 0 ++
    [0x80, 0, 0, 0, 72, 0, 0, 0, 1] ++ List.replicate 23 0 ++ [64] ++ List.replicate 15 0 ++ size ++
    List.replicate 8 0 ++ runs ++ [0xFF, 0xFF, 0xFF, 0xFF] ++ List.replicate 380 0

/-- A volume of 2^31 + 8 clusters, whose bitmap is a hole of a cluster more than 256 MiB. -/
def wideSource : Source where
  data := [0, 0, 0, 0x4E, 0x54, 0x46, 0x53, 0x20, 0x20, 0x20, 0x20, 0, 2, 1] ++ List.replicate 26 0 ++
    [8, 0, 0, 0x80, 0, 0, 0, 0, 1] ++ List.replicate 15 0 ++ [1] ++ List.replicate 447 0 ++
    runRecord [0, 14, 0, 0, 0, 0, 0, 0] [0x11, 7, 1, 0, 0, 0, 0, 0] ++ List.replicate 2560 0 ++
    runRecord [0, 2, 0, 16, 0, 0, 0, 0] [0x03, 1, 0, 8, 0, 0, 0, 0]
  size_lt := by decide +kernel

theorem parse_wide : ∃ v, Volume.parse .debug wideSource 0 = .ok (.ok v) ∧ v.offset = 0 ∧ v.clusterSize = 512 ∧
    v.volumeSize / 512 = 2 ^ 31 + 8 ∧
    v.bitmapData .debug wideSource = .ok (some ⟨2 ^ 28 + 512, .nonResident [(none, 2 ^ 19 + 1)]⟩) := by
  have hrun : ((Volume.parse .debug wideSource 0).toOption.bind Except.toOption).map (fun v =>
      (v.offset, v.clusterSize, v.volumeSize / 512, v.bitmapData .debug wideSource)) =
        some (0, 512, 2 ^ 31 + 8, .ok (some ⟨2 ^ 28 + 512, .nonResident [(none, 2 ^ 19 + 1)]⟩)) := by decide +kernel
  obtain ⟨v, hv, hfields⟩ := Option.map_eq_some_iff.mp hrun
  obtain ⟨r, hr, hv⟩ := Option.bind_eq_some_iff.mp hv
  simp only [Prod.mk.injEq] at hfields
  refine ⟨v, ?_, hfields⟩
  rw [ok_of_toOption hr, ok_of_toOption hv]

section Hole

variable {src : Source} {v : Volume} {count limit : ℕ}

/-- A bitmap that is a hole is read as zeros. -/
theorem bitmapRead_hole (hwords : count * v.clusterSize < 2 ^ 63) (hlimit : limit ≤ count * v.clusterSize) :
    v.BitmapRead .debug src limit (.nonResident [(none, count)]) := by
  refine ⟨⟨List.replicate limit 0, ?_⟩, ?_, fun _ _ => .inl rfl⟩
  · unfold Volume.readBitmap readRunsRange
    dsimp only
    rw [if_neg (by omega), readRuns]
    by_cases hzero : limit = 0
    · rw [if_pos hzero, hzero]
      rfl
    · rw [if_neg hzero, times_eq (by omega), exec_ok_bind, if_neg (by omega), minus_eq (Nat.zero_le _), exec_ok_bind,
        Nat.sub_zero, min_eq_right hlimit]
      dsimp only
      rw [minus_eq le_rfl, exec_ok_bind]
      rfl
  · intro runs hruns i j hij hj _ hi
    cases hruns
    rw [logicalByte, locate, if_pos (by omega)] at hi
    cases hi

theorem freeCluster_hole (hlimit : limit ≤ count * v.clusterSize) (c : ℕ) :
    v.FreeCluster src limit (.nonResident [(none, count)]) c ↔ c < v.volumeSize / v.clusterSize ∧ c / 8 < limit := by
  refine and_congr_right fun _ => ⟨fun h => ?_, fun hlt => ⟨0, ⟨hlt, ?_, ?_⟩, ?_⟩⟩
  · obtain ⟨x, ⟨hlt, -⟩, -⟩ := h
    exact hlt
  · rintro k hk ⟨l, q, hlocate, -⟩
    rw [locate, if_pos (by omega)] at hlocate
    cases hlocate
  · rw [logicalByte, locate, if_pos (by omega)]
    rfl
  · exact Nat.zero_testBit _

end Hole

end Ntfs

/-- A volume of one group of eight blocks, four of which are free. -/
def groupSource : Source where
  data := [Ext.blockOf [(0, [0b10101100])], Ext.superBlock, Ext.blockOf [(0x08, [3])], Ext.blockOf []].flatten
  size_lt := by decide +kernel

/-- A volume of eight blocks, whose bitmap is in the sixth one. -/
def topBitSource : Source where
  data := [Hfs.sectorOf [], Hfs.sectorOf [],
    Hfs.sectorOf [(0, [0x48, 0x2B]), (40, [0, 0, 2, 0]), (44, [0, 0, 0, 8]), (128, [0, 0, 0, 5, 0, 0, 0, 1]),
      (288, [0, 0, 0, 4, 0, 0, 0, 1])],
    Hfs.sectorOf [], Hfs.sectorOf [], Hfs.sectorOf [(0, [0b11111100])], Hfs.sectorOf [], Hfs.sectorOf []].flatten
  size_lt := by decide +kernel

theorem parse_group : Ext.Volume.parse .debug groupSource 0 = .ok (.ok Ext.smallVolume) := by decide +kernel

theorem parse_topBit : ∃ v, Hfs.Volume.parse .debug topBitSource 0 = .ok (.ok v) ∧ v.offset = 0 ∧
    v.blockSize = 512 ∧ v.allocationExtents.extents = [(5, 1)] := by
  have hrun : ((Hfs.Volume.parse .debug topBitSource 0).toOption.bind Except.toOption).map (fun v =>
      (v.offset, v.blockSize, v.allocationExtents.extents)) = some (0, 512, [(5, 1)]) := by decide +kernel
  obtain ⟨v, hv, hfields⟩ := Option.map_eq_some_iff.mp hrun
  obtain ⟨r, hr, hv⟩ := Option.bind_eq_some_iff.mp hv
  simp only [Prod.mk.injEq] at hfields
  refine ⟨v, ?_, hfields⟩
  rw [ok_of_toOption hr, ok_of_toOption hv]

/-- The extents of the three kinds of volumes are exact, as far as the bitmap is read into memory. -/
theorem bitmap_extents_exact (b : Build) (src : Source) (offset : ℕ) :
    (∀ v data, Ntfs.Volume.parse b src offset = .ok (.ok v) → v.bitmapData b src = .ok (some data) →
      v.BitmapRead b src (min data.size Ntfs.MAX_BITMAP) data.kind →
      (∀ c, v.FreeCluster src (min data.size Ntfs.MAX_BITMAP) data.kind c →
        v.offset + c * v.clusterSize + v.clusterSize < 2 ^ 64) →
      ∃ extents, v.freeExtents b src = .ok extents ∧
        ExactExtents (v.FreeCluster src (min data.size Ntfs.MAX_BITMAP) data.kind)
          (fun c => v.offset + c * v.clusterSize) v.clusterSize extents) ∧
    (∀ v, Ext.Volume.parse b src offset = .ok (.ok v) → v.BitmapsRead src →
      (∀ c, v.FreeBlock src c → v.offset + c * v.blockSize + v.blockSize < 2 ^ 64) →
      ∃ extents, v.freeExtents b src = .ok (extents.map Ext.pairOf) ∧
        ExactExtents (v.FreeBlock src) (fun c => v.offset + c * v.blockSize) v.blockSize extents) ∧
    ∀ v, Hfs.Volume.parse b src offset = .ok (.ok v) → v.offset < 2 ^ 63 → v.BitmapForkRead b src Hfs.MAX_BITMAP →
      ∃ extents, v.freeExtents b src = .ok extents ∧
        ExactExtents (v.FreeBlock src Hfs.MAX_BITMAP) (fun c => v.offset + c * v.blockSize) v.blockSize extents :=
  ⟨fun _ _ _ hdata hread hends => Ntfs.Volume.freeExtents_exact hdata hread hends,
    fun _ _ hread hends => Ext.Volume.freeExtents_exact hread hends,
    fun _ _ hoffset hread => Hfs.Volume.freeExtents_exact hoffset hread⟩

/-- The free units of a volume of each kind. -/
theorem bitmap_extents_found :
    (∃ v extents, Ntfs.Volume.parse .debug Ntfs.wideSource 0 = .ok (.ok v) ∧
      v.freeExtents .debug Ntfs.wideSource = .ok extents ∧
      ExactExtents (v.FreeCluster Ntfs.wideSource (2 ^ 28) (.nonResident [(none, 2 ^ 19 + 1)]))
        (fun c => v.offset + c * v.clusterSize) v.clusterSize extents) ∧
    (∃ extents, Ext.smallVolume.freeExtents .debug groupSource = .ok (extents.map Ext.pairOf) ∧
      ExactExtents (Ext.smallVolume.FreeBlock groupSource) (fun c => 0 + c * 1024) 1024 extents) ∧
    ∃ v extents, Hfs.Volume.parse .debug topBitSource 0 = .ok (.ok v) ∧ v.freeExtents .debug topBitSource = .ok extents ∧
      ExactExtents (v.FreeBlock topBitSource Hfs.MAX_BITMAP) (fun c => v.offset + c * v.blockSize) v.blockSize
        extents := by
  refine ⟨?_, ?_, ?_⟩
  · obtain ⟨v, hparse, hoffset, hsize, hcount, hdata⟩ := Ntfs.parse_wide
    have hcap : min (2 ^ 28 + 512) Ntfs.MAX_BITMAP = 2 ^ 28 := by decide
    obtain ⟨extents, hextents, hexact⟩ := (bitmap_extents_exact .debug Ntfs.wideSource 0).1 v _ hparse hdata
      (Ntfs.bitmapRead_hole (by rw [hsize]; decide) (by rw [hsize]; decide))
      (fun c hc => by
        have hlt := hc.1
        rw [hsize, hcount] at hlt
        rw [hoffset, hsize]
        omega)
    rw [hcap] at hexact
    exact ⟨v, extents, hparse, hextents, hexact⟩
  · have hblocks : ∀ b ∈ [Ext.blockOf [(0, [0b10101100])], Ext.superBlock, Ext.blockOf [(0x08, [3])], Ext.blockOf []],
        b.length = 1024 := by
      have hsuper : Ext.superBlock.length = 1024 := Ext.length_blockOf (by decide)
      simp only [List.forall_mem_cons, hsuper, true_and]
      exact ⟨Ext.length_blockOf (by decide), Ext.length_blockOf (by decide), Ext.length_blockOf (by decide),
        List.forall_mem_nil _⟩
    have hrel : groupSource.Reliable := fun _ _ => rfl
    refine (bitmap_extents_exact .debug groupSource 0).2.1 Ext.smallVolume parse_group ?_ ?_
    · intro c _ _ g hg
      have hmem := List.mem_of_getElem? hg
      rw [show Ext.smallVolume.groups = [⟨3, 0⟩] from rfl, List.mem_singleton] at hmem
      rw [hmem]
      exact ⟨_, Ext.read_smallBlock hrel (by rw [groupSource]) hblocks (k := 0) (by decide) rfl⟩
    · intro c hc
      have hlt : c < 9 := hc.1.2
      change 0 + c * 1024 + 1024 < 2 ^ 64
      omega
  · obtain ⟨v, hparse, hoffset, hsize, hextents⟩ := parse_topBit
    have hlength : topBitSource.data.length = 4096 := by decide +kernel
    have hread : v.BitmapForkRead .debug topBitSource Hfs.MAX_BITMAP := by
      refine ⟨?_, Hfs.forkByte_of_inside ?_⟩
      · have hoff : v.offset + 5 * v.blockSize = 2560 := by rw [hoffset, hsize]
        obtain ⟨bytes, hblock, hlen⟩ : ∃ bytes, topBitSource.readAt 2560 512 = .ok bytes ∧ bytes.length = 512 := by
          refine ⟨_, if_neg (by decide), ?_⟩
          rw [length_window, hlength]
          decide
        have hnone : bytes ≠ [] := List.ne_nil_of_length_pos (by omega)
        refine ⟨bytes, ?_⟩
        unfold Hfs.Volume.readBitmap
        rw [word_eq (v.extents_lt v.allocationExtents), exec_ok_bind]
        dsimp only
        rw [hextents, Hfs.Volume.readExtents, Hfs.Volume.readBlocks, if_neg (by rw [hsize]; decide), hoff,
          word_eq (by decide), exec_ok_bind, hsize, hblock, exec_ok_bind, if_neg hnone, Hfs.Volume.readBlocks]
        change Except.ok (List.take (min 512 Hfs.MAX_BITMAP) bytes) = _
        rw [List.take_of_length_le (hlen.trans_le (by decide))]
      · intro block hblock
        rw [hextents] at hblock
        rw [List.mem_singleton.mp hblock, hoffset, hsize, hlength]
        decide
    obtain ⟨extents, hfree, hexact⟩ := (bitmap_extents_exact .debug topBitSource 0).2.2 v hparse (by omega) hread
    exact ⟨v, extents, hparse, hfree, hexact⟩

namespace Ntfs

/-- The clusters behind the part of the bitmap that is read into memory are left out. -/
theorem large_bitmap_cut : ¬ ∀ (b : Build) (src : Source) (offset : ℕ) (v : Volume) (data : DataAttr),
    Volume.parse b src offset = .ok (.ok v) → v.bitmapData b src = .ok (some data) →
    v.BitmapRead b src data.size data.kind →
    (∀ c, v.FreeCluster src data.size data.kind c → v.offset + c * v.clusterSize + v.clusterSize < 2 ^ 64) →
    ∃ extents, v.freeExtents b src = .ok extents ∧
      ExactExtents (v.FreeCluster src data.size data.kind) (fun c => v.offset + c * v.clusterSize) v.clusterSize
        extents := by
  intro hclaim
  obtain ⟨v, hparse, hoffset, hsize, hcount, hdata⟩ := parse_wide
  have hfree {limit : ℕ} (hlimit : limit ≤ 2 ^ 28 + 512) (c : ℕ) :
      v.FreeCluster wideSource limit (.nonResident [(none, 2 ^ 19 + 1)]) c ↔ c < 2 ^ 31 + 8 ∧ c / 8 < limit := by
    rw [freeCluster_hole (by rw [hsize]; omega), hsize, hcount]
  have hread {limit : ℕ} (hlimit : limit ≤ 2 ^ 28 + 512) :
      v.BitmapRead .debug wideSource limit (.nonResident [(none, 2 ^ 19 + 1)]) :=
    bitmapRead_hole (by rw [hsize]; decide) (by rw [hsize]; omega)
  have hends {limit : ℕ} (hlimit : limit ≤ 2 ^ 28 + 512) (c : ℕ)
      (hc : v.FreeCluster wideSource limit (.nonResident [(none, 2 ^ 19 + 1)]) c) :
      v.offset + c * v.clusterSize + v.clusterSize < 2 ^ 64 := by
    have hlt := ((hfree hlimit c).mp hc).1
    rw [hoffset, hsize]
    omega
  obtain ⟨extents, hextents, hexact⟩ := hclaim .debug wideSource 0 v _ hparse hdata (hread le_rfl) (hends le_rfl)
  obtain ⟨extents', hextents', hexact'⟩ := Volume.freeExtents_exact hdata (hread (by decide)) (hends (by decide))
  rw [hextents] at hextents'
  cases hextents'
  have hcovered := (hexact.covers (2 ^ 31 * 512)).mpr ⟨2 ^ 31, (hfree le_rfl _).mpr (by decide), by
    rw [hoffset, hsize]
    omega⟩
  obtain ⟨c, hc, hle, hlt⟩ := (hexact'.covers _).mp hcovered
  rw [hoffset, hsize] at hle hlt
  have hcut := ((hfree (by decide) c).mp hc).2
  have hcap : min (2 ^ 28 + 512) MAX_BITMAP = 2 ^ 28 := by decide
  dsimp only at hcut
  omega

end Ntfs

end Unearth
