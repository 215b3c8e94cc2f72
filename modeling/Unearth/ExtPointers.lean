import Unearth.ExtSafety
import Unearth.Lib.Gaps

/-!
# Files by block pointers

The first twelve blocks of a file are in its inode, the others below one, two and three levels of
blocks of pointers; where such a block is missing, so are all that would be below it. The map is
one list that grows by each pointer found, and a missing block of pointers adds nothing to it: the
blocks of a file are where the scheme says so for as long as none is displaced by a missing one.
-/

namespace Unearth.Ext
open Bytes Word Post Gaps

/-- The pointers and the tree of extents are at the same place of an inode. -/
def iBlock (inode : List UInt8) : List UInt8 := window inode 0x28 60

namespace Volume

section Map

variable (v : Volume) (src : Source) (room : ℕ)

/-- `mapIndirect` with room for so many blocks. -/
def mapIndirectIn (iBlock : List UInt8) (n : ℕ) : Exec (List ℕ) := do
  request room n
  let out ← (List.range (min 12 n)).mapM fun i => field iBlock (4 * i) 4
  let single ← field iBlock 48 4
  let double ← field iBlock 52 4
  let triple ← field iBlock 56 4
  let out ← v.readIndirect src n 1 single out
  let out ← v.readIndirect src n 2 double out
  v.readIndirect src n 3 triple out

/-- `mapBlocks` with room for so many blocks. -/
def mapBlocksIn (inode : List UInt8) (n : ℕ) : Exec (List ℕ) := do
  let flags ← inodeFlags inode
  let iBlock ← slice inode 0x28 60
  if flags &&& FLAG_EXTENTS ≠ 0 then
    let map ← v.collectExtents src (MAX_EXTENT_DEPTH + 1) iBlock []
    request room n
    map.foldlM (placeExtent n) (List.replicate n 0)
  else v.mapIndirectIn src room iBlock n

end Map

section Scheme

variable (v : Volume) (src : Source)

def pointersPerBlock : ℕ := v.blockSize / 4

def pointersAt (block : ℕ) : List ℕ :=
  pointers (window src.data (satAdd v.offset (satMul block v.blockSize)) v.blockSize)

/-- The physical block of block `j` of those that are `level` levels below a pointer. -/
def blockBelow : ℕ → ℕ → ℕ → ℕ
  | 0, ptr, _ => ptr
  | level + 1, ptr, j =>
    if ptr = 0 then 0
    else
      let p := v.pointersPerBlock
      blockBelow level ((v.pointersAt src ptr).getD (j / p ^ level) 0) (j % p ^ level)

/-- The physical block that the scheme assigns to a block of a file, or 0. -/
def schemeBlock (iBlock : List UInt8) (i : ℕ) : ℕ :=
  let p := v.pointersPerBlock
  if i < 12 then le (window iBlock (4 * i) 4)
  else if i < 12 + p then v.blockBelow src 1 (le (window iBlock 48 4)) (i - 12)
  else if i < 12 + p + p ^ 2 then v.blockBelow src 2 (le (window iBlock 52 4)) (i - 12 - p)
  else v.blockBelow src 3 (le (window iBlock 56 4)) (i - 12 - p - p ^ 2)

/-- The blocks below a pointer, with a gap for each one below a missing block of pointers. -/
def cells : ℕ → ℕ → List (Option ℕ)
  | 0, ptr => [some ptr]
  | level + 1, ptr =>
    if ptr = 0 then List.replicate (v.pointersPerBlock ^ (level + 1)) none
    else (v.pointersAt src ptr).flatMap (cells level)

/-- The pointers to the blocks of a file at their places. -/
def fileCells (iBlock : List UInt8) : List (Option ℕ) :=
  ((List.range 12).map fun i => some (le (window iBlock (4 * i) 4))) ++
    v.cells src 1 (le (window iBlock 48 4)) ++ v.cells src 2 (le (window iBlock 52 4)) ++
    v.cells src 3 (le (window iBlock 56 4))

/-- Each block of pointers that is there can be read in whole. -/
def Readable : ℕ → ℕ → Prop
  | 0, _ => True
  | level + 1, ptr => ptr ≠ 0 →
    (∃ data, v.readBlock src ptr = .ok data ∧ data.length = v.blockSize) ∧
      ∀ q ∈ v.pointersAt src ptr, Readable level q

def FileReadable (iBlock : List UInt8) : Prop :=
  v.Readable src 1 (le (window iBlock 48 4)) ∧ v.Readable src 2 (le (window iBlock 52 4)) ∧
    v.Readable src 3 (le (window iBlock 56 4))

end Scheme

section Cells

variable {v : Volume} {src : Source} {level ptr n : ℕ}

theorem pow_pointers_pos (v : Volume) (level : ℕ) : 0 < v.pointersPerBlock ^ level := by
  apply Nat.pow_pos
  have hge := v.block_ge
  unfold pointersPerBlock
  omega

/-- What is read as a block of pointers is what the volume has there. -/
theorem Readable.read (h : v.Readable src (level + 1) ptr) (hptr : ptr ≠ 0) :
    ∃ data, v.readBlock src ptr = .ok data ∧ pointers data = v.pointersAt src ptr ∧
      (v.pointersAt src ptr).length = v.pointersPerBlock := by
  obtain ⟨⟨data, hread, hlen⟩, -⟩ := h hptr
  have hdata : data = window src.data (satAdd v.offset (satMul ptr v.blockSize)) v.blockSize := Source.readAt_ok hread
  refine ⟨data, hread, by rw [hdata]; rfl, ?_⟩
  rw [pointersAt, ← hdata, pointers, List.length_map, List.length_range, hlen]
  rfl

theorem length_cells (h : v.Readable src level ptr) :
    (v.cells src level ptr).length = v.pointersPerBlock ^ level := by
  induction level generalizing ptr with
  | zero => rfl
  | succ level ih =>
    unfold cells
    split_ifs with hptr
    · exact List.length_replicate
    · obtain ⟨data, -, -, hlen⟩ := h.read hptr
      rw [List.length_flatMap, List.map_congr_left fun q hq => ih ((h hptr).2 q hq), List.map_const',
        List.sum_replicate, hlen, smul_eq_mul, Nat.pow_succ']

/-- The scheme's block is what is meant by the cell at its place. -/
theorem meant_cells (h : v.Readable src level ptr) {j : ℕ} (hj : j < v.pointersPerBlock ^ level) :
    (meant (v.cells src level ptr))[j]? = some (v.blockBelow src level ptr j) := by
  induction level generalizing ptr j with
  | zero =>
    rw [Nat.pow_zero, Nat.lt_one_iff] at hj
    rw [hj]
    rfl
  | succ level ih =>
    unfold cells blockBelow
    split_ifs with hptr
    · rw [meant, List.getElem?_map, List.getElem?_replicate, if_pos hj]
      rfl
    · obtain ⟨data, -, -, hlen⟩ := h.read hptr
      have hquot : j / v.pointersPerBlock ^ level < (v.pointersAt src ptr).length := by
        rw [hlen]
        apply Nat.div_lt_of_lt_mul
        rwa [← Nat.pow_succ]
      have hlens : ∀ q ∈ v.pointersAt src ptr, (v.cells src level q).length = v.pointersPerBlock ^ level :=
        fun q hq => length_cells ((h hptr).2 q hq)
      have hcell := ih ((h hptr).2 _ (List.getElem_mem hquot))
        (Nat.mod_lt j (v.pow_pointers_pos level))
      rw [meant, List.getElem?_map] at hcell
      dsimp only
      rw [meant, List.getElem?_map, getElem?_flatMap (v.pow_pointers_pos level) hlens, List.getElem?_eq_getElem hquot,
        Option.bind_some, hcell, List.getD_eq_getElem _ _ hquot]

variable {iBlock : List UInt8}

theorem length_fileCells (h : v.FileReadable src iBlock) : (v.fileCells src iBlock).length =
    12 + v.pointersPerBlock + v.pointersPerBlock ^ 2 + v.pointersPerBlock ^ 3 := by
  rw [fileCells, List.length_append, List.length_append, List.length_append, List.length_map, List.length_range,
    length_cells h.1, length_cells h.2.1, length_cells h.2.2, Nat.pow_one]

theorem meant_fileCells (h : v.FileReadable src iBlock) {i : ℕ}
    (hi : i < 12 + v.pointersPerBlock + v.pointersPerBlock ^ 2 + v.pointersPerBlock ^ 3) :
    (meant (v.fileCells src iBlock))[i]? = some (v.schemeBlock src iBlock i) := by
  have hdirect : (meant ((List.range 12).map fun i => some (le (window iBlock (4 * i) 4)))).length = 12 := by
    simp [meant]
  have hlens : ∀ {level ptr}, v.Readable src level ptr →
      (meant (v.cells src level ptr)).length = v.pointersPerBlock ^ level := by
    intro level ptr hread
    rw [meant, List.length_map, length_cells hread]
  have hsingle := hlens h.1
  have hdouble := hlens h.2.1
  rw [Nat.pow_one] at hsingle
  rw [fileCells, meant_append, meant_append, meant_append]
  unfold schemeBlock
  dsimp only
  split_ifs with h₀ h₁ h₂
  · rw [List.append_assoc, List.append_assoc, List.getElem?_append_left (by omega), meant, List.map_map,
      List.getElem?_map, List.getElem?_range h₀]
    rfl
  · rw [List.append_assoc, List.append_assoc, List.getElem?_append_right (by omega), hdirect,
      List.getElem?_append_left (by omega), meant_cells h.1 (by rw [Nat.pow_one]; omega)]
  · rw [List.append_assoc, List.getElem?_append_right (by rw [List.length_append]; omega), List.length_append, hdirect,
      hsingle, List.getElem?_append_left (by omega), meant_cells h.2.1 (by omega), Nat.sub_sub]
  · rw [List.getElem?_append_right (by rw [List.length_append, List.length_append]; omega), List.length_append,
      List.length_append, hdirect, hsingle, hdouble, meant_cells h.2.2 (by omega), Nat.sub_sub, Nat.sub_sub,
      Nat.add_assoc]

end Cells

section Read

variable {v : Volume} {src : Source} {n : ℕ}

theorem take_append_take (a b : List ℕ) (n : ℕ) : a.take n ++ b.take (n - (a.take n).length) = (a ++ b).take n := by
  rw [List.take_append, List.length_take]
  congr 2
  omega

/-- What is taken of one list and then of another is taken of both. -/
theorem append_take (out a b : List ℕ) (n : ℕ) :
    out ++ a.take (n - out.length) ++ b.take (n - (out ++ a.take (n - out.length)).length) =
      out ++ (a ++ b).take (n - out.length) := by
  rw [List.append_assoc, List.length_append, ← Nat.sub_sub, take_append_take]

theorem kept_cells_nil (v : Volume) (src : Source) (level : ℕ) : kept (v.cells src (level + 1) 0) = [] := by
  rw [cells, if_pos rfl, kept, List.reduceOption_replicate_none]

theorem kept_map_some (l : List ℕ) : kept (l.flatMap (v.cells src 0)) = l := by
  induction l with
  | nil => rfl
  | cons q l ih =>
    rw [List.flatMap_cons, kept_append, ih]
    rfl

/-- The pointers found below a pointer are the entries of its cells, one behind the other. -/
theorem readIndirect_eq {level ptr : ℕ} (h : v.Readable src (level + 1) ptr) (out : List ℕ) :
    v.readIndirect src n (level + 1) ptr out =
      .ok (out ++ (kept (v.cells src (level + 1) ptr)).take (n - out.length)) := by
  induction level generalizing ptr out with
  | zero =>
    unfold readIndirect
    by_cases hptr : ptr = 0
    · rw [if_pos (.inl hptr), hptr, kept_cells_nil, List.take_nil, List.append_nil]
      rfl
    by_cases hn : n ≤ out.length
    · rw [if_pos (.inr hn), Nat.sub_eq_zero_of_le hn, List.take_zero, List.append_nil]
      rfl
    obtain ⟨data, hread, hptrs, -⟩ := h.read hptr
    rw [if_neg (not_or.mpr ⟨hptr, hn⟩), hread, exec_ok_bind, hptrs, cells, if_neg hptr, kept_map_some]
    rfl
  | succ level ih =>
    have hfold : ∀ l : List ℕ, (∀ q ∈ l, v.Readable src (level + 1) q) → ∀ out : List ℕ,
        l.foldlM (fun out q => if n ≤ out.length then .ok out else v.readIndirect src n (level + 1) q out) out =
          .ok (out ++ (kept (l.flatMap (v.cells src (level + 1)))).take (n - out.length)) := by
      intro l
      induction l with
      | nil =>
        intro _ out
        rw [List.flatMap_nil, kept, List.reduceOption_nil, List.take_nil, List.append_nil]
        rfl
      | cons q l ihl =>
        intro hl out
        have hq : (if n ≤ out.length then .ok out else v.readIndirect src n (level + 1) q out) =
            .ok (out ++ (kept (v.cells src (level + 1) q)).take (n - out.length)) := by
          split_ifs with hn
          · rw [Nat.sub_eq_zero_of_le hn, List.take_zero, List.append_nil]
          · exact ih (hl q List.mem_cons_self) out
        rw [List.foldlM_cons, hq, exec_ok_bind, ihl fun q hq => hl q (List.mem_cons_of_mem _ hq), append_take,
          List.flatMap_cons, kept_append]
    unfold readIndirect
    by_cases hptr : ptr = 0
    · rw [if_pos (.inl hptr), hptr, kept_cells_nil, List.take_nil, List.append_nil]
      rfl
    by_cases hn : n ≤ out.length
    · rw [if_pos (.inr hn), Nat.sub_eq_zero_of_le hn, List.take_zero, List.append_nil]
      rfl
    obtain ⟨data, hread, hptrs, -⟩ := h.read hptr
    rw [if_neg (not_or.mpr ⟨hptr, hn⟩), hread, exec_ok_bind, hptrs, cells, if_neg hptr]
    exact hfold _ (h hptr).2 out

/-- The map of a file is the pointers that are there, one behind the other. -/
theorem mapIndirectIn_eq {iBlock : List UInt8} {room : ℕ} (hlen : iBlock.length = 60) (hroom : n ≤ room)
    (h : v.FileReadable src iBlock) :
    v.mapIndirectIn src room iBlock n = .ok ((kept (v.fileCells src iBlock)).take n) := by
  set direct := (List.range 12).map fun i => le (window iBlock (4 * i) 4)
  have hdirect : ((List.range (min 12 n)).mapM fun i => field iBlock (4 * i) 4) = .ok (direct.take n) := by
    rw [← List.map_take, List.take_range, min_comm n 12]
    apply mapM_ok
    intro i hi
    have hlt := List.mem_range.mp hi
    exact field_eq (by omega)
  have hkept : kept (v.fileCells src iBlock) = direct ++ kept (v.cells src 1 (le (window iBlock 48 4))) ++
      kept (v.cells src 2 (le (window iBlock 52 4))) ++ kept (v.cells src 3 (le (window iBlock 56 4))) := by
    rw [fileCells, kept_append, kept_append, kept_append]
    congr 3
  unfold mapIndirectIn
  rw [request_eq hroom, exec_ok_bind, hdirect, exec_ok_bind, field_eq (by omega), exec_ok_bind, field_eq (by omega),
    exec_ok_bind, field_eq (by omega), exec_ok_bind, readIndirect_eq h.1, exec_ok_bind, take_append_take,
    readIndirect_eq h.2.1, exec_ok_bind, take_append_take, readIndirect_eq h.2.2, take_append_take, hkept]

end Read

end Volume

/-- The map has an entry for each block, at its own place. -/
def Placed (n : ℕ) (block : ℕ → ℕ) (map : Exec (List ℕ)) : Prop :=
  ∃ out, map = .ok out ∧ out.length = n ∧ ∀ i < n, out[i]? = some (block i)

namespace Volume

variable {v : Volume} {src : Source} {inode : List UInt8} {room n : ℕ}

/-- Every block of a file is at its place exactly when enough pointers are there, and none that is
wanted and is not zero is behind a missing block of pointers. -/
theorem block_map_placed_iff (hinode : 128 ≤ inode.length)
    (hflag : le (window inode 0x20 4) &&& FLAG_EXTENTS = 0) (hread : v.FileReadable src (iBlock inode))
    (hroom : n ≤ room) (hn : n ≤ 12 + v.pointersPerBlock + v.pointersPerBlock ^ 2 + v.pointersPerBlock ^ 3) :
    Placed n (v.schemeBlock src (iBlock inode)) (v.mapBlocksIn src room inode n) ↔
      Aligned n (v.fileCells src (iBlock inode)) := by
  have hlen : (v.fileCells src (iBlock inode)).length =
      12 + v.pointersPerBlock + v.pointersPerBlock ^ 2 + v.pointersPerBlock ^ 3 := length_fileCells hread
  have hmap : v.mapBlocksIn src room inode n = .ok ((kept (v.fileCells src (iBlock inode))).take n) := by
    unfold mapBlocksIn
    rw [inodeFlags_eq hinode, exec_ok_bind, slice_eq (by omega), exec_ok_bind, if_neg (not_not.mpr hflag)]
    refine mapIndirectIn_eq ?_ hroom hread
    rw [length_window]
    omega
  have hmeant : ∀ i < n, ((meant (v.fileCells src (iBlock inode))).take n)[i]? =
      some (v.schemeBlock src (iBlock inode) i) := by
    intro i hi
    rw [List.getElem?_take_of_lt hi, meant_fileCells hread (hi.trans_le hn)]
  have hmeantLen : ((meant (v.fileCells src (iBlock inode))).take n).length = n := by
    rw [List.length_take, meant, List.length_map, hlen, min_eq_left hn]
  rw [← take_kept_eq_iff (hlen ▸ hn)]
  constructor
  · rintro ⟨out, hout, hlength, hplaced⟩
    obtain rfl : _ = out := Except.ok.inj (hmap.symm.trans hout)
    apply List.ext_getElem?
    intro i
    by_cases hi : i < n
    · rw [hplaced i hi, hmeant i hi]
    · rw [List.getElem?_eq_none (by omega), List.getElem?_eq_none (by omega)]
  · intro heq
    refine ⟨_, hmap, ?_, fun i hi => ?_⟩
    · rw [heq, hmeantLen]
    · rw [heq, hmeant i hi]

end Volume

def pointerVolume : Volume where
  offset := 0
  blockSize := 1024
  inodeSize := 128
  inodesPerGroup := 8
  filetypeDirents := false
  totalBlocks := 300
  journalInum := 0
  groups := []
  blocksPerGroup := 300
  firstDataBlock := 1
  block_ge := by decide
  block_le := by decide
  inode_ge := by decide
  inode_le := by decide
  blocks_pos := by decide
  total_lt := by decide

/-- The second block points to the third, and that one to block 7. -/
def pointerSource : Source where
  data := List.replicate 1024 0 ++ ([2, 0, 0, 0] ++ List.replicate 1020 0) ++ ([7, 0, 0, 0] ++ List.replicate 1020 0)
  size_lt := by decide +kernel

/-- An inode with no direct blocks. -/
def pointerInode (single double : UInt8) : List UInt8 :=
  List.replicate 0x58 0 ++ [single, 0, 0, 0] ++ [double, 0, 0, 0] ++ List.replicate 32 0

theorem readable_two : pointerVolume.Readable pointerSource 1 2 := by
  intro _
  have hread : pointerVolume.readBlock pointerSource 2 = .ok ([7, 0, 0, 0] ++ List.replicate 1020 0) := by
    decide +kernel
  exact ⟨⟨_, hread, by decide +kernel⟩, fun _ _ => trivial⟩

theorem le_zeros (n : ℕ) : le (List.replicate n 0) = 0 := by
  induction n with
  | zero => rfl
  | succ n ih =>
    rw [List.replicate_succ, le, List.foldr_cons]
    rw [le] at ih
    rw [ih]
    rfl

theorem readable_one : pointerVolume.Readable pointerSource 2 1 := by
  intro _
  have hread : pointerVolume.readBlock pointerSource 1 = .ok ([2, 0, 0, 0] ++ List.replicate 1020 0) := by
    decide +kernel
  refine ⟨⟨_, hread, by decide +kernel⟩, fun q hq => ?_⟩
  rw [Volume.pointersAt, ← Source.readAt_ok hread] at hq
  obtain ⟨i, -, rfl⟩ := List.mem_map.mp hq
  cases i with
  | zero => exact readable_two
  | succ i =>
    have hzero : le (window ([2, 0, 0, 0] ++ List.replicate 1020 0) (4 * (i + 1)) 4) = 0 := by
      have hdrop : List.drop 4 ([2, 0, 0, 0] ++ List.replicate 1020 (0 : UInt8)) = List.replicate 1020 0 := rfl
      rw [window, Nat.mul_succ, Nat.add_comm, ← List.drop_drop, hdrop, List.drop_replicate, List.take_replicate]
      exact le_zeros _
    rw [hzero]
    exact fun h => absurd rfl h

theorem single_level_placed :
    Placed 13 (pointerVolume.schemeBlock pointerSource (iBlock (pointerInode 2 0)))
      (pointerVolume.mapBlocksIn pointerSource 13 (pointerInode 2 0) 13) := by
  have hreadable : pointerVolume.FileReadable pointerSource (iBlock (pointerInode 2 0)) :=
    ⟨readable_two, fun h => absurd rfl h, fun h => absurd rfl h⟩
  have hlen := Volume.length_fileCells hreadable
  have hpresent : (((pointerVolume.fileCells pointerSource (iBlock (pointerInode 2 0))).take 13).all Option.isSome) =
      true := by decide +kernel
  exact (Volume.block_map_placed_iff (by decide +kernel) (by decide +kernel) hreadable le_rfl (by decide +kernel)).mpr
    (aligned_of_present (by rw [hlen]; decide) (List.all_eq_true.mp hpresent))

/-- The first block of pointers is missing, and what is below the second takes its place. -/
theorem missing_level_shifted :
    pointerVolume.FileReadable pointerSource (iBlock (pointerInode 0 1)) ∧
      pointerVolume.mapBlocks pointerSource (pointerInode 0 1) 13 = .ok (List.replicate 12 0 ++ [7]) ∧
      pointerVolume.schemeBlock pointerSource (iBlock (pointerInode 0 1)) 12 = 0 ∧
      pointerVolume.schemeBlock pointerSource (iBlock (pointerInode 0 1)) 268 = 7 ∧
      ¬ Placed 13 (pointerVolume.schemeBlock pointerSource (iBlock (pointerInode 0 1)))
        (pointerVolume.mapBlocks pointerSource (pointerInode 0 1) 13) := by
  have hmap : pointerVolume.mapBlocks pointerSource (pointerInode 0 1) 13 = .ok (List.replicate 12 0 ++ [7]) := by
    decide +kernel
  have hscheme : pointerVolume.schemeBlock pointerSource (iBlock (pointerInode 0 1)) 12 = 0 := by decide +kernel
  refine ⟨⟨fun h => absurd rfl h, readable_one, fun h => absurd rfl h⟩, hmap, hscheme, by decide +kernel, ?_⟩
  rintro ⟨out, hout, -, hplaced⟩
  have htwelve := hplaced 12 (by decide)
  rw [hmap] at hout
  cases hout
  rw [hscheme] at htwelve
  exact absurd htwelve (by decide)

end Unearth.Ext
