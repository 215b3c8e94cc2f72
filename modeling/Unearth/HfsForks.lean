import Unearth.HfsSafety
import Unearth.Lib.Gaps
import Unearth.NtfsReads

/-!
# The bytes of HFS+ extents

The blocks of a file are those of its extents, one extent behind the other. A read puts what it
gets of them one piece behind the other, which is in its place when no block is cut before one
that is there.
-/

namespace Unearth.Hfs
open Bytes Word Gaps

section Fork

variable (v : Volume) (src : Source)

/-- The bytes of a block, as far as the source has them. -/
def blockBytes (block : ℕ) : List (Option UInt8) :=
  (List.range' (v.offset + block * v.blockSize) v.blockSize).map (src.data[·]?)

/-- The blocks of extents, one behind the other. -/
def blocksOf (extents : List (ℕ × ℕ)) : List ℕ := extents.flatMap fun e => List.range' e.1 e.2

def forkBytes (extents : List (ℕ × ℕ)) : List (Option UInt8) := (blocksOf extents).flatMap (blockBytes v src)

/-- The byte of a fork at a place. -/
def forkByte (extents : List (ℕ × ℕ)) (i : ℕ) : Option UInt8 :=
  ((blocksOf extents)[i / v.blockSize]?).bind fun block => src.data[v.offset + block * v.blockSize + i % v.blockSize]?

variable {v src}

theorem length_blockBytes (block : ℕ) : (blockBytes v src block).length = v.blockSize := by
  rw [blockBytes, List.length_map, List.length_range']

theorem reduceOption_blockBytes (block : ℕ) :
    (blockBytes v src block).reduceOption = window src.data (v.offset + block * v.blockSize) v.blockSize :=
  Ntfs.reduceOption_window _ _ _

theorem getElem?_forkBytes (extents : List (ℕ × ℕ)) (i : ℕ) :
    ((forkBytes v src extents)[i]?).join = forkByte v src extents i := by
  have hpos : 0 < v.blockSize := lt_of_lt_of_le (by decide) v.block_range.1
  have hmod := Nat.mod_lt i hpos
  rw [forkBytes, getElem?_flatMap hpos fun block _ => length_blockBytes block, forkByte]
  cases (blocksOf extents)[i / v.blockSize]? with
  | none => rfl
  | some block =>
    rw [Option.bind_some, Option.bind_some, blockBytes, List.getElem?_map, List.getElem?_range' hmod, Nat.one_mul]
    rfl

theorem length_forkBytes (src : Source) (extents : List (ℕ × ℕ)) :
    (forkBytes v src extents).length = (extents.map fun e => e.2 * v.blockSize).sum := by
  have hblocks : (blocksOf extents).length = (extents.map (·.2)).sum := by
    rw [blocksOf, List.length_flatMap]
    exact congrArg List.sum (List.map_congr_left fun e _ => List.length_range')
  rw [forkBytes, List.length_flatMap, List.map_congr_left fun block _ => length_blockBytes block, List.map_const',
    List.sum_replicate, hblocks, smul_eq_mul, List.sum_map_mul_right]

theorem gapless_forkBytes {extents : List (ℕ × ℕ)}
    (h : ∀ i j, i < j → forkByte v src extents i = none → forkByte v src extents j = none) :
    Gapless (forkBytes v src extents) := by
  intro i j hij hi
  have hgap := h i j hij
  rw [← getElem?_forkBytes, ← getElem?_forkBytes, hi] at hgap
  exact Option.join_eq_none_iff.mp (hgap rfl) |>.symm

/-- Nothing is missing of extents that lie in the source. -/
theorem forkByte_of_inside {extents : List (ℕ × ℕ)}
    (hinside : ∀ block ∈ blocksOf extents, v.offset + block * v.blockSize + v.blockSize ≤ src.data.length) :
    ∀ i j, i < j → forkByte v src extents i = none → forkByte v src extents j = none := by
  intro i j hij hi
  have hpos : 0 < v.blockSize := lt_of_lt_of_le (by decide) v.block_range.1
  have hmod := Nat.mod_lt i hpos
  unfold forkByte at hi ⊢
  cases hblock : (blocksOf extents)[i / v.blockSize]? with
  | none =>
    have hle := List.getElem?_eq_none_iff.mp hblock
    rw [List.getElem?_eq_none (hle.trans (Nat.div_le_div_right hij.le))]
    rfl
  | some block =>
    have hend := hinside block (List.mem_of_getElem? hblock)
    rw [hblock, Option.bind_some, List.getElem?_eq_none_iff] at hi
    omega

end Fork

section Read

variable {b : Build} {v : Volume} {src : Source} {want : ℕ}

theorem readAt_block {block : ℕ} {bytes : List UInt8} (hoffset : v.offset < 2 ^ 63) (hblock : block ≤ v.totalBlocks)
    (h : (do src.readAt (← word 64 b (v.offset + block * v.blockSize)) v.blockSize) = .ok bytes) :
    bytes = (blockBytes v src block).reduceOption := by
  have hbytes := v.bytes_lt
  have hmul := Nat.mul_le_mul_right v.blockSize hblock
  rw [word_eq (by omega), exec_ok_bind] at h
  rw [Source.readAt_ok h, reduceOption_blockBytes]

/-- Blocks are read as far as they are there, or as more are wanted. -/
theorem readBlocks_gapless {n block : ℕ} {buf r : List UInt8} {more : Bool} {rest : List (Option UInt8)}
    (hoffset : v.offset < 2 ^ 63) (hblocks : block + n ≤ v.totalBlocks + 1)
    (h : v.readBlocks b src want n block buf = .ok (more, r))
    (hgap : Gapless ((List.range' block n).flatMap (blockBytes v src) ++ rest)) :
    (more = true → r = buf ++ ((List.range' block n).flatMap (blockBytes v src)).reduceOption) ∧
      (more = false → r.take want =
        (buf ++ ((List.range' block n).flatMap (blockBytes v src) ++ rest).reduceOption).take want) := by
  induction n generalizing block buf with
  | zero =>
    cases h
    exact ⟨fun _ => (List.append_nil _).symm, fun hmore => by cases hmore⟩
  | succ n ih =>
    unfold Volume.readBlocks at h
    by_cases hwant : want ≤ buf.length
    · rw [if_pos hwant] at h
      cases h
      exact ⟨fun hmore => (by cases hmore), fun _ => (List.take_append_of_le_length hwant).symm⟩
    rw [if_neg hwant] at h
    rw [List.range'_succ, List.flatMap_cons, List.append_assoc] at hgap ⊢
    obtain ⟨off, hoff, h⟩ := exec_bind_ok h
    obtain ⟨bytes, hbytes, h⟩ := exec_bind_ok h
    have hread : bytes = (blockBytes v src block).reduceOption :=
      readAt_block hoffset (by omega) (by rw [hoff, exec_ok_bind, hbytes])
    by_cases hempty : bytes = []
    · rw [if_pos hempty] at h
      cases h
      have hpos : 0 < v.blockSize := lt_of_lt_of_le (by decide) v.block_range.1
      have hnil := hgap.reduceOption_eq_nil (List.ne_nil_of_length_pos (by rwa [length_blockBytes]))
        (hread.symm.trans hempty)
      rw [hnil, List.append_nil]
      exact ⟨fun hmore => (by cases hmore), fun _ => rfl⟩
    · rw [if_neg hempty] at h
      have hrest := ih (by omega) h hgap.behind
      rw [hread, List.append_assoc, List.append_assoc, ← List.reduceOption_append, ← List.reduceOption_append] at hrest
      exact hrest

theorem readExtents_gapless {extents : List (ℕ × ℕ)} {buf r : List UInt8} (hoffset : v.offset < 2 ^ 63)
    (hinside : ∀ e ∈ extents, e.1 + e.2 ≤ v.totalBlocks + 1)
    (h : v.readExtents b src want extents buf = .ok r) (hgap : Gapless (forkBytes v src extents)) :
    r.take want = (buf ++ (forkBytes v src extents).reduceOption).take want := by
  induction extents generalizing buf with
  | nil =>
    cases h
    exact congrArg (List.take want) (List.append_nil _).symm
  | cons e rest ih =>
    obtain ⟨start, count⟩ := e
    obtain ⟨he, hinside⟩ := List.forall_mem_cons.mp hinside
    have hsplit : forkBytes v src ((start, count) :: rest) =
        (List.range' start count).flatMap (blockBytes v src) ++ forkBytes v src rest := by
      rw [forkBytes, blocksOf, List.flatMap_cons, List.flatMap_append]
      rfl
    rw [hsplit] at hgap ⊢
    obtain ⟨⟨more, buf'⟩, hbuf, h⟩ := exec_bind_ok h
    obtain ⟨hmore, hdone⟩ := readBlocks_gapless hoffset he hbuf hgap
    cases more with
    | true =>
      rw [ih hinside h hgap.behind, hmore rfl, List.append_assoc, ← List.reduceOption_append]
    | false =>
      cases h
      exact hdone rfl

end Read

end Unearth.Hfs
