import Unearth.ExtPointers

/-!
# Files by trees of extents

An extent puts a run of the blocks of a file on a run of the volume. The extents of a file are the
leaves of a tree of nodes that are stored on the volume, the root of it in the inode. When the
extents are apart, the map has each block where its extent says, and the content read is the
stream of these blocks as far as the source has it.
-/

namespace Unearth.Ext
open Bytes Word Post

section Trees

/-- A run of the blocks of a file; some of it may not have been written yet. -/
structure FileExtent where
  logical : ℕ
  start : ℕ
  length : ℕ
  unwritten : Bool
  logical_lt : logical < 2 ^ 32
  start_lt : start < 2 ^ 48
  length_pos : 0 < length
  length_le : length ≤ if unwritten then 32767 else 32768

namespace FileExtent

variable (e f : FileExtent)

def rawLen : ℕ := if e.unwritten then 32768 + e.length else e.length

def Covers (i : ℕ) : Prop := e.logical ≤ i ∧ i < e.logical + e.length

/-- The physical block of a block that is covered. -/
def block (i : ℕ) : ℕ := e.start + (i - e.logical)

def Apart : Prop := ∀ i, ¬ (e.Covers i ∧ f.Covers i)

def entry : ℕ × ℕ × ℕ := (e.logical, e.start, e.length)

/-- How a leaf holds an extent. -/
def WrittenAs (entry : List UInt8) : Prop :=
  le (window entry 0 4) = e.logical ∧ le (window entry 4 2) = e.rawLen ∧
    2 ^ 32 * le (window entry 6 2) + le (window entry 8 4) = e.start

variable {e f}

theorem Apart.symm (h : e.Apart f) : f.Apart e := fun i hi => h i hi.symm

end FileExtent

def nodeEntry (node : List UInt8) (i : ℕ) : List UInt8 := window node (12 + i * 12) 12

/-- The block of a child. -/
def childBlock (entry : List UInt8) : ℕ := 2 ^ 32 * le (window entry 8 2) + le (window entry 4 4)

/-- A node of a depth that has so many entries, which are all inside it. -/
structure IsNode (node : List UInt8) (depth count : ℕ) : Prop where
  magic : le (window node 0 2) = EXTENT_MAGIC
  entries : le (window node 2 2) = count
  depth : le (window node 6 2) = depth
  inside : 12 + count * 12 ≤ node.length

/-- The extents below a node, in the order of the leaves. -/
inductive Holds (v : Volume) (src : Source) : ℕ → List UInt8 → List FileExtent → Prop
  | leaf {node : List UInt8} {extents : List FileExtent} (header : IsNode node 0 extents.length)
      (written : ∀ i (h : i < extents.length), (extents[i]).WrittenAs (nodeEntry node i)) :
      Holds v src 0 node extents
  | index {depth : ℕ} {node : List UInt8} (children : List (List UInt8 × List FileExtent))
      (header : IsNode node (depth + 1) children.length)
      (stored : ∀ i (h : i < children.length),
        v.readBlock src (childBlock (nodeEntry node i)) = .ok (children[i]).1)
      (below : ∀ child ∈ children, Holds v src depth child.1 child.2) :
      Holds v src (depth + 1) node (children.flatMap Prod.snd)

end Trees

section Collect

variable {v : Volume} {src : Source}

/-- What is read of a node before its entries are. -/
theorem IsNode.accepted {node : List UInt8} {depth count : ℕ} (h : IsNode node depth count) :
    ¬ (node.length < 12 ∨ le (window node 0 2) ≠ EXTENT_MAGIC) ∧
      min (le (window node 2 2)) ((node.length - 12) / 12) = count ∧
      ∀ i < count, slice node (12 + i * 12) 12 = .ok (nodeEntry node i) := by
  have hinside := h.inside
  refine ⟨?_, ?_, fun i hi => slice_eq (by omega)⟩
  · rw [not_or, not_not]
    exact ⟨by omega, h.magic⟩
  · rw [h.entries]
    omega

end Collect

section Place

variable {v : Volume} {src : Source} {inode : List UInt8} {depth : ℕ} {extents : List FileExtent}

end Place

section Content

namespace Volume

variable (v : Volume) (src : Source)

def blockBytes (block : ℕ) : List UInt8 :=
  window src.data (satAdd v.offset (satMul block v.blockSize)) v.blockSize

/-- The content of blocks in their order, zeros for a hole, as far as the source has them in whole. -/
def stream : List ℕ → List UInt8
  | [] => []
  | block :: rest =>
    if block = 0 then List.replicate v.blockSize 0 ++ stream rest
    else if (v.blockBytes src block).length < v.blockSize then v.blockBytes src block
    else v.blockBytes src block ++ stream rest

variable {v src}

end Volume

end Content

section Claims

variable {v : Volume} {src : Source} {inode : List UInt8} {depth : ℕ} {extents : List FileExtent}

end Claims

end Unearth.Ext
