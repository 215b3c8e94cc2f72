import Unearth.FatWalk

/-!
# The start of a deleted entry that has lost its upper half

The candidates are the clusters with the lower half that is left, as far as the table says
that they are free. A directory is known by its first entry. For a file the type of its
first bytes decides, then the number of free clusters ahead, then the distance to its
directory.
-/

namespace Unearth.Fat.Volume
open Lines Bytes Word Post

section Spec

variable (identify : List UInt8 → Option Text) (b : Build) (v : Volume) (src : Source) (entry : ParsedEntry)
  (parent max : ℕ)

def extension : Text :=
  if '.' ∈ entry.name then asciiLowercase (entry.name.reverse.takeWhile (· ≠ '.')).reverse else []

def needed : ℕ := min (Max.max (divCeil entry.size v.clusterBytes) 1) 4096
end Spec

section Reads

variable {b : Build} {v : Volume} {src : Source} {max : ℕ}

end Reads

section Choice

variable {b : Build} {v : Volume} {src : Source} {max parent needed : ℕ}

/-- A key that is no better than another one: fewer free clusters, or as many and no nearer. -/
def NoBetter (k' k : ℕ × ℕ) : Prop := k'.1 < k.1 ∨ (k'.1 = k.1 ∧ k.2 ≤ k'.2)

theorem NoBetter.refl (k : ℕ × ℕ) : NoBetter k k := .inr ⟨rfl, le_rfl⟩

theorem NoBetter.trans {k₁ k₂ k₃ : ℕ × ℕ} (h : NoBetter k₁ k₂) (h' : NoBetter k₂ k₃) : NoBetter k₁ k₃ := by
  unfold NoBetter at *
  omega

end Choice

section Resolve

variable {identify : List UInt8 → Option Text} {b : Build} {v : Volume} {src : Source} {entry : ParsedEntry}
  {parent max c : ℕ}

end Resolve

/-- A volume of 196606 clusters, and the entries of the first three of them: only the last is
free. -/
def wideSource : Source where
  data := [0xEB, 0, 0, 0, 0, 0, 0, 0, 0, 0, 0, 0, 2, 1, 1, 0, 1] ++ List.replicate 15 0 ++
    [0, 0, 3, 0, 1, 0, 0, 0] ++ List.replicate 472 0 ++ List.replicate 8 0xFF ++ [0, 0, 0, 0]
  size_lt := by decide +kernel

end Unearth.Fat.Volume
