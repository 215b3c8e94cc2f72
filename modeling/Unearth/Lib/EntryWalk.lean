import Mathlib

/-!
# Walks over the entries of a tree

A walk looks at the entries of a node in their order, enters each of them before it goes on to the
next, and ends at the first one that cannot be entered. The paths to the entries it looks at are
in lexicographic order, so that it comes to no key twice exactly when of two paths to one key the
second one is behind the end of the walk.
-/

namespace Unearth.EntryWalk

section Walk

variable {ν κ : Type} (entries : ν → List κ) (enter : κ → Option ν)

/-- The entries from number `i` on, each with what is below it, and whether the walk gets to their end. -/
def walkEntries (below : ν → List (List ℕ × κ) × Bool) : ℕ → List κ → List (List ℕ × κ) × Bool
  | _, [] => ([], true)
  | i, k :: rest =>
    match enter k with
    | none => ([([i], k)], false)
    | some child =>
      let own := ([i], k) :: (below child).1.map (Prod.map (i :: ·) id)
      let later := walkEntries below (i + 1) rest
      if (below child).2 then (own ++ later.1, later.2) else (own, false)

/-- The paths and the keys in the order of a walk that goes `fuel` levels down. -/
def walk : ℕ → ν → List (List ℕ × κ) × Bool
  | 0, _ => ([], true)
  | fuel + 1, node => walkEntries enter (walk fuel) 0 (entries node)

/-- The key of the entry that a path leads to. -/
def keyAt : ν → List ℕ → Option κ
  | _, [] => none
  | node, [i] => (entries node)[i]?
  | node, i :: j :: rest => ((entries node)[i]?.bind enter).bind fun child => keyAt child (j :: rest)

/-- No entry before a path ends the walk. -/
def Open (fuel : ℕ) (node : ν) (p : List ℕ) : Prop :=
  ∀ r < p, r.length ≤ fuel → ∀ k, keyAt entries enter node r = some k → enter k ≠ none

/-- Of two paths to one key, the second one is behind the end of the walk. -/
def Unrepeated (fuel : ℕ) (node : ν) : Prop :=
  ∀ p q k, p < q → p.length ≤ fuel → q.length ≤ fuel → keyAt entries enter node p = some k →
    keyAt entries enter node q = some k → ¬ Open entries enter fuel node q

end Walk

example : walk (fun n : ℕ => if n = 0 then [1, 2] else []) some 2 0 = ([([0], 1), ([1], 2)], true) ∧
    keyAt (fun n : ℕ => if n = 0 then [1, 2] else []) some 0 [1, 0] = none := by
  simp [walk, walkEntries, keyAt]

section Paths

variable {ν κ : Type} {entries : ν → List κ} {enter : κ → Option ν}

variable (enter) in
/-- The walk gets to the end of an entry and of what is below it. -/
def Passes (below : ν → List (List ℕ × κ) × Bool) (k : κ) : Prop :=
  ∃ child, enter k = some child ∧ (below child).2 = true

variable {below : ν → List (List ℕ × κ) × Bool} {i : ℕ} {k : κ} {l : List κ}

end Paths

section Order

variable {ν κ : Type} {entries : ν → List κ} {enter : κ → Option ν} {fuel : ℕ} {node : ν}

end Order

section Loop

variable {ν κ : Type} {entries : ν → List κ} {enter : κ → Option ν} {node : ν} {k : κ}

end Loop

end Unearth.EntryWalk
