import Mathlib

/-!
# Following links

Every element may lead to another one. A chain of links comes back to an element only when it has
no end, and then not before it has been at all the elements that it reaches.
-/

namespace Unearth.Orbit

variable {α : Type} (next : α → Option α) (start : Option α)

/-- Where a number of links lead. -/
def link : ℕ → Option α
  | 0 => start
  | n + 1 => (link n).bind next

def reached : Set α := {a | ∃ n, link next start n = some a}

/-- No element comes twice at the first `n` places. -/
def Apart (n : ℕ) : Prop :=
  ∀ i < n, ∀ j < n, ∀ a, link next start i = some a → link next start j = some a → i = j

variable {next start}

/-- From the same element on the links are the same. -/
theorem link_add {i j : ℕ} (h : link next start i = link next start j) (k : ℕ) :
    link next start (i + k) = link next start (j + k) := by
  induction k with
  | zero => exact h
  | succ k ih =>
    rw [← Nat.add_assoc, ← Nat.add_assoc, link, link, ih]

theorem link_none {i : ℕ} (h : link next start i = none) (k : ℕ) : link next start (i + k) = none := by
  induction k with
  | zero => exact h
  | succ k ih => rw [← Nat.add_assoc, link, ih, Option.bind_none]

/-- A chain that comes back has no end. -/
theorem link_return {i p : ℕ} (hp : 0 < p) (h : link next start (i + p) = link next start i) {a : α}
    (ha : link next start i = some a) (n : ℕ) : link next start n ≠ none := by
  intro hn
  have hround : ∀ k, link next start (i + k * p) = some a := by
    intro k
    induction k with
    | zero => rwa [Nat.zero_mul]
    | succ k ih =>
      have hnext := link_add h (k * p)
      rw [ih] at hnext
      rw [Nat.succ_mul, Nat.add_comm (k * p), ← Nat.add_assoc]
      exact hnext
  have hle : n ≤ i + n * p := (Nat.le_mul_of_pos_right n hp).trans (Nat.le_add_left _ _)
  have hlate := link_none hn (i + n * p - n)
  rw [Nat.add_sub_cancel' hle, hround n] at hlate
  cases hlate

/-- It has been everywhere before it comes back. -/
theorem exists_link_lt {i j : ℕ} (hij : i < j) (h : link next start i = link next start j) (n : ℕ) :
    ∃ m < j, link next start m = link next start n := by
  induction n using Nat.strong_induction_on with
  | _ n ih =>
    by_cases hn : n < j
    · exact ⟨n, hn, rfl⟩
    · obtain ⟨m, hm, hlink⟩ := ih (i + (n - j)) (by omega)
      refine ⟨m, hm, hlink.trans ?_⟩
      have hadd := link_add h (n - j)
      rwa [Nat.add_sub_cancel' (not_lt.mp hn)] at hadd

theorem encard_reached_le {i j : ℕ} (hij : i < j) (h : link next start i = link next start j) :
    (reached next start).encard ≤ j := by
  have hsub : some '' reached next start ⊆ link next start '' Set.Iio j := by
    rintro _ ⟨a, ⟨n, hn⟩, rfl⟩
    obtain ⟨m, hm, hlink⟩ := exists_link_lt hij h n
    exact ⟨m, hm, hlink.trans hn⟩
  calc (reached next start).encard = (some '' reached next start).encard :=
        ((Option.some_injective α).encard_image _).symm
    _ ≤ (link next start '' Set.Iio j).encard := Set.encard_le_encard hsub
    _ ≤ (Set.Iio j).encard := Set.encard_image_le _ _
    _ = j := by rw [← Finset.coe_range, Set.encard_coe_eq_coe_finsetCard, Finset.card_range]

theorem le_encard_reached {n : ℕ} (h : Apart next start n) (hsome : ∀ i, link next start i ≠ none) :
    (n : ℕ∞) ≤ (reached next start).encard := by
  have hsub : link next start '' Set.Iio n ⊆ some '' reached next start := by
    rintro _ ⟨i, -, rfl⟩
    obtain ⟨a, ha⟩ := Option.ne_none_iff_exists'.mp (hsome i)
    exact ⟨a, ⟨i, ha⟩, ha.symm⟩
  have hinj : Set.InjOn (link next start) (Set.Iio n) := by
    intro i hi j hj heq
    obtain ⟨a, ha⟩ := Option.ne_none_iff_exists'.mp (hsome i)
    exact h i hi j hj a ha (heq ▸ ha)
  calc (n : ℕ∞) = (Set.Iio n).encard := by
        rw [← Finset.coe_range, Set.encard_coe_eq_coe_finsetCard, Finset.card_range]
    _ = (link next start '' Set.Iio n).encard := hinj.encard_image.symm
    _ ≤ (some '' reached next start).encard := Set.encard_le_encard hsub
    _ = (reached next start).encard := (Option.some_injective α).encard_image _

/-- The first places are apart when the chain ends, and else as far as there are elements. -/
theorem apart_iff {n : ℕ} :
    Apart next start n ↔ (∃ i, link next start i = none) ∨ (n : ℕ∞) ≤ (reached next start).encard := by
  constructor
  · intro h
    by_cases hnone : ∃ i, link next start i = none
    · exact .inl hnone
    · exact .inr (le_encard_reached h (not_exists.mp hnone))
  · intro h
    have hne : ∀ i j, i < j → j < n → ∀ a, link next start i = some a → link next start j ≠ some a := by
      intro i j hij hj a hi heq
      have hsame : link next start i = link next start j := hi.trans heq.symm
      obtain ⟨m, hm⟩ | hle := h
      · refine link_return (Nat.sub_pos_of_lt hij) ?_ hi m hm
        rw [Nat.add_sub_cancel' hij.le, hsame]
      · have hlt := hle.trans (encard_reached_le hij hsame)
        rw [Nat.cast_le] at hlt
        omega
    intro i hi j hj a ha hb
    by_contra hij
    obtain hlt | hlt := Nat.lt_or_gt_of_ne hij
    · exact hne i j hlt hj a ha hb
    · exact hne j i hlt hi a hb ha

end Unearth.Orbit
