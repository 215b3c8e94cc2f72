import Mathlib

/-!
# The latest of a list

Of entries with keys, the one with the greatest key is kept, and of more than one with this key
the last. The one that is kept has a property exactly when every entry without the property is
outdone by one that has it.
-/

namespace Unearth.Latest

variable {α : Type} (key : α → ℕ)

def keepLatest (best : Option α) (a : α) : Option α := if best.all fun b => key b ≤ key a then some a else best

def latest (l : List α) : Option α := l.foldl (keepLatest key) none

/-- An entry is outdone by one with a property: a later one behind it, or one before it with a greater key. -/
def Outdone (P : α → Prop) (before : List α) (a : α) (behind : List α) : Prop :=
  (∃ b ∈ before, P b ∧ key a < key b) ∨ ∃ b ∈ behind, P b ∧ key a ≤ key b

variable {key} {l : List α} {P : α → Prop}

theorem latest_concat (l : List α) (a : α) : latest key (l ++ [a]) = keepLatest key (latest key l) a := by
  rw [latest, List.foldl_concat, latest]

/-- What is kept has the greatest key, and a greater one than all that are behind it. -/
theorem latest_cases (key : α → ℕ) (l : List α) : l = [] ∧ latest key l = none ∨
    ∃ before a behind, l = before ++ a :: behind ∧ latest key l = some a ∧ (∀ b ∈ before, key b ≤ key a) ∧
      ∀ b ∈ behind, key b < key a := by
  induction l using List.reverseRecOn with
  | nil => exact .inl ⟨rfl, rfl⟩
  | append_singleton l c ih =>
    right
    rw [latest_concat, keepLatest]
    rcases ih with ⟨rfl, hnone⟩ | ⟨before, a, behind, rfl, hsome, hbefore, hbehind⟩
    · rw [hnone]
      exact ⟨[], c, [], rfl, rfl, by simp, by simp⟩
    · rw [hsome]
      by_cases hle : key a ≤ key c
      · refine ⟨before ++ a :: behind, c, [], rfl, by simp [hle], fun b hb => ?_, by simp⟩
        rcases List.mem_append.mp hb with hb | hb
        · exact (hbefore b hb).trans hle
        · rcases List.mem_cons.mp hb with rfl | hb
          · exact hle
          · exact (hbehind b hb).le.trans hle
      · refine ⟨before, a, behind ++ [c], by simp, by simp [hle], hbefore, fun b hb => ?_⟩
        rcases List.mem_append.mp hb with hb | hb
        · exact hbehind b hb
        · rw [List.mem_singleton.mp hb]
          omega

theorem latest_mem {a : α} (h : latest key l = some a) : a ∈ l ∧ ∀ b ∈ l, key b ≤ key a := by
  rcases latest_cases key l with ⟨-, hnone⟩ | ⟨before, c, behind, rfl, hsome, hbefore, hbehind⟩
  · rw [hnone] at h
    cases h
  · rw [hsome] at h
    cases h
    refine ⟨by simp, fun b hb => ?_⟩
    rcases List.mem_append.mp hb with hb | hb
    · exact hbefore b hb
    · rcases List.mem_cons.mp hb with rfl | hb
      · exact le_rfl
      · exact (hbehind b hb).le

/-- What is kept has a property if and only if every entry without it is outdone by one that has it. -/
theorem latest_satisfies_iff : (∀ a, latest key l = some a → P a) ↔
    ∀ before a behind, l = before ++ a :: behind → ¬ P a → Outdone key P before a behind := by
  rcases latest_cases key l with ⟨rfl, hnone⟩ | ⟨pre, c, post, rfl, hsome, hpre, hpost⟩
  · rw [hnone]
    refine iff_of_true (fun a h => (by cases h)) fun before a behind h => ?_
    exact absurd h.symm (by simp)
  constructor
  · intro h before a behind heq hnot
    have hc := h c hsome
    rcases List.append_eq_append_iff.mp heq with ⟨mid, hmid, hrest⟩ | ⟨mid, hmid, hrest⟩
    · cases mid with
      | nil =>
        cases hrest
        exact absurd hc hnot
      | cons d mid =>
        cases hrest
        exact .inl ⟨c, by simp [hmid], hc, hpost a (by simp)⟩
    · cases mid with
      | nil =>
        cases hrest
        exact absurd hc hnot
      | cons d mid =>
        cases hrest
        exact .inr ⟨c, by simp, hc, hpre a (by simp [hmid])⟩
  · intro h a ha
    rw [hsome] at ha
    cases ha
    by_contra hnot
    rcases h pre c post rfl hnot with ⟨b, hb, -, hlt⟩ | ⟨b, hb, -, hle⟩
    · exact absurd (hpre b hb) (by omega)
    · exact absurd (hpost b hb) (by omega)

end Unearth.Latest
