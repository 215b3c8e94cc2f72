import Mathlib

/-!
# Doubling and halving

The last place with a property is looked for by doubling a place until it does not have the
property, and then by halving what is left between a place that has it and one that does not. The
places that are asked are known beforehand, so that it is known which of them have to answer.
-/

namespace Unearth.Halving

variable (ok : ℕ → Bool)

/-- What halving `2 ^ k` places from `lo` on ends at. -/
def halve : ℕ → ℕ → ℕ
  | lo, 0 => lo
  | lo, k + 1 => if ok (lo + 2 ^ k) then halve (lo + 2 ^ k) k else halve lo k

/-- The last place before the power `k`. -/
def half : ℕ → ℕ
  | 0 => 0
  | k + 1 => 2 ^ k

/-- Doubling ends at the power `k`. -/
structure Stops (k : ℕ) : Prop where
  before : ∀ i < k, ok (2 ^ i) = true
  stop : ok (2 ^ k) = false

/-- What is found when doubling ends at the power `k`. -/
def found (k : ℕ) : ℕ := halve ok (half k) (k - 1)

variable {ok}

theorem le_halve (lo k : ℕ) : lo ≤ halve ok lo k := by
  induction k generalizing lo with
  | zero => exact le_rfl
  | succ k ih =>
    rw [halve]
    split_ifs
    · exact (Nat.le_add_right _ _).trans (ih _)
    · exact ih lo

theorem halve_lt (lo k : ℕ) : halve ok lo k < lo + 2 ^ k := by
  induction k generalizing lo with
  | zero => exact Nat.lt_succ_self lo
  | succ k ih =>
    have hpow : 2 ^ (k + 1) = 2 ^ k + 2 ^ k := by rw [Nat.pow_succ, Nat.mul_two]
    rw [halve]
    split_ifs
    · have hlt := ih (lo + 2 ^ k)
      omega
    · have hlt := ih lo
      have hpos := Nat.two_pow_pos k
      omega

theorem halve_ok {lo : ℕ} (k : ℕ) (h : ok lo = true) : ok (halve ok lo k) = true := by
  induction k generalizing lo with
  | zero => exact h
  | succ k ih =>
    rw [halve]
    split_ifs with hmid
    · exact ih hmid
    · exact ih h

/-- The last place is found when those places answer that have its leading digits. -/
theorem halve_eq_iff {lo k last a : ℕ} (hlo : ok lo = true) (ha : lo = a * 2 ^ k) (hle : lo ≤ last)
    (hlt : last < lo + 2 ^ k) (hend : ∀ m, last < m → ok m = false) :
    halve ok lo k = last ↔ ∀ i < k, ok (last / 2 ^ i * 2 ^ i) = true := by
  induction k generalizing lo a with
  | zero =>
    have heq : lo = last := by
      rw [Nat.pow_zero] at hlt
      omega
    exact ⟨fun _ i hi => absurd hi (Nat.not_lt_zero i), fun _ => heq⟩
  | succ k ih =>
    have hpow : 2 ^ (k + 1) = 2 ^ k + 2 ^ k := by rw [Nat.pow_succ, Nat.mul_two]
    have hall : (∀ i < k + 1, ok (last / 2 ^ i * 2 ^ i) = true) ↔
        ok (last / 2 ^ k * 2 ^ k) = true ∧ ∀ i < k, ok (last / 2 ^ i * 2 ^ i) = true := by
      refine ⟨fun h => ⟨h k (Nat.lt_succ_self k), fun i hi => h i (Nat.lt_succ_of_lt hi)⟩, ?_⟩
      rintro ⟨hk, h⟩ i hi
      obtain hi | rfl := Nat.lt_succ_iff_lt_or_eq.mp hi
      · exact h i hi
      · exact hk
    have hplace : ∀ c, c * 2 ^ k ≤ last → last < c * 2 ^ k + 2 ^ k → last / 2 ^ k * 2 ^ k = c * 2 ^ k := by
      intro c hc hc'
      have hdiv : last / 2 ^ k = c := by
        refine Nat.div_eq_of_lt_le hc ?_
        rw [Nat.succ_mul]
        exact hc'
      rw [hdiv]
    have hlo' : lo = (2 * a) * 2 ^ k := by
      rw [ha, hpow]
      ring
    have hmid : lo + 2 ^ k = (2 * a + 1) * 2 ^ k := by
      rw [hlo']
      ring
    rw [hall, halve]
    by_cases hside : lo + 2 ^ k ≤ last
    · have hdigits := hplace (2 * a + 1) (by omega) (by omega)
      rw [hdigits, ← hmid]
      split_ifs with hok
      · rw [ih hok hmid hside (by omega)]
        simp [hok]
      · have hshort := @halve_lt ok lo k
        exact iff_of_false (by omega) fun h => hok h.1
    · have hdigits := hplace (2 * a) (by omega) (by omega)
      rw [hdigits, ← hlo', if_neg (by simp [hend _ (not_le.mp hside)]), ih hlo hlo' hle (by omega)]
      simp [hlo]

theorem half_lt (k : ℕ) : half k < 2 ^ k := by
  cases k with
  | zero => exact Nat.one_pos
  | succ k => exact Nat.pow_lt_pow_right (by decide) (Nat.lt_succ_self k)

/-- What doubling has left has as many places as a power. -/
theorem half_add (k : ℕ) : half k + 2 ^ (k - 1) = 2 ^ k := by
  cases k with
  | zero => rfl
  | succ k => rw [half, Nat.add_sub_cancel, Nat.pow_succ, Nat.mul_two]

theorem found_ok {k : ℕ} (h : Stops ok k) (hfirst : ok 0 = true) : ok (found ok k) = true := by
  refine halve_ok _ ?_
  cases k with
  | zero => exact hfirst
  | succ k => exact h.before k (Nat.lt_succ_self k)

/-- Beyond the last place nothing goes on. -/
theorem exists_stops {last : ℕ} (hend : ∀ m, last < m → ok m = false) : ∃ k, Stops ok k := by
  have hsome : ∃ k, ok (2 ^ k) = false := ⟨last, hend _ Nat.lt_two_pow_self⟩
  refine ⟨Nat.find hsome, fun i hi => ?_, Nat.find_spec hsome⟩
  have hmin := Nat.find_min hsome hi
  rwa [Bool.not_eq_false] at hmin

/-- The last place is found when the powers before it answer, and the places with its leading digits. -/
theorem found_eq_iff {k last : ℕ} (h : Stops ok k) (hfirst : ok 0 = true) (hend : ∀ m, last < m → ok m = false) :
    found ok k = last ↔ (∀ i, 2 ^ i ≤ last → ok (2 ^ i) = true) ∧ ∀ i, ok (last / 2 ^ i * 2 ^ i) = true := by
  have hpow : ∀ i, 2 ^ (i + 1) = 2 ^ i + 2 ^ i := fun i => by rw [Nat.pow_succ, Nat.mul_two]
  have hbelow : found ok k < 2 ^ k := by
    have hlt := @halve_lt ok (half k) (k - 1)
    rwa [half_add] at hlt
  by_cases hstop : 2 ^ k ≤ last
  · constructor
    · intro hfound
      omega
    · rintro ⟨hpowers, -⟩
      have hok := hpowers k hstop
      rw [h.stop] at hok
      cases hok
  · have hpowers : ∀ i, 2 ^ i ≤ last → ok (2 ^ i) = true := by
      intro i hi
      refine h.before i ?_
      by_contra hik
      have hle := Nat.pow_le_pow_right (show 0 < 2 by decide) (not_lt.mp hik)
      omega
    have hzero : ∀ i, k ≤ i → last / 2 ^ i * 2 ^ i = 0 := by
      intro i hi
      have hle := Nat.pow_le_pow_right (show 0 < 2 by decide) hi
      rw [Nat.div_eq_of_lt (by omega), Nat.zero_mul]
    rw [and_iff_right hpowers]
    cases k with
    | zero =>
      have hlast : last = 0 := by
        rw [Nat.pow_zero] at hstop
        omega
      subst hlast
      refine ⟨fun _ i => ?_, fun _ => rfl⟩
      rw [hzero i (Nat.zero_le i)]
      exact hfirst
    | succ k =>
      have hle : 2 ^ k ≤ last := by
        by_contra hlt
        have hok := hend (2 ^ k) (not_le.mp hlt)
        rw [h.before k (Nat.lt_succ_self k)] at hok
        cases hok
      have hlast : last < 2 ^ k + 2 ^ k := by
        rw [← hpow]
        exact not_le.mp hstop
      have htop : last / 2 ^ k * 2 ^ k = 2 ^ k := by
        have hdiv : last / 2 ^ k = 1 := Nat.div_eq_of_lt_le (by omega) (by omega)
        rw [hdiv, Nat.one_mul]
      have hiff := halve_eq_iff (a := 1) (h.before k (Nat.lt_succ_self k)) (Nat.one_mul _).symm hle hlast hend
      unfold found
      rw [half, Nat.add_sub_cancel, hiff]
      refine ⟨fun hall i => ?_, fun hall i _ => hall i⟩
      obtain hi | hi := Nat.lt_or_ge i k
      · exact hall i hi
      obtain rfl | hi := hi.eq_or_lt
      · rw [htop]
        exact h.before k (Nat.lt_succ_self k)
      · rw [hzero i hi]
        exact hfirst

end Unearth.Halving
