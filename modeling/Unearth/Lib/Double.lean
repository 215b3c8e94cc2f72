import Unearth.Lib.Decimal

/-!
# Doubles

A rational is rounded to the nearest double, and between two to the one with the even
significand. One that would be too large has no finite double. The text of a number is read as
the exact value that it states first.
-/

namespace Unearth.Double
open Lines Decimal

/-- The nearest integer, and of two the even one. -/
def roundEven (x : ℚ) : ℤ :=
  if Int.fract x < 1 / 2 then ⌊x⌋
  else if 1 / 2 < Int.fract x then ⌊x⌋ + 1
  else if 2 ∣ ⌊x⌋ then ⌊x⌋ else ⌊x⌋ + 1

/-- The power of two that the significand counts: 53 bits, or fewer at the lower end. -/
def scale (x : ℚ) : ℤ := max (Int.log 2 |x| - 52) (-1074)

def nearest (x : ℚ) : ℚ := roundEven (x / 2 ^ scale x) * 2 ^ scale x

def finite (x : ℚ) : Option ℚ := if |nearest x| < 2 ^ 1024 then some (nearest x) else none

def signed (neg : Bool) (x : ℚ) : ℚ := if neg then -x else x

/-- The sign of a text, and what is behind it. -/
def takeSign : Text → Bool × Text
  | '-' :: t => (true, t)
  | '+' :: t => (false, t)
  | t => (false, t)

/-- The power of ten at the end of a number. -/
def tailExponent : Text → Option ℤ
  | [] => some 0
  | c :: t =>
    let (neg, digits) := takeSign t
    if (c = 'e' ∨ c = 'E') ∧ digits ≠ [] ∧ digits.all Char.isDigit then
      some (if neg then -(Nat.ofDigitChars 10 digits 0 : ℤ) else Nat.ofDigitChars 10 digits 0)
    else none

/-- The digits behind a point, and what is behind those. -/
def takeFraction : Text → Text × Text
  | '.' :: t => (t.takeWhile Char.isDigit, t.dropWhile Char.isDigit)
  | t => ([], t)

/-- The exact value of a number in digits, with a point, a power of ten and signs as they come. -/
def exactValue (t : Text) : Option ℚ :=
  let (neg, t) := takeSign t
  let whole := t.takeWhile Char.isDigit
  let (frac, tail) := takeFraction (t.dropWhile Char.isDigit)
  if whole = [] ∧ frac = [] then none
  else (tailExponent tail).map fun e : ℤ =>
    signed neg (Nat.ofDigitChars 10 (whole ++ frac) 0 * 10 ^ (e - frac.length))

/-- The double of a text; of a number that is too large it is not finite. -/
def parseDouble (t : Text) : Option (Option ℚ) := (exactValue t).map finite

theorem roundEven_intCast (k : ℤ) : roundEven k = k := by
  rw [roundEven, Int.fract_intCast, if_pos (by norm_num), Int.floor_intCast]

/-- The integers of 53 bits are doubles. -/
theorem nearest_intCast {n : ℤ} (h : n.natAbs < 2 ^ 53) : nearest n = n := by
  have habs : |(n : ℚ)| = (n.natAbs : ℚ) := by rw [← Int.cast_abs, Int.abs_eq_natAbs, Int.cast_natCast]
  have hlog : Nat.log 2 n.natAbs ≤ 52 := by
    rcases Nat.eq_zero_or_pos n.natAbs with hzero | hpos
    · rw [hzero]
      decide
    · exact Nat.lt_succ_iff.mp (Nat.log_lt_of_lt_pow hpos.ne' h)
  have hscale : scale n ≤ 0 := by
    rw [scale, habs, Int.log_natCast]
    omega
  obtain ⟨k, hk⟩ := Int.eq_ofNat_of_zero_le (Int.neg_nonneg_of_nonpos hscale)
  have hpow : (2 : ℚ) ^ scale n = ((2 : ℚ) ^ k)⁻¹ := by
    rw [show scale n = -(k : ℤ) by omega, zpow_neg, zpow_natCast]
  have hquot : (n : ℚ) / 2 ^ scale n = ((n * 2 ^ k : ℤ) : ℚ) := by
    rw [hpow, div_inv_eq_mul]
    push_cast
    rfl
  rw [nearest, hquot, roundEven_intCast, hpow]
  push_cast
  exact mul_inv_cancel_right₀ (by positivity) _

theorem finite_intCast {n : ℤ} (h : n.natAbs < 2 ^ 53) : finite n = some (n : ℚ) := by
  have habs : |(n : ℚ)| = (n.natAbs : ℚ) := by rw [← Int.cast_abs, Int.abs_eq_natAbs, Int.cast_natCast]
  rw [finite, nearest_intCast h, if_pos]
  rw [habs]
  calc (n.natAbs : ℚ) < ((2 ^ 53 : ℕ) : ℚ) := by exact_mod_cast h
    _ ≤ 2 ^ 1024 := by
      rw [Nat.cast_pow, Nat.cast_ofNat]
      exact pow_le_pow_right₀ one_le_two (by decide)

theorem nearest_of_multiple {x : ℚ} {k : ℤ} (h : x = k * 2 ^ scale x) : nearest x = x := by
  have hquot : x / 2 ^ scale x = k := by
    rw [div_eq_iff (by positivity)]
    exact h
  rw [nearest, hquot, roundEven_intCast]
  exact h.symm

theorem roundEven_le {x : ℚ} {n : ℕ} (h : |x| < n) : |roundEven x| ≤ n := by
  obtain ⟨hlow, hhigh⟩ := abs_lt.mp h
  have hfloor : ⌊x⌋ < n := Int.floor_lt.mpr hhigh
  have hfloor' : -(n : ℤ) ≤ ⌊x⌋ := Int.le_floor.mpr (by exact_mod_cast hlow.le)
  unfold roundEven
  split_ifs <;> exact abs_le.mpr ⟨by omega, by omega⟩

/-- A significand that is rounded up to the next power of two loses its last bit. -/
theorem nearest_nearest (x : ℚ) : nearest (nearest x) = nearest x := by
  have hpos : (0 : ℚ) < 2 ^ scale x := by positivity
  have hsmall : |x / 2 ^ scale x| < (2 ^ 53 : ℕ) := by
    rw [abs_div, abs_of_pos hpos, div_lt_iff₀ hpos]
    have hlog : |x| < (2 : ℚ) ^ (Int.log 2 |x| + 1) := Int.lt_zpow_succ_log_self one_lt_two _
    refine hlog.trans_le ?_
    rw [Nat.cast_pow, Nat.cast_ofNat, ← zpow_natCast, ← zpow_add₀ two_ne_zero]
    exact zpow_le_zpow_right₀ one_le_two (by unfold scale; push_cast; omega)
  have hround := roundEven_le hsmall
  have hlow : -1074 ≤ scale x := le_max_right _ _
  generalize hk : roundEven (x / 2 ^ scale x) = k at hround
  have hq : nearest x = k * 2 ^ scale x := by rw [nearest, hk]
  have habs : |nearest x| = |(k : ℚ)| * 2 ^ scale x := by rw [hq, abs_mul, abs_of_pos hpos]
  rcases hround.lt_or_eq with hlt | heq
  · by_cases hzero : k = 0
    · refine nearest_of_multiple (k := 0) ?_
      rw [hq, hzero, Int.cast_zero, zero_mul, zero_mul]
    · have hne : 0 < |nearest x| := by
        rw [habs]
        exact mul_pos (abs_pos.mpr (Int.cast_ne_zero.mpr hzero)) hpos
      have hlog : Int.log 2 |nearest x| < scale x + 53 := by
        refine (Int.lt_zpow_iff_log_lt one_lt_two hne).mp ?_
        rw [habs, Nat.cast_ofNat, zpow_add₀ (two_ne_zero' ℚ), mul_comm]
        refine mul_lt_mul_of_pos_left ?_ hpos
        have hcast : |(k : ℚ)| < ((2 ^ 53 : ℕ) : ℚ) := by exact_mod_cast hlt
        exact hcast.trans_le (by norm_num)
      have hscale : scale (nearest x) ≤ scale x := max_le (by omega) hlow
      obtain ⟨d, hd⟩ := Int.le.dest hscale
      refine nearest_of_multiple (k := k * 2 ^ d) ?_
      have hpow : (2 : ℚ) ^ scale x = 2 ^ scale (nearest x) * 2 ^ d := by
        rw [← hd, zpow_add₀ (two_ne_zero' ℚ), zpow_natCast]
      nth_rewrite 1 [hq]
      rw [hpow]
      push_cast
      ring
  · have hcast : |(k : ℚ)| = 2 ^ (53 : ℤ) := by
      have h : |(k : ℚ)| = ((2 ^ 53 : ℕ) : ℚ) := by exact_mod_cast heq
      rw [h]
      norm_num
    have hscale : scale (nearest x) = scale x + 1 := by
      have hlog : Int.log 2 ((2 : ℚ) ^ (53 + scale x)) = 53 + scale x := Int.log_zpow one_lt_two _
      rw [scale, habs, hcast, ← zpow_add₀ (two_ne_zero' ℚ), hlog]
      omega
    have heven : ∃ m : ℤ, k = 2 * m := by
      rcases abs_choice k with h | h <;> rw [h] at heq
      · exact ⟨2 ^ 52, by rw [heq]; norm_num⟩
      · exact ⟨-2 ^ 52, by push_cast at heq; omega⟩
    obtain ⟨m, hm⟩ := heven
    refine nearest_of_multiple (k := m) ?_
    rw [hscale, hq, hm, zpow_add_one₀ two_ne_zero]
    push_cast
    ring

/-- What a text is read as is a double. -/
theorem finite_of_finite {x q : ℚ} (h : finite x = some q) : finite q = some q := by
  unfold finite at h
  split_ifs at h with hlt
  cases h
  rw [finite, nearest_nearest, if_pos hlt]

end Unearth.Double
