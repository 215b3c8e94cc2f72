import Mathlib

/-!
# Two's complement on the integers

A word of 64 bits read as a signed number, and the sign extension of a shorter one: what
the shift to the left end of the word and the arithmetic shift back compute.
-/

namespace Unearth.Signed

/-- The signed number of a 64-bit word. -/
def toSigned (x : ℕ) : ℤ := if x < 2 ^ 63 then x else x - 2 ^ 64

/-- The signed number of `k` bytes that make the number `n`. -/
def signed (k n : ℕ) : ℤ := if n < 2 ^ (8 * k - 1) then n else n - 2 ^ (8 * k)

def InRange (x : ℤ) : Prop := -2 ^ 63 ≤ x ∧ x < 2 ^ 63

instance (x : ℤ) : Decidable (InRange x) := inferInstanceAs (Decidable (_ ∧ _))

theorem shift_back {k s : ℕ} (hk : 0 < k) (hs : 8 * k + s = 64) {n : ℕ} (hn : n < 2 ^ (8 * k)) :
    toSigned (n * 2 ^ s % 2 ^ 64) / 2 ^ s = signed k n := by
  have hword : 2 ^ (8 * k) * 2 ^ s = 2 ^ 64 := by rw [← pow_add, hs]
  have hhalf : 2 ^ (8 * k - 1) * 2 ^ s = 2 ^ 63 := by
    rw [← pow_add]
    congr 1
    omega
  have hpos : 0 < 2 ^ s := Nat.two_pow_pos s
  have hne : (2 : ℤ) ^ s ≠ 0 := by positivity
  have hlt : n * 2 ^ s < 2 ^ 64 := by
    rw [← hword]
    exact Nat.mul_lt_mul_of_pos_right hn hpos
  rw [Nat.mod_eq_of_lt hlt]
  unfold toSigned signed
  by_cases hsmall : n < 2 ^ (8 * k - 1)
  · have hsmall' : n * 2 ^ s < 2 ^ 63 := by
      rw [← hhalf]
      exact Nat.mul_lt_mul_of_pos_right hsmall hpos
    rw [if_pos hsmall', if_pos hsmall]
    push_cast
    exact Int.mul_ediv_cancel _ hne
  · have hlarge : ¬ n * 2 ^ s < 2 ^ 63 := by
      rw [← hhalf, not_lt]
      exact Nat.mul_le_mul_right _ (not_lt.mp hsmall)
    have hword' : (2 : ℤ) ^ 64 = 2 ^ (8 * k) * 2 ^ s := by exact_mod_cast hword.symm
    rw [if_neg hlarge, if_neg hsmall, hword']
    push_cast
    rw [← sub_mul]
    exact Int.mul_ediv_cancel _ hne

/-- A number that fits in `k` bytes is the signed number of its last digits. -/
theorem signed_emod {k : ℕ} (hk : 0 < k) {d : ℤ} (hlow : -2 ^ (8 * k - 1) ≤ d) (hhigh : d < 2 ^ (8 * k - 1)) :
    signed k (d % 2 ^ (8 * k)).toNat = d := by
  have hword : (2 : ℤ) ^ (8 * k) = 2 * 2 ^ (8 * k - 1) := by
    rw [← pow_succ', Nat.sub_add_cancel (by omega)]
  have hhalf : ((2 ^ (8 * k - 1) : ℕ) : ℤ) = 2 ^ (8 * k - 1) := by push_cast; rfl
  unfold signed
  by_cases hneg : d < 0
  · have hmod : d % 2 ^ (8 * k) = d + 2 ^ (8 * k) := by
      rw [← Int.add_emod_right, Int.emod_eq_of_lt (by omega) (by omega)]
    rw [hmod, if_neg (by omega), Int.toNat_of_nonneg (by omega), add_sub_cancel_right]
  · have hmod : d % 2 ^ (8 * k) = d := Int.emod_eq_of_lt (by omega) (by omega)
    rw [hmod, if_pos (by omega), Int.toNat_of_nonneg (by omega)]

end Unearth.Signed
