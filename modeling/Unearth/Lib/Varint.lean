import Unearth.Lib.Signed

/-!
# Numbers in digits of seven bits

A number is written in digits of seven bits, the lowest first; the top bit of a byte says that
another one follows. Signed numbers alternate between the even and the odd ones.
-/

namespace Unearth.Varint
open Signed

def bytes : List (Fin 128) → List UInt8
  | [] => []
  | [d] => [UInt8.ofNat d]
  | d :: e :: l => UInt8.ofNat (d + 128) :: bytes (e :: l)

def value : List (Fin 128) → ℕ
  | [] => 0
  | d :: l => d + 128 * value l

theorem length_bytes (l : List (Fin 128)) : (bytes l).length = l.length := by
  induction l with
  | nil => rfl
  | cons d l ih =>
    cases l with
    | nil => rfl
    | cons e l => rw [bytes, List.length_cons, ih, List.length_cons, List.length_cons, List.length_cons]

/-- The shortest digits of a number. -/
def digits (n : ℕ) : List (Fin 128) :=
  if h : n < 128 then [⟨n, h⟩] else ⟨n % 128, Nat.mod_lt n (by decide)⟩ :: digits (n / 128)

theorem digits_ne (n : ℕ) : digits n ≠ [] := by
  rw [digits]
  split_ifs <;> exact List.cons_ne_nil _ _

theorem value_digits (n : ℕ) : value (digits n) = n := by
  induction n using Nat.strong_induction_on with
  | _ n ih =>
    rw [digits]
    split_ifs with h
    · simp [value]
    · rw [value, ih (n / 128) (by omega)]
      dsimp only
      omega

theorem length_digits {k n : ℕ} (h : n < 128 ^ (k + 1)) : (digits n).length ≤ k + 1 := by
  induction k generalizing n with
  | zero =>
    rw [digits, dif_pos (by omega)]
    exact le_rfl
  | succ k ih =>
    rw [digits]
    split_ifs with hlt
    · exact Nat.le_add_left 1 _
    · rw [List.length_cons]
      have hdiv : n / 128 < 128 ^ (k + 1) := Nat.div_lt_of_lt_mul (by rwa [Nat.pow_succ'] at h)
      exact Nat.succ_le_succ (ih hdiv)

/-- The even numbers are those that are not negative. -/
def zigzag (x : ℤ) : ℕ := if 0 ≤ x then (2 * x).toNat else (-2 * x - 1).toNat

def unzigzag (n : ℕ) : ℤ := if n % 2 = 0 then (n / 2 : ℕ) else -(n / 2 : ℕ) - 1

theorem unzigzag_zigzag (x : ℤ) : unzigzag (zigzag x) = x := by
  unfold unzigzag zigzag
  split_ifs <;> omega

theorem zigzag_lt {x : ℤ} (h : InRange x) : zigzag x < 2 ^ 64 := by
  obtain ⟨hlow, hhigh⟩ := h
  unfold zigzag
  split_ifs <;> omega

/-- Digits that are set above a number are added to it, up to the end of the word. -/
theorem or_shift {n s : ℕ} (d : ℕ) (hn : n < 2 ^ s) (hs : s ≤ 64) :
    n ||| (d <<< s) % 2 ^ 64 = (n + d * 2 ^ s) % 2 ^ 64 := by
  have hword : 2 ^ 64 = 2 ^ s * 2 ^ (64 - s) := by rw [← Nat.pow_add, Nat.add_sub_cancel' hs]
  have hmod : (d <<< s) % 2 ^ 64 = 2 ^ s * (d % 2 ^ (64 - s)) := by
    rw [Nat.shiftLeft_eq, Nat.mul_comm, hword, Nat.mul_mod_mul_left]
  have hdigit : d % 2 ^ (64 - s) + 1 ≤ 2 ^ (64 - s) := Nat.mod_lt d (Nat.two_pow_pos _)
  have hlt : n + 2 ^ s * (d % 2 ^ (64 - s)) < 2 ^ 64 := by
    calc n + 2 ^ s * (d % 2 ^ (64 - s)) < 2 ^ s * (d % 2 ^ (64 - s) + 1) := by
          rw [Nat.mul_add]
          omega
      _ ≤ 2 ^ 64 := by
          rw [hword]
          exact Nat.mul_le_mul_left _ hdigit
  rw [hmod, Nat.or_comm, ← Nat.two_pow_add_eq_or_of_lt hn, Nat.add_comm, ← Nat.mod_eq_of_lt hlt, ← hmod,
    Nat.shiftLeft_eq, Nat.add_mod_mod]

/-- What the shift and the exclusive or of words make of a number. -/
theorem unzigzag_word {n : ℕ} (h : n < 2 ^ 64) :
    ((BitVec.ofNat 64 n >>> 1) ^^^ -(BitVec.ofNat 64 n &&& 1)).toInt = unzigzag n := by
  have hhalf : (BitVec.ofNat 64 n >>> 1).toNat = n / 2 := by
    rw [BitVec.toNat_ushiftRight, BitVec.toNat_ofNat, Nat.mod_eq_of_lt h, Nat.shiftRight_eq_div_pow]
  have hbit : (BitVec.ofNat 64 n &&& 1).toNat = n % 2 := by
    rw [BitVec.toNat_and, BitVec.toNat_ofNat, Nat.mod_eq_of_lt h]
    exact Nat.and_one_is_mod n
  unfold unzigzag
  by_cases heven : n % 2 = 0
  · have hzero : BitVec.ofNat 64 n &&& 1 = 0 := BitVec.eq_of_toNat_eq (by rw [hbit, heven]; rfl)
    have hnone : -(0 : BitVec 64) = 0#64 := by decide
    rw [if_pos heven, hzero, hnone, BitVec.xor_zero, BitVec.toInt_eq_toNat_of_lt (by rw [hhalf]; omega), hhalf]
  · have hone : BitVec.ofNat 64 n &&& 1 = 1 := by
      refine BitVec.eq_of_toNat_eq ?_
      rw [hbit]
      change n % 2 = 1
      omega
    have hall : -(1 : BitVec 64) = BitVec.allOnes 64 := BitVec.neg_one_eq_allOnes
    rw [if_neg heven, hone, hall, BitVec.xor_allOnes, BitVec.toInt_eq_toNat_cond, BitVec.toNat_not, hhalf,
      if_neg (by omega)]
    omega

end Unearth.Varint
