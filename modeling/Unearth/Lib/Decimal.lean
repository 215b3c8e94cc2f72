import Unearth.Lib.Lines

/-!
# Numerals of a 64-bit word

`decimal` prints a number without leading zeros and `parseU64` reads one the way
`str::parse::<u64>` does: an optional plus sign, at least one digit, no overflow.
A numeral that is cut short is still a numeral: its value loses the last digits.
`parseOctal` reads octal digits in the same way.
-/

namespace Unearth.Decimal
open Lines

def decimal (n : ℕ) : Text := Nat.toDigits 10 n

def digitsOf (t : Text) : Text :=
  match t with
  | '+' :: ds => ds
  | ds => ds

def parseU64 (t : Text) : Option ℕ :=
  let ds := digitsOf t
  if ds = [] ∨ ¬ ds.all Char.isDigit then none
  else if Nat.ofDigitChars 10 ds 0 < 2 ^ 64 then some (Nat.ofDigitChars 10 ds 0)
  else none

theorem isDigit_of_mem_decimal {n : ℕ} {c : Char} (h : c ∈ decimal n) : c.isDigit :=
  Nat.isDigit_of_mem_toDigits (by decide) le_rfl h

theorem isWhitespace_of_isDigit {c : Char} (h : c.isDigit) : isWhitespace c = false := by
  simp only [Char.isDigit, Bool.and_eq_true, decide_eq_true_eq, UInt32.le_iff_toNat_le] at h
  have h₁ : 48 ≤ c.toNat := h.1
  have h₂ : c.toNat ≤ 57 := h.2
  simp only [isWhitespace, Bool.or_eq_false_iff, Bool.and_eq_false_iff, decide_eq_false_iff_not,
    beq_eq_false_iff_ne]
  omega

theorem decimal_token (n : ℕ) : Token (decimal n) :=
  ⟨Nat.toDigits_ne_nil, fun _ hc => isWhitespace_of_isDigit (isDigit_of_mem_decimal hc)⟩

theorem digitsOf_eq {t : Text} (h : ∀ c ∈ t, c.isDigit) : digitsOf t = t := by
  unfold digitsOf
  split
  · have := h '+' (by simp)
    simp at this
  · rfl

theorem parseU64_digits {t : Text} (hne : t ≠ []) (h : ∀ c ∈ t, c.isDigit)
    (hlt : Nat.ofDigitChars 10 t 0 < 2 ^ 64) : parseU64 t = some (Nat.ofDigitChars 10 t 0) := by
  unfold parseU64
  simp only [digitsOf_eq h]
  rw [if_neg, if_pos hlt]
  simp only [hne, false_or, not_not, List.all_eq_true]
  exact h

@[simp]
theorem ofDigitChars_decimal (n : ℕ) : Nat.ofDigitChars 10 (decimal n) 0 = n :=
  Nat.ofDigitChars_toDigits (by decide) le_rfl

theorem parseU64_decimal {n : ℕ} (h : n < 2 ^ 64) : parseU64 (decimal n) = some n := by
  have hp := parseU64_digits (decimal_token n).1 (fun _ hc => isDigit_of_mem_decimal hc)
    (by rwa [ofDigitChars_decimal])
  rwa [ofDigitChars_decimal] at hp

theorem decimal_of_ge {n : ℕ} (h : 10 ≤ n) :
    decimal n = decimal (n / 10) ++ [Nat.digitChar (n % 10)] :=
  Nat.toDigits_of_base_le (by decide) h

theorem decimal_length_pos (n : ℕ) : 0 < (decimal n).length := Nat.length_toDigits_pos

/-- Cutting the last `k` digits divides by the `k`-th power of ten. -/
theorem take_decimal {n k : ℕ} (h : k < (decimal n).length) :
    (decimal n).take ((decimal n).length - k) = decimal (n / 10 ^ k) := by
  induction k generalizing n with
  | zero => simp
  | succ k ih =>
    have hn : 10 ≤ n := by
      by_contra hlt
      rw [decimal, Nat.toDigits_of_lt_base (by omega)] at h
      simp at h
    have hlen : (decimal n).length = (decimal (n / 10)).length + 1 := by
      rw [decimal_of_ge hn]; simp
    have hk := ih (n := n / 10) (by omega)
    rw [Nat.div_div_eq_div_mul, ← pow_succ'] at hk
    rw [← hk, hlen, decimal_of_ge hn, Nat.add_sub_add_right, List.take_append_of_le_length (by omega)]

theorem lt_pow_length (n : ℕ) : n < 10 ^ (decimal n).length :=
  (Nat.length_toDigits_le_iff (by decide) (decimal_length_pos n)).mp le_rfl

theorem div_pow_eq_zero {n k : ℕ} (h : (decimal n).length ≤ k) : n / 10 ^ k = 0 :=
  Nat.div_eq_of_lt (lt_of_lt_of_le (lt_pow_length n) (Nat.pow_le_pow_right (by decide) h))

/-- A numeral that lost digits names a smaller number, unless it was a single zero. -/
theorem div_pow_lt {n k : ℕ} (hk : 0 < k) (hlen : k < (decimal n).length) : n / 10 ^ k < n := by
  have hn : 0 < n := by
    by_contra h0
    have : n = 0 := by omega
    subst this
    simp [decimal, Nat.toDigits_zero] at hlen
    omega
  exact Nat.div_lt_self hn (Nat.one_lt_pow (by omega) (by decide))

def isOctal (c : Char) : Bool := '0' ≤ c && c ≤ '7'

/-- An octal number that is a word. -/
def parseOctal (t : Text) : Option ℕ :=
  let ds := digitsOf t
  if ds = [] ∨ ¬ ds.all isOctal then none
  else if Nat.ofDigitChars 8 ds 0 < 2 ^ 64 then some (Nat.ofDigitChars 8 ds 0)
  else none

theorem isDigit_of_isOctal {c : Char} (h : isOctal c) : c.isDigit := by
  simp only [isOctal, Bool.and_eq_true, decide_eq_true_eq] at h
  have hlow : (48 : UInt32) ≤ c.val := h.1
  have hhigh : c.val ≤ (55 : UInt32) := h.2
  simp only [Char.isDigit, Bool.and_eq_true, decide_eq_true_eq]
  exact ⟨hlow, UInt32.le_trans hhigh (by decide)⟩

theorem parseOctal_digits {t : Text} (hne : t ≠ []) (h : ∀ c ∈ t, isOctal c)
    (hlt : Nat.ofDigitChars 8 t 0 < 2 ^ 64) : parseOctal t = some (Nat.ofDigitChars 8 t 0) := by
  unfold parseOctal
  simp only [digitsOf_eq fun c hc => isDigit_of_isOctal (h c hc)]
  rw [if_neg, if_pos hlt]
  simp only [hne, false_or, not_not, List.all_eq_true]
  exact h

end Unearth.Decimal
