import Unearth.Lib.Hex
import Unearth.Lib.Signed

/-!
# Numerals of fixed width and with a sign

`padded` prints a number behind zeros and `parseI64` reads one the way `str::parse::<i64>` does. A text is
cut at the first character of a kind, or at every one.
-/

namespace Unearth.Decimal
open Lines Hex Signed

/-- A number behind zeros; a sign counts for the width. -/
def padded (width : ℕ) (x : ℤ) : Text :=
  if x < 0 then '-' :: pad (width - 1) (decimal x.natAbs) else pad width (decimal x.natAbs)

def signOf (t : Text) : ℤ × Text :=
  match t with
  | '-' :: ds => (-1, ds)
  | '+' :: ds => (1, ds)
  | ds => (1, ds)

def parseI64 (t : Text) : Option ℤ :=
  let (sign, ds) := signOf t
  if ds = [] ∨ ¬ ds.all Char.isDigit then none
  else if InRange (sign * Nat.ofDigitChars 10 ds 0) then some (sign * Nat.ofDigitChars 10 ds 0)
  else none

def splitOnceAny (sep : Char → Bool) : Text → Option (Text × Text)
  | [] => none
  | c :: t => if sep c then some ([], t) else (splitOnceAny sep t).map fun p => (c :: p.1, p.2)

theorem ofDigitChars_pad (width : ℕ) (t : Text) : Nat.ofDigitChars 10 (pad width t) 0 = Nat.ofDigitChars 10 t 0 := by
  unfold pad
  rw [Nat.ofDigitChars_append, Nat.ofDigitChars_replicate_zero, Nat.mul_zero]

theorem isDigit_of_mem_pad {width n : ℕ} {c : Char} (h : c ∈ pad width (decimal n)) : c.isDigit := by
  rcases List.mem_append.mp h with h | h
  · rw [(List.mem_replicate.mp h).2]
    decide
  · exact isDigit_of_mem_decimal h

theorem pad_ne_nil (width n : ℕ) : pad width (decimal n) ≠ [] :=
  List.append_ne_nil_of_right_ne_nil _ (decimal_token n).1

theorem length_pad {width n : ℕ} (hn : n < 10 ^ width) (hwidth : 0 < width) :
    (pad width (decimal n)).length = width := by
  have hle : (decimal n).length ≤ width := (Nat.length_toDigits_le_iff (by decide) hwidth).mpr hn
  rw [pad, List.length_append, List.length_replicate]
  omega

theorem signOf_digits {t : Text} (h : ∀ c ∈ t, c.isDigit) : signOf t = (1, t) := by
  unfold signOf
  split
  · have := h '-' (by simp)
    simp at this
  · have := h '+' (by simp)
    simp at this
  · rfl

theorem parseI64_pad (width : ℕ) {n : ℕ} (hn : n < 2 ^ 63) : parseI64 (pad width (decimal n)) = some (n : ℤ) := by
  have hdigits : (pad width (decimal n)).all Char.isDigit := List.all_eq_true.mpr fun c hc => isDigit_of_mem_pad hc
  have hvalue : (1 : ℤ) * Nat.ofDigitChars 10 (pad width (decimal n)) 0 = n := by
    rw [ofDigitChars_pad, ofDigitChars_decimal, one_mul]
  have hrange : InRange (n : ℤ) := ⟨by omega, by omega⟩
  unfold parseI64
  rw [signOf_digits fun c hc => isDigit_of_mem_pad hc]
  dsimp only
  rw [if_neg (not_or.mpr ⟨pad_ne_nil width n, not_not.mpr hdigits⟩), hvalue, if_pos hrange]

theorem padded_of_nonneg (width : ℕ) {x : ℤ} (h : 0 ≤ x) : padded width x = pad width (decimal x.toNat) := by
  rw [padded, if_neg (not_lt.mpr h)]
  congr 2
  omega

theorem splitOnceAny_append {sep : Char → Bool} {t : Text} (ht : ∀ c ∈ t, sep c = false) {c : Char} (hc : sep c)
    (rest : Text) : splitOnceAny sep (t ++ c :: rest) = some (t, rest) := by
  induction t with
  | nil => exact if_pos hc
  | cons a t ih =>
    have ha : ¬ sep a = true := by simp [ht a List.mem_cons_self]
    rw [List.cons_append, splitOnceAny, if_neg ha, ih fun c hc => ht c (List.mem_cons_of_mem _ hc)]
    rfl

end Unearth.Decimal
