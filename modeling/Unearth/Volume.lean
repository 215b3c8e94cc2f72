import Unearth.Lib.Decimal
import Unearth.Source

/-!
# What the readers of volumes share

Geometry is computed in words of several widths: some operations saturate, the plain ones
depend on the build. A boot sector that does not describe a volume is refused with a
message.
-/

namespace Unearth
open Lines Decimal Word

def satAdd32 (x y : ℕ) : ℕ := min (x + y) (2 ^ 32 - 1)
def satMul32 (x y : ℕ) : ℕ := min (x * y) (2 ^ 32 - 1)
def divCeil (x y : ℕ) : ℕ := (x + y - 1) / y

theorem satAdd32_lt (x y : ℕ) : satAdd32 x y < 2 ^ 32 := (min_le_right _ _).trans_lt (by decide)

/-- The plain addition of two bytes. -/
def plus8 (b : Build) (x y : ℕ) : Exec ℕ :=
  if x + y < 2 ^ 8 then .ok (x + y)
  else match b with
    | .debug => .error .overflow
    | .release => .ok ((x + y) % 2 ^ 8)

theorem plus8_eq {b : Build} {x y : ℕ} (h : x + y < 2 ^ 8) : plus8 b x y = .ok (x + y) := if_pos h

theorem plus8_debug {x y : ℕ} (h : 2 ^ 8 ≤ x + y) : plus8 .debug x y = .error .overflow := by
  simp only [plus8, not_lt.mpr h, if_false]

/-- A word shifted to the left. The amount of a shift that is too long is taken modulo the
width, where it is not refused; bits that leave the word are lost in every build. -/
def shiftLeft (b : Build) (x n : ℕ) : Exec ℕ :=
  if n < 64 then .ok (x * 2 ^ n % 2 ^ 64)
  else match b with
    | .debug => .error .overflow
    | .release => .ok (x * 2 ^ (n % 64) % 2 ^ 64)

theorem shiftLeft_eq {b : Build} {x n : ℕ} (h : n < 64) :
    shiftLeft b x n = .ok (x * 2 ^ n % 2 ^ 64) := if_pos h

theorem shiftLeft_one {b : Build} {n : ℕ} (h : n < 64) : shiftLeft b 1 n = .ok (2 ^ n) := by
  rw [shiftLeft_eq h, Nat.one_mul, Nat.mod_eq_of_lt]
  exact Nat.pow_lt_pow_right (by decide) h

/-- Every build makes a power of two of a shifted one. -/
theorem shiftLeft_one_ok {b : Build} {n x : ℕ} (h : shiftLeft b 1 n = .ok x) :
    ∃ k < 64, x = 2 ^ k := by
  by_cases hn : n < 64
  · rw [shiftLeft_one hn] at h
    cases h
    exact ⟨n, hn, rfl⟩
  · have hk : n % 64 < 64 := Nat.mod_lt _ (by decide)
    unfold shiftLeft at h
    rw [if_neg hn] at h
    cases b with
    | debug => cases h
    | release =>
      cases h
      refine ⟨n % 64, hk, ?_⟩
      rw [Nat.one_mul, Nat.mod_eq_of_lt]
      exact Nat.pow_lt_pow_right (by decide) hk

theorem ok_of_toOption {ε α : Type} {x : Except ε α} {a : α} (h : x.toOption = some a) : x = .ok a := by
  cases x with
  | error e => cases h
  | ok y =>
    cases h
    rfl

/-- Why a volume is not one. -/
inductive ParseError
  | io
  | refused (message : Text)
  deriving DecidableEq

def atOffset (message : String) (offset : ℕ) : ParseError :=
  .refused (message.toList ++ " at offset ".toList ++ decimal offset)

end Unearth
