import Mathlib

/-!
# 64-bit unsigned arithmetic on natural numbers

The checked, saturating and plain operators of a 64-bit word. A plain addition
depends on the build: it stops the program on overflow when the build checks for
it and wraps otherwise. Where nothing overflows the builds agree.
-/

namespace Unearth.Word

inductive Build
  | debug
  | release
  deriving DecidableEq

def satAdd (x y : ℕ) : ℕ := min (x + y) (2 ^ 64 - 1)
def satMul (x y : ℕ) : ℕ := min (x * y) (2 ^ 64 - 1)
def checkedAdd (x y : ℕ) : Option ℕ := if x + y < 2 ^ 64 then some (x + y) else none
def checkedMul (x y : ℕ) : Option ℕ := if x * y < 2 ^ 64 then some (x * y) else none
def wrapAdd (x y : ℕ) : ℕ := (x + y) % 2 ^ 64

theorem satAdd_eq {x y : ℕ} (h : x + y < 2 ^ 64) : satAdd x y = x + y := by
  simp only [satAdd]
  omega

theorem satMul_eq {x y : ℕ} (h : x * y < 2 ^ 64) : satMul x y = x * y := by
  simp only [satMul]
  omega

theorem wrapAdd_lt (x y : ℕ) : wrapAdd x y < 2 ^ 64 := Nat.mod_lt _ (by decide)

@[simp]
theorem checkedAdd_eq_some {x y z : ℕ} : checkedAdd x y = some z ↔ x + y < 2 ^ 64 ∧ x + y = z := by
  unfold checkedAdd
  split_ifs with h
  · simp only [Option.some.injEq]; omega
  · simp only [false_iff]; omega

end Unearth.Word
