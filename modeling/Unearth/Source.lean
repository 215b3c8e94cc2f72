import Unearth.Lib.Bytes
import Unearth.Lib.Post
import Unearth.Lib.Word

/-!
# The scanned source and the arithmetic of the scan

A source is the bytes that can be read from it, with the reads that fail. The plain
additions of the scan depend on the build, and a step that cannot go on names the
fault: a failing read, an overflow that the build checks for, a slice that ends
before it starts, a buffer that no allocation can hold, or an output path that is refused.
-/

namespace Unearth
open Bytes Word Post

inductive Fault
  | io
  | overflow
  | slice
  | capacity
  | refused
  deriving DecidableEq

abbrev Exec := Except Fault

/-- The plain addition of two 64-bit words. -/
def plus (b : Build) (x y : ℕ) : Exec ℕ :=
  if x + y < 2 ^ 64 then .ok (x + y)
  else match b with
    | .debug => .error .overflow
    | .release => .ok (wrapAdd x y)

theorem plus_eq {b : Build} {x y : ℕ} (h : x + y < 2 ^ 64) : plus b x y = .ok (x + y) := if_pos h

theorem plus_lt {b : Build} {x y z : ℕ} (h : plus b x y = .ok z) : z < 2 ^ 64 := by
  unfold plus at h
  split_ifs at h with hlt
  · cases h
    exact hlt
  · cases b with
    | debug => cases h
    | release =>
      cases h
      exact wrapAdd_lt x y

theorem plus_debug {x y : ℕ} (h : 2 ^ 64 ≤ x + y) : plus .debug x y = .error .overflow := by
  simp only [plus, not_lt.mpr h, if_false]

/-- The plain subtraction of two 64-bit words. -/
def minus (b : Build) (x y : ℕ) : Exec ℕ :=
  if y ≤ x then .ok (x - y)
  else match b with
    | .debug => .error .overflow
    | .release => .ok (2 ^ 64 + x - y)

theorem minus_eq {b : Build} {x y : ℕ} (h : y ≤ x) : minus b x y = .ok (x - y) := if_pos h

/-- The plain product of two 64-bit words. -/
def times (b : Build) (x y : ℕ) : Exec ℕ :=
  if x * y < 2 ^ 64 then .ok (x * y)
  else match b with
    | .debug => .error .overflow
    | .release => .ok (x * y % 2 ^ 64)

theorem times_eq {b : Build} {x y : ℕ} (h : x * y < 2 ^ 64) : times b x y = .ok (x * y) := if_pos h

/-- The plain addition of two 32-bit words. -/
def plus32 (b : Build) (x y : ℕ) : Exec ℕ :=
  if x + y < 2 ^ 32 then .ok (x + y)
  else match b with
    | .debug => .error .overflow
    | .release => .ok ((x + y) % 2 ^ 32)

theorem plus32_eq {b : Build} {x y : ℕ} (h : x + y < 2 ^ 32) : plus32 b x y = .ok (x + y) := if_pos h

theorem plus32_lt {b : Build} {x y z : ℕ} (h : plus32 b x y = .ok z) : z < 2 ^ 32 := by
  unfold plus32 at h
  split_ifs at h with hlt
  · cases h
    exact hlt
  · cases b with
    | debug => cases h
    | release =>
      cases h
      exact Nat.mod_lt _ (by decide)

theorem plus32_debug {x y : ℕ} (h : 2 ^ 32 ≤ x + y) : plus32 .debug x y = .error .overflow := by
  simp only [plus32, not_lt.mpr h, if_false]

theorem exec_ok_bind {α β : Type} (a : α) (f : α → Exec β) : ((.ok a : Exec α) >>= f) = f a := rfl

theorem exec_bind_ok {α β : Type} {x : Exec α} {f : α → Exec β} {r : β} (h : x >>= f = .ok r) :
    ∃ a, x = .ok a ∧ f a = .ok r := by
  cases x with
  | error e => cases h
  | ok a => exact ⟨a, rfl, h⟩

/-- No sum of a computation overflows, so that every build computes the same. -/
structure Steady {α : Type} (f : Build → Exec α) : Prop where
  no_overflow : f .debug ≠ .error .overflow
  same : ∀ b, f b = f .debug

namespace Steady

variable {α β : Type}

theorem const {x : Exec α} (h : x ≠ .error .overflow) : Steady fun _ => x := ⟨h, fun _ => rfl⟩

theorem ok (a : α) : Steady fun _ => (.ok a : Exec α) := const (by simp)

theorem plus {x y : ℕ} (h : x + y < 2 ^ 64) : Steady fun b => Unearth.plus b x y := by
  have heq : (fun b => Unearth.plus b x y) = fun _ => .ok (x + y) := funext fun b => plus_eq h
  rw [heq]
  exact ok _

theorem bind {f : Build → Exec α} {g : Build → α → Exec β} (hf : Steady f)
    (hg : ∀ a, f .debug = .ok a → Steady fun b => g b a) : Steady fun b => f b >>= g b := by
  cases hd : f .debug with
  | error e =>
    refine ⟨?_, fun b => ?_⟩
    · rw [hd]
      intro he
      cases he
      exact hf.no_overflow hd
    · simp only [hf.same b, hd]
      rfl
  | ok a =>
    have ha := hg a hd
    refine ⟨?_, fun b => ?_⟩
    · rw [hd]
      exact ha.no_overflow
    · simp only [hf.same b, hd]
      exact ha.same b

theorem plus_bind {x y : ℕ} {g : Build → ℕ → Exec β} (h : x + y < 2 ^ 64)
    (hg : Steady fun b => g b (x + y)) : Steady fun b => Unearth.plus b x y >>= g b := by
  apply bind (plus h)
  intro a ha
  rw [plus_eq h] at ha
  cases ha
  exact hg

theorem ite {p : Prop} [Decidable p] {f g : Build → Exec α} (hf : p → Steady f)
    (hg : ¬ p → Steady g) : Steady fun b => if p then f b else g b := by
  by_cases h : p
  · simpa only [if_pos h] using hf h
  · simpa only [if_neg h] using hg h

end Steady

/-- The largest offset of a file is that of a signed 64-bit word. -/
structure Source where
  data : List UInt8
  size_lt : data.length < 2 ^ 63
  fails : ℕ → ℕ → Bool := fun _ _ => false

namespace Source

def size (src : Source) : ℕ := src.data.length

/-- Up to `len` bytes at `off`; fewer at the end of the source. An offset that is no
offset of a file is refused. -/
def readAt (src : Source) (off len : ℕ) : Exec (List UInt8) :=
  if len ≠ 0 ∧ (2 ^ 63 ≤ off ∨ src.fails off len) then .error .io
  else .ok (window src.data off len)

/-- A source of which every read succeeds. -/
def Reliable (src : Source) : Prop := ∀ off len, src.fails off len = false

theorem Reliable.readAt {src : Source} (h : src.Reliable) {off : ℕ} (hoff : off < 2 ^ 63) (len : ℕ) :
    src.readAt off len = .ok (window src.data off len) := by
  rw [Source.readAt, if_neg]
  simp only [h off len, Bool.false_eq_true, or_false, not_and, not_le]
  exact fun _ => hoff

/-- A block of a source that is a row of blocks. -/
theorem Reliable.readAt_block {src : Source} (h : src.Reliable) {blocks : List (List UInt8)} {n k off : ℕ}
    (hdata : src.data = blocks.flatten) (hlen : ∀ b ∈ blocks, b.length = n) (hlt : off < 2 ^ 63)
    (hoff : off = n * k) {block : List UInt8} (hblock : blocks[k]? = some block) : src.readAt off n = .ok block := by
  rw [h.readAt hlt, hoff, hdata, window_flatten hlen, List.getD_eq_getElem?_getD, hblock, Option.getD_some]

theorem readAt_ok {src : Source} {off len : ℕ} {bytes : List UInt8}
    (h : src.readAt off len = .ok bytes) : bytes = window src.data off len := by
  unfold readAt at h
  split_ifs at h
  cases h
  rfl

theorem readAt_error {src : Source} {off len : ℕ} {f : Fault} (h : src.readAt off len = .error f) :
    f = .io := by
  unfold readAt at h
  split_ifs at h
  cases h
  rfl

theorem ends_readAt (src : Source) (off len : ℕ) :
    Ends (· = Fault.io) (· = window src.data off len) (src.readAt off len) := by
  cases h : src.readAt off len with
  | error e => exact readAt_error h
  | ok bytes => exact Ends.ok (readAt_ok h)

theorem Reliable.ends_readAt {src : Source} (h : src.Reliable) {off : ℕ} (hoff : off < 2 ^ 63) (len : ℕ) :
    Ends (fun _ => False) (· = window src.data off len) (src.readAt off len) := by
  rw [h.readAt hoff]
  exact Ends.ok rfl

theorem steady_readAt (src : Source) (off len : ℕ) : Steady fun _ => src.readAt off len := by
  refine .const fun h => ?_
  cases readAt_error h

end Source

end Unearth
