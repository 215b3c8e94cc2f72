import Unearth.LengthFields
import Unearth.Volume

/-!
# Slices, fields and requests that are checked

A slice that leaves its buffer stops the program, and so does a request for more elements
than there can be. A failing read or a refused path is handed on instead. What never stops
the program is safe.
-/

namespace Unearth
open Bytes Word Post

/-- Whether a fault stops the program, rather than being handed on by it. -/
def Fault.crash : Fault → Bool
  | .io | .refused => false
  | .overflow | .slice | .capacity => true

abbrev Safe {α : Type} (P : α → Prop) (x : Exec α) : Prop := Ends (fun e => e.crash = false) P x

def slice (bytes : List UInt8) (off n : ℕ) : Exec (List UInt8) :=
  if off + n ≤ bytes.length then .ok (window bytes off n) else .error .slice

theorem slice_eq {bytes : List UInt8} {off n : ℕ} (h : off + n ≤ bytes.length) :
    slice bytes off n = .ok (window bytes off n) := if_pos h

/-- A field of `n` bytes, the lowest first. -/
def field (bytes : List UInt8) (off n : ℕ) : Exec ℕ := do return le (← slice bytes off n)

theorem field_eq {bytes : List UInt8} {off n : ℕ} (h : off + n ≤ bytes.length) :
    field bytes off n = .ok (le (window bytes off n)) := by
  rw [field, slice_eq h]
  rfl

/-- A field of `n` bytes, the highest first; zero where the buffer ends before. -/
def beField (bytes : List UInt8) (off n : ℕ) : ℕ :=
  if off + n ≤ bytes.length then be (window bytes off n) else 0

theorem be_lt (bytes : List UInt8) : be bytes < 256 ^ bytes.length := by
  have hfold : ∀ n, bytes.foldl (fun n b => 256 * n + b.toNat) n < (n + 1) * 256 ^ bytes.length := by
    induction bytes with
    | nil => simp
    | cons byte rest ih =>
      intro n
      have hbyte := byte.toNat_lt
      have hstep : 256 * n + byte.toNat + 1 ≤ (n + 1) * 256 := by omega
      calc rest.foldl (fun n b => 256 * n + b.toNat) (256 * n + byte.toNat)
          < (256 * n + byte.toNat + 1) * 256 ^ rest.length := ih _
        _ ≤ (n + 1) * 256 * 256 ^ rest.length := Nat.mul_le_mul_right _ hstep
        _ = (n + 1) * 256 ^ (rest.length + 1) := by rw [Nat.mul_assoc, Nat.pow_succ']
  have hzero := hfold 0
  rw [Nat.zero_add, Nat.one_mul] at hzero
  exact hzero

theorem be_append (l m : List UInt8) : be (l ++ m) = be l * 256 ^ m.length + be m := by
  have hfold : ∀ n, m.foldl (fun n x => 256 * n + x.toNat) n = n * 256 ^ m.length + be m := by
    induction m with
    | nil => simp [be]
    | cons x rest ih =>
      intro n
      have hzero := ih (256 * 0 + x.toNat)
      have hstep := ih (256 * n + x.toNat)
      rw [be, List.foldl_cons, List.foldl_cons, List.length_cons, hstep, hzero]
      ring
  rw [be, List.foldl_append]
  exact hfold _

/-- The `n` bytes of a number, the highest first. -/
def toBe : ℕ → ℕ → List UInt8
  | 0, _ => []
  | n + 1, x => toBe n (x / 256) ++ [UInt8.ofNat (x % 256)]

@[simp]
theorem length_toBe (n x : ℕ) : (toBe n x).length = n := by
  induction n generalizing x with
  | zero => rfl
  | succ n ih => rw [toBe, List.length_append, ih, List.length_singleton]

theorem be_toBe {n x : ℕ} (h : x < 256 ^ n) : be (toBe n x) = x := by
  induction n generalizing x with
  | zero =>
    rw [Nat.pow_zero, Nat.lt_one_iff] at h
    rw [h]
    rfl
  | succ n ih =>
    have hdiv : x / 256 < 256 ^ n := Nat.div_lt_of_lt_mul (by rwa [Nat.pow_succ'] at h)
    have hlast : (UInt8.ofNat (x % 256)).toNat = x % 256 := by
      rw [UInt8.toNat_ofNat']
      omega
    have happend : be (toBe n (x / 256) ++ [UInt8.ofNat (x % 256)]) =
        256 * be (toBe n (x / 256)) + (UInt8.ofNat (x % 256)).toNat := by
      rw [be, List.foldl_append]
      rfl
    rw [toBe, happend, ih hdiv, hlast]
    omega

theorem beField_lt (bytes : List UInt8) (off n : ℕ) : beField bytes off n < 256 ^ n := by
  unfold beField
  split_ifs
  · refine (be_lt _).trans_le (Nat.pow_le_pow_right (by decide) ?_)
    rw [length_window]
    exact min_le_left _ _
  · exact Nat.pow_pos (by decide)

/-- What a build makes of a sum or a product of words of `w` bits. -/
def word (w : ℕ) (b : Build) (x : ℕ) : Exec ℕ :=
  if x < 2 ^ w then .ok x
  else match b with
    | .debug => .error .overflow
    | .release => .ok (x % 2 ^ w)

theorem word_eq {w : ℕ} {b : Build} {x : ℕ} (h : x < 2 ^ w) : word w b x = .ok x := if_pos h

def assign (out : List ℕ) (i x : ℕ) : Exec (List ℕ) :=
  if i < out.length then .ok (out.set i x) else .error .slice

/-- A request for `n` elements where there are no more than `limit`. -/
def request (limit n : ℕ) : Exec Unit := if n ≤ limit then .ok () else .error .capacity

theorem request_eq {limit n : ℕ} (h : n ≤ limit) : request limit n = .ok () := if_pos h

theorem request_error {limit n : ℕ} (h : limit < n) : request limit n = .error .capacity :=
  if_neg (not_le.mpr h)

/-- A failing read is taken for a result; what stops the program does so all the same. -/
def tolerated {α : Type} (default : α) : Exec α → Exec α
  | .error .io => .ok default
  | .error .refused => .ok default
  | x => x

section Safe

variable {α β : Type} {E : Fault → Prop} {bytes : List UInt8} {off n : ℕ}

theorem safe_slice (h : off + n ≤ bytes.length) : Ends E (fun s => s.length = n) (slice bytes off n) := by
  rw [slice_eq h]
  apply Ends.ok
  rw [length_window]
  omega

theorem safe_field (h : off + n ≤ bytes.length) : Ends E (· < 256 ^ n) (field bytes off n) := by
  rw [field_eq h]
  exact Ends.ok (le_window_lt bytes off n)

theorem safe_assign {out : List ℕ} {i x : ℕ} (h : i < out.length) :
    Ends E (fun r => r.length = out.length) (assign out i x) := by
  rw [assign, if_pos h]
  apply Ends.ok
  rw [List.length_set]

theorem safe_request {limit : ℕ} (h : n ≤ limit) : Ends E (fun _ => True) (request limit n) := by
  rw [request_eq h]
  trivial

theorem safe_readAt (src : Source) (off len : ℕ) :
    Safe (fun bytes => bytes = window src.data off len) (src.readAt off len) := by
  cases h : src.readAt off len with
  | ok bytes => exact Ends.ok (Source.readAt_ok h)
  | error e =>
    apply Ends.error
    rw [Source.readAt_error h]
    rfl

theorem safe_tolerated {P : α → Prop} {default : α} {x : Exec α} (hx : Safe P x) (hd : P default) :
    Safe P (tolerated default x) := by
  cases x with
  | ok a => exact hx
  | error e =>
    cases e with
    | io | refused => exact hd
    | overflow | slice | capacity => exact hx

theorem safe_of_tolerated {P : α → Prop} {default : α} {x : Exec α} (h : Safe P (tolerated default x)) :
    Safe (fun _ => True) x := by
  cases x with
  | ok a => trivial
  | error e =>
    cases e with
    | io | refused => rfl
    | overflow | slice | capacity => cases h

/-- What is tolerated fails only in the ways that stop the program. -/
theorem crash_tolerated (default : α) (x : Exec α) :
    Ends (fun e => e.crash = true) (fun _ => True) (tolerated default x) := by
  cases x with
  | ok a => trivial
  | error e => cases e <;> trivial

theorem exists_ok_of_safe {x : Exec α} (h : Safe (fun _ => True) x)
    (hx : Ends (fun e => e.crash = true) (fun _ => True) x) : ∃ a, x = .ok a := by
  cases x with
  | ok a => exact ⟨a, rfl⟩
  | error e =>
    have hcrash : e.crash = true := hx
    rw [show e.crash = false from h] at hcrash
    cases hcrash

theorem safe_bind_iff {x : Exec α} {f : α → Exec β} : Safe (fun _ => True) (x >>= f) ↔
    Safe (fun _ => True) x ∧ ∀ a, x = .ok a → Safe (fun _ => True) (f a) :=
  Ends.bind_iff

/-- After a computation that fails only in the ways that stop the program comes one that is as
safe for each of its results. -/
theorem safe_bind_iff_of_crash {Q : Prop} {x : Exec α} {f : α → Exec β}
    (hx : Ends (fun e => e.crash = true) (fun _ => True) x) (hf : ∀ a, Safe (fun _ => True) (f a) ↔ Q) :
    Safe (fun _ => True) (x >>= f) ↔ Safe (fun _ => True) x ∧ Q := by
  rw [safe_bind_iff]
  refine and_congr_right fun hsafe => ?_
  cases x with
  | error e =>
    have hcrash : e.crash = true := hx
    rw [show e.crash = false from hsafe] at hcrash
    cases hcrash
  | ok a => exact ⟨fun h => (hf a).mp (h a rfl), fun hQ b _ => (hf b).mpr hQ⟩

theorem exists_tolerated (default : α) {x : Exec α} (hx : Safe (fun _ => True) x) :
    ∃ a, tolerated default x = .ok a := by
  cases x with
  | ok a => exact ⟨a, rfl⟩
  | error e =>
    cases e with
    | io | refused => exact ⟨default, rfl⟩
    | overflow | slice | capacity => cases hx

theorem ends_word {w x : ℕ} {b : Build} (h : x < 2 ^ w) : Ends E (fun z => z = x) (word w b x) := by
  rw [word_eq h]
  exact Ends.ok rfl

/-- A difference of words is one, or overflow is among what can happen. -/
theorem ends_minus {x y : ℕ} (h : y ≤ x ∨ E .overflow) : Ends E (fun z => z = x - y ∧ y ≤ x) (minus .debug x y) := by
  unfold minus
  split_ifs with hle
  · exact Ends.ok ⟨rfl, hle⟩
  · exact h.resolve_left hle

end Safe

end Unearth
