import Unearth.Lib.Post

/-!
# Reading from a place on

A cursor reads at a place and goes to the place behind what it has read, unless it finds nothing
there or fails. What it reads of items that are stored there follows from what its parts read, and
so does where it goes over arbitrary contents.
-/

namespace Unearth.Cursors
open Post

variable {ε α β σ ι κ : Type}

def Cursor (ε α : Type) : Type := ℕ → Except ε (Option (α × ℕ))

namespace Cursor

/-- Goes on behind what was read. -/
def onward (f : α → Cursor ε β) : Except ε (Option (α × ℕ)) → Except ε (Option (β × ℕ))
  | .error e => .error e
  | .ok none => .ok none
  | .ok (some (a, next)) => f a next

instance : Monad (Cursor ε) where
  pure a := fun pos => .ok (some (a, pos))
  bind p f := fun pos => onward f (p pos)

def fail : Cursor ε α := fun _ => .ok none

/-- The place itself. -/
def here : Cursor ε ℕ := fun pos => .ok (some (pos, pos))

def iterate (f : σ → Cursor ε σ) : ℕ → σ → Cursor ε σ
  | 0, s => pure s
  | n + 1, s => f s >>= iterate f n

theorem bind_ok {p : Cursor ε α} {f : α → Cursor ε β} {pos q : ℕ} {c : β} (h : (p >>= f) pos = .ok (some (c, q))) :
    ∃ a next, p pos = .ok (some (a, next)) ∧ f a next = .ok (some (c, q)) := by
  change onward f (p pos) = _ at h
  cases hpos : p pos with
  | error e =>
    rw [hpos] at h
    cases h
  | ok o =>
    rw [hpos] at h
    cases o with
    | none => cases h
    | some x => exact ⟨x.1, x.2, rfl, h⟩

end Cursor

open Cursor

/-- What is stored where. -/
structure Tape (ι : Type) where
  holds : ℕ → List ι → Prop
  left : ∀ {pos l m}, holds pos (l ++ m) → holds pos l
  right : ∀ {pos l m}, holds pos (l ++ m) → holds (pos + l.length) m

/-- Items that are stored inside the limit are read whole. -/
def Reads (t : Tape ι) (limit : ℕ) (p : Cursor ε α) (l : List ι) (a : α) : Prop :=
  ∀ pos, t.holds pos l → pos + l.length ≤ limit → p pos = .ok (some (a, pos + l.length))

section Reads

variable {t : Tape ι} {limit : ℕ} {p : Cursor ε α} {l m : List ι} {a : α}

theorem Reads.pure (a : α) : Reads t limit (pure a : Cursor ε α) [] a := fun _ _ _ => rfl

theorem Reads.bind {f : α → Cursor ε β} {c : β} (hp : Reads t limit p l a) (hf : Reads t limit (f a) m c) :
    Reads t limit (p >>= f) (l ++ m) c := by
  intro pos h hfit
  rw [List.length_append] at hfit ⊢
  have hfirst := hp pos (t.left h) (by omega)
  have hsecond := hf (pos + l.length) (t.right h) (by omega)
  change onward f (p pos) = _
  rw [hfirst, ← Nat.add_assoc]
  exact hsecond

/-- A last part that reads nothing. -/
theorem Reads.map {f : α → β} (hp : Reads t limit p l a) : Reads t limit (do return f (← p)) l (f a) := by
  have h := hp.bind (f := fun a => Pure.pure (f a)) (Reads.pure (f a))
  rwa [List.append_nil] at h

/-- The items are not longer than what is left of the limit. -/
theorem Reads.of_short (h : l.length ≤ limit → Reads t limit p l a) : Reads t limit p l a :=
  fun pos hpos hfit => h (by omega) pos hpos hfit

/-- Item by item, as often as there are items. -/
theorem Reads.iterate {f : σ → Cursor ε σ} {items : List κ} {enc : κ → List ι} (next : σ → κ → σ)
    (h : ∀ s, ∀ k ∈ items, Reads t limit (f s) (enc k) (next s k)) (s : σ) :
    Reads t limit (iterate f items.length s) (items.flatMap enc) (items.foldl next s) := by
  induction items generalizing s with
  | nil => exact Reads.pure s
  | cons k rest ih =>
    rw [List.flatMap_cons]
    exact (h s k List.mem_cons_self).bind (ih (fun s x hx => h s x (List.mem_cons_of_mem k hx)) (next s k))

end Reads

/-- On any contents the cursor does not go back, nor beyond the limit, and its result has a property. -/
def Moves (E : ε → Prop) (limit : ℕ) (P : α → Prop) (p : Cursor ε α) : Prop :=
  ∀ pos, Ends E (fun o => ∀ a q, o = some (a, q) → pos ≤ q ∧ (q = pos ∨ q ≤ limit) ∧ P a) (p pos)

section Moves

variable {E : ε → Prop} {limit : ℕ} {P : α → Prop} {Q : β → Prop} {p : Cursor ε α}

theorem Moves.pure {a : α} (h : P a) : Moves E limit P (pure a) := by
  intro pos
  refine Ends.ok fun a' q heq => ?_
  cases heq
  exact ⟨le_rfl, .inl rfl, h⟩

theorem Moves.fail : Moves E limit P fail := fun _ => Ends.ok fun _ _ h => (by cases h)

theorem Moves.here : Moves E limit (fun _ => True) here := by
  intro pos
  refine Ends.ok fun a q heq => ?_
  cases heq
  exact ⟨le_rfl, .inl rfl, trivial⟩

theorem Moves.mono {P' : α → Prop} (hp : Moves E limit P p) (h : ∀ a, P a → P' a) : Moves E limit P' p := by
  intro pos
  refine (hp pos).mono fun o ho a q heq => ?_
  obtain ⟨hle, hend, ha⟩ := ho a q heq
  exact ⟨hle, hend, h a ha⟩

theorem Moves.bind {f : α → Cursor ε β} (hp : Moves E limit P p) (hf : ∀ a, P a → Moves E limit Q (f a)) :
    Moves E limit Q (p >>= f) := by
  intro pos
  have hfirst := hp pos
  change Ends E _ (onward f (p pos))
  cases hpos : p pos with
  | error e =>
    rw [hpos] at hfirst
    exact hfirst
  | ok o =>
    rw [hpos] at hfirst
    cases o with
    | none => exact Ends.ok fun _ _ h => (by cases h)
    | some x =>
      obtain ⟨hle, hend, ha⟩ := hfirst x.1 x.2 rfl
      refine (hf x.1 ha x.2).mono fun o ho c q heq => ?_
      obtain ⟨hle', hend', hc⟩ := ho c q heq
      exact ⟨hle.trans hle', by omega, hc⟩

theorem Moves.ite {c : Prop} [Decidable c] {q : Cursor ε α} (hp : c → Moves E limit P p)
    (hq : ¬ c → Moves E limit P q) : Moves E limit P (if c then p else q) := by
  by_cases hc : c
  · simpa only [if_pos hc] using hp hc
  · simpa only [if_neg hc] using hq hc

theorem Moves.iterate {I : σ → Prop} {f : σ → Cursor ε σ} (h : ∀ s, I s → Moves E limit I (f s)) (n : ℕ) {s : σ}
    (hs : I s) : Moves E limit I (iterate f n s) := by
  induction n generalizing s with
  | zero => exact Moves.pure hs
  | succ n ih => exact (h s hs).bind fun s hs => ih hs

end Moves

end Unearth.Cursors
