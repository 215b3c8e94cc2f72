import Unearth.Lib.Loop
import Unearth.Lib.Post

/-!
# Loops whose rounds may fail

A round goes on with a further state, ends the loop with a result, or fails. With a measure that
every further round decreases the loop has a result, or fails as one of its rounds does.
-/

namespace Unearth.Loop
open Post

variable {ε σ ρ : Type}

structure Until (ε σ ρ : Type) where
  step : σ → Except ε (σ ⊕ ρ)
  measure : σ → ℕ
  decreases : ∀ s s', step s = .ok (.inl s') → measure s' < measure s

namespace Until

def round : Except ε (σ ⊕ ρ) → Ctl σ (Except ε ρ)
  | .error e => .done (.error e)
  | .ok (.inl s) => .next s
  | .ok (.inr r) => .done (.ok r)

theorem round_next {x : Except ε (σ ⊕ ρ)} {s : σ} (h : round x = .next s) : x = .ok (.inl s) := by
  cases x with
  | error e => cases h
  | ok t =>
    cases t with
    | inl t =>
      cases h
      rfl
    | inr r => cases h

variable (u : Until ε σ ρ)

def toWhile : While σ (Except ε ρ) where
  body s := round (u.step s)
  measure := u.measure
  decreases s s' h := u.decreases s s' (round_next h)

def eval (s : σ) : Except ε ρ := u.toWhile.eval s

variable {u} {s s' : σ}

theorem eval_next (h : u.step s = .ok (.inl s')) : u.eval s = u.eval s' := by
  apply u.toWhile.eval_next
  change round (u.step s) = _
  rw [h]
  rfl

theorem eval_done {r : ρ} (h : u.step s = .ok (.inr r)) : u.eval s = .ok r := by
  apply u.toWhile.eval_done
  change round (u.step s) = _
  rw [h]
  rfl

theorem eval_error {e : ε} (h : u.step s = .error e) : u.eval s = .error e := by
  apply u.toWhile.eval_done
  change round (u.step s) = _
  rw [h]
  rfl

/-- What every round keeps and every end has, the whole loop has. -/
theorem ends_eval {E : ε → Prop} {I : σ → Prop} {Q : ρ → Prop}
    (hstep : ∀ s, I s → Ends E (Sum.elim I Q) (u.step s)) (hs : I s) : Ends E Q (u.eval s) := by
  refine u.toWhile.eval_inv (I := I) (Q := Ends E Q) (fun s hs => ?_) hs
  have h := hstep s hs
  change (round (u.step s)).Sat _ _
  cases hx : u.step s with
  | error e =>
    rw [hx] at h
    exact h
  | ok t =>
    rw [hx] at h
    cases t with
    | inl t => exact h
    | inr r => exact h

/-- The states that a loop passes through, its start included. -/
def Passes (u : Until ε σ ρ) : σ → σ → Prop := Reaches u.toWhile.body

theorem Passes.next {t : σ} (h : u.Passes s s') (ht : u.step s' = .ok (.inl t)) : u.Passes s t := by
  refine Relation.ReflTransGen.tail h ?_
  change round (u.step s') = _
  rw [ht]
  rfl

/-- What every further round keeps holds in every state. -/
theorem Passes.inv {I : σ → Prop} (hstep : ∀ s s', I s → u.step s = .ok (.inl s') → I s') (h : u.Passes s s')
    (hs : I s) : I s' :=
  Reaches.inv (fun s s' hs hb => hstep s s' hs (round_next hb)) h hs

end Until

end Unearth.Loop
