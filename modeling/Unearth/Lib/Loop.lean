import Mathlib

/-!
# Loops given by their body

A `while` loop is a body that maps a state to the next state or to the result
with which the loop is left. `run` executes it with a bound on the number of
iterations; a `While` also carries the measure that makes it terminate, so its
result `eval` is total. Every fact about a loop is derived from its body through
the invariant rule, the simulation rule or the induction principle below.
-/

namespace Unearth.Loop

variable {σ τ ρ κ : Type*}

/-- What one execution of a loop body does: go round again, or leave the loop. -/
inductive Ctl (σ ρ : Type*)
  | next (s : σ)
  | done (r : ρ)

namespace Ctl

def Sat (I : σ → Prop) (Q : ρ → Prop) : Ctl σ ρ → Prop
  | next s => I s
  | done r => Q r

inductive Rel (R : σ → τ → Prop) (S : ρ → κ → Prop) : Ctl σ ρ → Ctl τ κ → Prop
  | next {s : σ} {t : τ} (h : R s t) : Rel R S (next s) (next t)
  | done {r : ρ} {k : κ} (h : S r k) : Rel R S (done r) (done k)

theorem sat_of_cases {I : σ → Prop} {Q : ρ → Prop} {c : Ctl σ ρ}
    (h : (∃ r, c = .done r ∧ Q r) ∨ ∃ s, c = .next s ∧ I s) : c.Sat I Q := by
  obtain ⟨r, rfl, hr⟩ | ⟨s, rfl, hs⟩ := h
  · exact hr
  · exact hs

end Ctl

/-- At most `fuel` executions of the body; `none` when the loop is still going. -/
def run (body : σ → Ctl σ ρ) : ℕ → σ → Option ρ
  | 0, _ => none
  | fuel + 1, s =>
    match body s with
    | .done r => some r
    | .next s' => run body fuel s'

theorem run_zero (body : σ → Ctl σ ρ) (s : σ) : run body 0 s = none := rfl

theorem run_succ (body : σ → Ctl σ ρ) (n : ℕ) (s : σ) : run body (n + 1) s =
    match body s with
    | .done r => some r
    | .next s' => run body n s' := rfl

theorem run_done {body : σ → Ctl σ ρ} {s : σ} {r : ρ} (h : body s = .done r) (n : ℕ) :
    run body (n + 1) s = some r := by
  rw [run_succ, h]

theorem run_next {body : σ → Ctl σ ρ} {s s' : σ} (h : body s = .next s') (n : ℕ) :
    run body (n + 1) s = run body n s' := by
  rw [run_succ, h]

theorem run_mono {body : σ → Ctl σ ρ} {n m : ℕ} {s : σ} {r : ρ}
    (h : run body n s = some r) (hnm : n ≤ m) : run body m s = some r := by
  induction n generalizing m s with
  | zero => simp [run_zero] at h
  | succ n ih =>
    obtain ⟨m, rfl⟩ : ∃ k, m = k + 1 := ⟨m - 1, by omega⟩
    cases hb : body s with
    | done r' => rwa [run_done hb] at h ⊢
    | next s' =>
      rw [run_next hb] at h ⊢
      exact ih h (by omega)

theorem run_inv {body : σ → Ctl σ ρ} {I : σ → Prop} {Q : ρ → Prop}
    (hstep : ∀ s, I s → (body s).Sat I Q) {n : ℕ} {s : σ} (hs : I s) {r : ρ}
    (h : run body n s = some r) : Q r := by
  induction n generalizing s with
  | zero => simp [run_zero] at h
  | succ n ih =>
    have hb := hstep s hs
    cases he : body s with
    | done r' =>
      rw [run_done he, Option.some.injEq] at h
      simpa only [he, Ctl.Sat, h] using hb
    | next s' =>
      rw [run_next he] at h
      exact ih (by simpa only [he, Ctl.Sat] using hb) h

/-- A loop ends when each further round is nearer to the end of something. -/
theorem exists_run_of_decreasing {body : σ → Ctl σ ρ} {I : σ → Prop} {Q : ρ → Prop} {m : σ → ℕ}
    (hstep : ∀ s, I s → (body s).Sat (fun s' => I s' ∧ m s' < m s) Q) {s : σ} (hs : I s) :
    ∃ n r, run body n s = some r ∧ Q r := by
  induction hm : m s using Nat.strong_induction_on generalizing s with
  | _ k ih =>
    subst hm
    have hbody := hstep s hs
    cases hb : body s with
    | done r =>
      rw [hb] at hbody
      exact ⟨1, r, run_done hb 0, hbody⟩
    | next s' =>
      rw [hb] at hbody
      obtain ⟨n, r, hrun, hr⟩ := ih _ hbody.2 hbody.1 rfl
      exact ⟨n + 1, r, (run_next hb n).trans hrun, hr⟩

/-- The states a loop passes through, its start included. -/
def Reaches (body : σ → Ctl σ ρ) : σ → σ → Prop :=
  Relation.ReflTransGen fun s s' => body s = .next s'

/-- A run that ended has passed through a state in which the loop is left. -/
theorem exists_reaches_of_run {body : σ → Ctl σ ρ} {n : ℕ} {s : σ} {r : ρ}
    (h : run body n s = some r) : ∃ t, Reaches body s t ∧ body t = .done r := by
  induction n generalizing s with
  | zero => simp [run_zero] at h
  | succ n ih =>
    cases hb : body s with
    | done r' =>
      rw [run_done hb, Option.some.injEq] at h
      exact ⟨s, .refl, by rw [hb, h]⟩
    | next s' =>
      rw [run_next hb] at h
      obtain ⟨t, ht, hd⟩ := ih h
      exact ⟨t, .head hb ht, hd⟩

theorem Reaches.inv {body : σ → Ctl σ ρ} {I : σ → Prop}
    (hstep : ∀ s s', I s → body s = .next s' → I s') {s s' : σ}
    (h : Reaches body s s') (hs : I s) : I s' := by
  induction h with
  | refl => exact hs
  | tail _ hb ih => exact hstep _ _ ih hb

theorem run_unique {body : σ → Ctl σ ρ} {n m : ℕ} {s : σ} {r r' : ρ} (h : run body n s = some r)
    (h' : run body m s = some r') : r = r' := by
  have h₁ := run_mono h (le_max_left n m)
  have h₂ := run_mono h' (le_max_right n m)
  rw [h₁, Option.some.injEq] at h₂
  exact h₂

theorem run_of_reaches {body : σ → Ctl σ ρ} {s s' : σ} (h : Reaches body s s') {n : ℕ} {r : ρ}
    (hr : run body n s' = some r) : ∃ m, run body m s = some r := by
  induction h generalizing n with
  | refl => exact ⟨n, hr⟩
  | tail _ hb ih =>
    apply ih
    rwa [run_next hb]

theorem run_of_reached {body : σ → Ctl σ ρ} {s s' : σ} (h : Reaches body s s') {n : ℕ} {r : ρ}
    (hr : run body n s = some r) : ∃ m, run body m s' = some r := by
  induction h with
  | refl => exact ⟨n, hr⟩
  | tail _ hb ih =>
    obtain ⟨m, hm⟩ := ih
    cases m with
    | zero => cases hm
    | succ m => exact ⟨m, by rwa [run_next hb] at hm⟩

/-- Bodies that stay related run to related results in the same number of iterations. -/
theorem run_rel {body : σ → Ctl σ ρ} {body' : τ → Ctl τ κ} {R : σ → τ → Prop} {S : ρ → κ → Prop}
    (hstep : ∀ s t, R s t → Ctl.Rel R S (body s) (body' t)) {n : ℕ} {s : σ} {t : τ} (h : R s t)
    {r : ρ} (hr : run body n s = some r) : ∃ k, run body' n t = some k ∧ S r k := by
  induction n generalizing s t with
  | zero => cases hr
  | succ n ih =>
    have hb := hstep s t h
    cases h₁ : body s with
    | done r' =>
      rw [run_done h₁, Option.some.injEq] at hr
      rw [h₁] at hb
      cases h₂ : body' t with
      | next t' => rw [h₂] at hb; cases hb
      | done k =>
        rw [h₂] at hb
        cases hb with | done hk => exact ⟨k, run_done h₂ n, hr ▸ hk⟩
    | next s' =>
      rw [run_next h₁] at hr
      rw [h₁] at hb
      cases h₂ : body' t with
      | done k => rw [h₂] at hb; cases hb
      | next t' =>
        rw [h₂] at hb
        rw [run_next h₂]
        cases hb with | next ht => exact ih ht hr

/-- A loop together with the measure that every further iteration decreases. -/
structure While (σ ρ : Type*) where
  body : σ → Ctl σ ρ
  measure : σ → ℕ
  decreases : ∀ s s', body s = .next s' → measure s' < measure s

namespace While

variable (w : While σ ρ)

theorem run_isSome {n : ℕ} {s : σ} (h : w.measure s < n) : (run w.body n s).isSome := by
  induction n generalizing s with
  | zero => omega
  | succ n ih =>
    cases hb : w.body s with
    | done r => simp [run_done hb]
    | next s' =>
      rw [run_next hb]
      have hd := w.decreases s s' hb
      exact ih (by omega)

/-- The result of the loop. The measure bounds the number of iterations. -/
def eval (s : σ) : ρ := (run w.body (w.measure s + 1) s).get (w.run_isSome (Nat.lt_succ_self _))

theorem run_eval (s : σ) : run w.body (w.measure s + 1) s = some (w.eval s) :=
  (Option.some_get _).symm

theorem eval_eq_of_run {n : ℕ} {s : σ} {r : ρ} (h : run w.body n s = some r) : w.eval s = r := by
  have h₁ := run_mono h (le_max_left n (w.measure s + 1))
  have h₂ := run_mono (w.run_eval s) (le_max_right n (w.measure s + 1))
  rw [h₁, Option.some.injEq] at h₂
  exact h₂.symm

theorem eval_done {s : σ} {r : ρ} (h : w.body s = .done r) : w.eval s = r :=
  w.eval_eq_of_run (run_done h 0)

theorem eval_next {s s' : σ} (h : w.body s = .next s') : w.eval s = w.eval s' := by
  apply w.eval_eq_of_run (n := w.measure s' + 1 + 1)
  rw [run_next h, run_eval]

theorem eval_of_reaches {s s' : σ} (h : Reaches w.body s s') : w.eval s = w.eval s' := by
  induction h with
  | refl => rfl
  | tail _ hb ih => exact ih.trans (w.eval_next hb)

theorem induct {motive : σ → Prop}
    (step : ∀ s, (∀ s', w.body s = .next s' → motive s') → motive s) (s : σ) : motive s := by
  induction hm : w.measure s using Nat.strong_induction_on generalizing s with
  | _ m ih =>
    subst hm
    exact step s fun s' hb => ih _ (w.decreases s s' hb) s' rfl

/-- The loop is left in one of the states it passes through. -/
theorem exists_reaches_done (s : σ) : ∃ s', Reaches w.body s s' ∧ w.body s' = .done (w.eval s) := by
  induction s using w.induct with
  | step s ih =>
    cases hb : w.body s with
    | done r => exact ⟨s, .refl, by rw [hb, w.eval_done hb]⟩
    | next s' =>
      obtain ⟨t, ht, hd⟩ := ih s' hb
      rw [w.eval_next hb]
      exact ⟨t, .head hb ht, hd⟩

/-- Loops whose bodies agree on every state that is passed through have the same result. -/
theorem eval_congr {w₁ w₂ : While σ ρ} {s : σ}
    (h : ∀ t, Reaches w₁.body s t → w₂.body t = w₁.body t) : w₂.eval s = w₁.eval s := by
  induction s using w₁.induct with
  | step s ih =>
    have hs := h s .refl
    cases hb : w₁.body s with
    | done r => rw [w₁.eval_done hb, w₂.eval_done (hs.trans hb)]
    | next s' =>
      rw [w₁.eval_next hb, w₂.eval_next (hs.trans hb)]
      exact ih s' hb fun t ht => h t (.head hb ht)

/-- The invariant rule: what the body preserves, the loop preserves. -/
theorem eval_inv {I : σ → Prop} {Q : ρ → Prop} (hstep : ∀ s, I s → (w.body s).Sat I Q)
    {s : σ} (hs : I s) : Q (w.eval s) :=
  run_inv hstep hs (w.run_eval s)

/-- The simulation rule: bodies that stay related leave their loops related. -/
theorem eval_rel {w₁ : While σ ρ} {w₂ : While τ κ} {R : σ → τ → Prop} {S : ρ → κ → Prop}
    (hstep : ∀ s t, R s t → Ctl.Rel R S (w₁.body s) (w₂.body t)) {s : σ} {t : τ} (h : R s t) :
    S (w₁.eval s) (w₂.eval t) := by
  induction s using w₁.induct generalizing t with
  | step s ih =>
    have hb := hstep s t h
    cases h₁ : w₁.body s with
    | done r =>
      cases h₂ : w₂.body t with
      | done k =>
        rw [h₁, h₂] at hb
        rw [w₁.eval_done h₁, w₂.eval_done h₂]
        cases hb with | done h => exact h
      | next t' => rw [h₁, h₂] at hb; cases hb
    | next s' =>
      cases h₂ : w₂.body t with
      | done k => rw [h₁, h₂] at hb; cases hb
      | next t' =>
        rw [h₁, h₂] at hb
        rw [w₁.eval_next h₁, w₂.eval_next h₂]
        cases hb with | next h => exact ih s' h₁ h

section Interrupted

variable {w w' : While σ ρ}

/-- An interruptible loop that was not interrupted has the result of the plain loop. -/
theorem eval_eq_of_completed {P : ρ → Prop}
    (go : ∀ s t, w'.body s = .next t → w.body s = .next t)
    (stop : ∀ s r, w'.body s = .done r → P r → w.body s = .done r) {s : σ}
    (h : P (w'.eval s)) : w.eval s = w'.eval s := by
  induction s using w'.induct with
  | step s ih =>
    cases hb : w'.body s with
    | done r =>
      rw [w'.eval_done hb] at h ⊢
      exact w.eval_done (stop s r hb h)
    | next t =>
      rw [w'.eval_next hb] at h ⊢
      rw [w.eval_next (go s t hb)]
      exact ih t hb h

/-- Going on from where a loop was interrupted is never having interrupted it, up to a
relation that the plain loop respects and that holds across an interruption. -/
theorem eval_resumed {w w' : While σ σ} {R : σ → σ → Prop}
    (congr : ∀ s t, R s t → R (w.eval s) (w.eval t))
    (go : ∀ s t, w'.body s = .next t → w.body s = .next t)
    (stop : ∀ s r, w'.body s = .done r → R r s) (s : σ) : R (w.eval (w'.eval s)) (w.eval s) := by
  induction s using w'.induct with
  | step s ih =>
    cases hb : w'.body s with
    | done r =>
      rw [w'.eval_done hb]
      exact congr r s (stop s r hb)
    | next t =>
      rw [w'.eval_next hb, w.eval_next (go s t hb)]
      exact ih t hb

end Interrupted

end While

end Unearth.Loop
