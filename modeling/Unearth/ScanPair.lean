import Unearth.Scan

/-!
# Two scans side by side

Scans of one source that differ in what they do at a match come to the same matches, as long
as each pair of visits goes on alike. The relation between their variables may speak of the
position that they have come to.
-/

namespace Unearth
open Bytes Word Loop

/-- Computations that fail alike or succeed with related results. -/
inductive ExecRel {α β : Type} (R : α → β → Prop) : Exec α → Exec β → Prop
  | ok {a : α} {b : β} (h : R a b) : ExecRel R (.ok a) (.ok b)
  | error (f : Fault) : ExecRel R (.error f) (.error f)

namespace ExecRel

variable {α β γ δ : Type} {R : α → β → Prop} {S : γ → δ → Prop}

theorem bind {x : Exec α} {y : Exec β} {f : α → Exec γ} {g : β → Exec δ} (h : ExecRel R x y)
    (hfg : ∀ a b, R a b → ExecRel S (f a) (g b)) : ExecRel S (x >>= f) (y >>= g) := by
  cases h with
  | ok h => exact hfg _ _ h
  | error f => exact .error f

/-- A computation that both sides share. -/
theorem bind_same {x : Exec α} {f : α → Exec γ} {g : α → Exec δ}
    (hfg : ∀ a, ExecRel S (f a) (g a)) : ExecRel S (x >>= f) (x >>= g) := by
  cases x with
  | ok a => exact hfg a
  | error f => exact .error f

end ExecRel

/-- Chunks that end in the same way, with related variables. -/
inductive ScannedPair {κ κ' ρ ρ' : Type} (R : ℕ → κ → κ' → Prop) (S : ρ → ρ' → Prop) :
    Scanned κ ρ → Scanned κ' ρ' → Prop
  | advance (abs : ℕ) {c : κ} {d : κ'} (h : R abs c d) : ScannedPair R S (.advance abs c) (.advance abs d)
  | empty : ScannedPair R S .empty .empty
  | exit {x : Exec ρ} {y : Exec ρ'} (h : ExecRel S x y) : ScannedPair R S (.exit x) (.exit y)

/-- Runs whose bodies stay related and end with the same, as far as it is looked at. -/
theorem run_pair {σ τ ρ κ β : Type} {body : σ → Ctl σ ρ} {body' : τ → Ctl τ κ} {R : σ → τ → Prop}
    {f : ρ → β} {g : κ → β}
    (hstep : ∀ s t, R s t → Ctl.Rel R (fun r k => f r = g k) (body s) (body' t)) (n : ℕ) {s : σ} {t : τ}
    (h : R s t) : (run body n s).map f = (run body' n t).map g := by
  induction n generalizing s t with
  | zero => rfl
  | succ n ih =>
    have hb := hstep s t h
    unfold run
    generalize body s = x at hb ⊢
    generalize body' t = y at hb ⊢
    cases hb with
    | next h => exact ih h
    | done h => exact congrArg some h

section Pair

variable {κ κ' ρ ρ' : Type} {b : Build} {src : Source} {sc : Scanner} {scanEnd abs : ℕ}
  {v : Visit κ ρ} {w : Visit κ' ρ'} {R : ℕ → κ → κ' → Prop} {S : ρ → ρ' → Prop} {c : κ} {d : κ'}

/-- By induction on the positions; `R p` speaks of what lies before `p`. -/
theorem positionLoop_pair {idx : SignatureIndex} {buf : List UInt8} {limit : ℕ}
    (mono : ∀ p q c d, p ≤ q → R p c d → R q c d)
    (step : ∀ q sig c d, abs ≤ q → q < abs + limit → R q c d →
      Ctl.Rel (R (q + 1)) (ExecRel S) (v q sig c) (w q sig d))
    (h : R abs c d) :
    Ctl.Rel (R (abs + limit)) (ExecRel S) ((positionLoop b idx buf limit abs v).eval (0, c))
      ((positionLoop b idx buf limit abs w).eval (0, d)) := by
  refine While.eval_rel
    (R := fun p q => p.1 = q.1 ∧ R (abs + min p.1 limit) p.2 q.2) ?_ ⟨rfl, by simpa using h⟩
  rintro ⟨i, c⟩ ⟨j, d⟩ ⟨hij, h⟩
  obtain rfl : i = j := hij
  dsimp only at h
  simp only [positionLoop, positionBody]
  split_ifs with hlt
  · rw [min_eq_left hlt.le] at h
    have hnext : ∀ k, i ≤ k → R (abs + min k limit) c d := fun k hk => mono _ _ _ _ (by omega) h
    cases zeroJump idx buf limit i with
    | some skip => exact .next ⟨rfl, hnext _ (Nat.le_add_right _ _)⟩
    | none =>
      cases idx.matchAt b (buf.drop i) with
      | error f => exact .done (.done (.error f))
      | ok o =>
        cases o with
        | none => exact .next ⟨rfl, hnext _ (Nat.le_succ _)⟩
        | some sig =>
          have hv := step (abs + i) sig c d (Nat.le_add_right _ _) (by omega) h
          dsimp only
          generalize v (abs + i) sig c = x at hv ⊢
          generalize w (abs + i) sig d = y at hv ⊢
          cases hv with
          | next h' =>
            refine .next ⟨rfl, ?_⟩
            dsimp only
            rwa [min_eq_left (by omega), ← Nat.add_assoc]
          | done h' => exact .done (.done h')
  · rw [min_eq_right (not_lt.mp hlt)] at h
    exact .done (.next h)

theorem scanChunk_pair (mono : ∀ p q c d, p ≤ q → R p c d → R q c d)
    (step : ∀ q sig c d, abs ≤ q → q < abs + (scanEnd - abs) → R q c d →
      Ctl.Rel (R (q + 1)) (ExecRel S) (v q sig c) (w q sig d))
    (h : R abs c d) :
    ScannedPair R S (scanChunk b src sc scanEnd v abs c) (scanChunk b src sc scanEnd w abs d) := by
  unfold scanChunk
  cases hread : readChunk src sc scanEnd abs with
  | error f => exact .exit (.error f)
  | ok p =>
    match p with
    | ([], limit) => exact .empty
    | (byte :: buf, limit) =>
      have hlimit : limit ≤ scanEnd - abs := by
        obtain ⟨bytes, hb, hread⟩ := exec_bind_ok hread
        have hlen : bytes.length ≤ scanEnd - abs := by
          rw [Source.readAt_ok hb, length_window]
          omega
        cases hread
        split_ifs <;> omega
      have hl := @positionLoop_pair κ κ' ρ ρ' b abs v w R S c d sc.index (byte :: buf) limit mono
        (fun q sig c d hq hlt => step q sig c d hq (by omega)) h
      dsimp only
      generalize (positionLoop b sc.index (byte :: buf) limit abs v).eval (0, c) = x at hl ⊢
      generalize (positionLoop b sc.index (byte :: buf) limit abs w).eval (0, d) = y at hl ⊢
      cases hl with
      | next h' => exact .advance _ h'
      | done h' => exact .exit h'

end Pair

end Unearth
