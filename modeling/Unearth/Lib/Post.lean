import Mathlib

/-!
# What a computation that may fail ends with

A computation ends with a value, of which something is known, or with an error, of which
it is known that it is one of those allowed. The rules follow the shape of a program. When
every error is allowed the value alone is spoken of; when none is, the computation succeeds.
-/

namespace Unearth.Post

variable {ε α β γ : Type} {E : ε → Prop}

def Ends (E : ε → Prop) (P : α → Prop) : Except ε α → Prop
  | .ok a => P a
  | .error e => E e

theorem Ends.ok {P : α → Prop} {a : α} (h : P a) : Ends E P (.ok a) := h

theorem Ends.error {P : α → Prop} {e : ε} (h : E e) : Ends E P (.error e) := h

theorem Ends.any (x : Except ε α) : Ends (fun _ => True) (fun _ => True) x := by
  cases x <;> trivial

theorem Ends.mono {P Q : α → Prop} {x : Except ε α} (h : Ends E P x) (hPQ : ∀ a, P a → Q a) :
    Ends E Q x := by
  cases x with
  | error e => exact h
  | ok a => exact hPQ a h

theorem Ends.bind {P : α → Prop} {Q : β → Prop} {x : Except ε α} {f : α → Except ε β}
    (hx : Ends E P x) (hf : ∀ a, P a → Ends E Q (f a)) : Ends E Q (x >>= f) := by
  cases x with
  | error e => exact hx
  | ok a => exact hf a hx

theorem Ends.of_bind {Q : β → Prop} {x : Except ε α} {f : α → Except ε β} (h : Ends E Q (x >>= f)) :
    Ends E (fun _ => True) x := by
  cases x with
  | error e => exact h
  | ok a => trivial

theorem Ends.bind_iff {x : Except ε α} {f : α → Except ε β} : Ends E (fun _ => True) (x >>= f) ↔
    Ends E (fun _ => True) x ∧ ∀ a, x = .ok a → Ends E (fun _ => True) (f a) := by
  cases x with
  | error e => exact ⟨fun h => ⟨h, fun a ha => by cases ha⟩, And.left⟩
  | ok a =>
    constructor
    · intro h
      refine ⟨trivial, fun a' ha => ?_⟩
      cases ha
      exact h
    · exact fun h => h.2 a rfl

theorem Ends.ite {P : α → Prop} {c : Prop} [Decidable c] {x y : Except ε α} (hx : c → Ends E P x)
    (hy : ¬ c → Ends E P y) : Ends E P (if c then x else y) := by
  by_cases hc : c
  · simpa only [if_pos hc] using hx hc
  · simpa only [if_neg hc] using hy hc

theorem Ends.of_ok {P : α → Prop} {x : Except ε α} {a : α} (h : Ends E P x) (hx : x = .ok a) : P a := by
  rw [hx] at h
  exact h

theorem Ends.exists_ok {P : α → Prop} {x : Except ε α} (h : Ends (fun _ => False) P x) :
    ∃ a, x = .ok a ∧ P a := by
  cases x with
  | error e => exact h.elim
  | ok a => exact ⟨a, rfl, h⟩

theorem Ends.of_error {P : α → Prop} {x : Except ε α} {e : ε} (h : Ends E P x) (hx : x = .error e) :
    E e := by
  rw [hx] at h
  exact h

theorem Ends.error_of_not {x : Except ε α} (h : ¬ Ends E (fun _ => True) x) :
    ∃ e, x = .error e ∧ ¬ E e := by
  cases x with
  | error e => exact ⟨e, rfl, h⟩
  | ok a => exact absurd trivial h

/-- A fold keeps what each of its steps keeps. -/
theorem Ends.foldlM {I : β → Prop} {f : β → α → Except ε β} {l : List α}
    (hstep : ∀ b, I b → ∀ a ∈ l, Ends E I (f b a)) {b : β} (hb : I b) : Ends E I (l.foldlM f b) := by
  induction l generalizing b with
  | nil => exact hb
  | cons a rest ih =>
    rw [List.foldlM_cons]
    apply (hstep b hb a (List.mem_cons_self ..)).bind
    intro c hc
    exact ih (fun c hc x hx => hstep c hc x (List.mem_cons_of_mem _ hx)) hc

/-- What is filtered out is what passed the test. -/
theorem Ends.filterM {f : α → Except ε Bool} {l : List α} (h : ∀ a ∈ l, Ends E (fun _ => True) (f a)) :
    Ends E (fun r => ∀ a, a ∈ r ↔ a ∈ l ∧ f a = .ok true) (l.filterM f) := by
  have haux : ∀ acc : List α, Ends E (fun r => ∀ a, a ∈ r ↔ a ∈ acc ∨ (a ∈ l ∧ f a = .ok true))
      (l.filterAuxM f acc) := by
    induction l with
    | nil => exact fun acc => Ends.ok fun a => by simp
    | cons x rest ih =>
      intro acc
      have hrest := ih fun a ha => h a (List.mem_cons_of_mem _ ha)
      unfold List.filterAuxM
      cases hx : f x with
      | error e => exact (h x List.mem_cons_self).of_error hx
      | ok keep =>
        cases keep with
        | true =>
          refine (hrest (x :: acc)).mono fun r hr a => ?_
          rw [hr a, List.mem_cons, List.mem_cons]
          constructor
          · rintro ((rfl | hacc) | hlater)
            · exact .inr ⟨.inl rfl, hx⟩
            · exact .inl hacc
            · exact .inr ⟨.inr hlater.1, hlater.2⟩
          · rintro (hacc | ⟨rfl | hlater, ha⟩)
            · exact .inl (.inr hacc)
            · exact .inl (.inl rfl)
            · exact .inr ⟨hlater, ha⟩
        | false =>
          refine (hrest acc).mono fun r hr a => ?_
          rw [hr a, List.mem_cons]
          constructor
          · rintro (hacc | hlater)
            · exact .inl hacc
            · exact .inr ⟨.inr hlater.1, hlater.2⟩
          · rintro (hacc | ⟨rfl | hlater, ha⟩)
            · exact .inl hacc
            · rw [hx] at ha
              cases ha
            · exact .inr ⟨hlater, ha⟩
  unfold List.filterM
  refine (haux []).bind fun r hr => Ends.ok fun a => ?_
  rw [List.mem_reverse, hr a]
  simp

/-- A fold that ends well has come through all of its steps, if these fail only in other ways. -/
theorem Ends.of_foldlM {P : β → Prop} {f : β → α → Except ε β} {l : List α} {b : β}
    (h : Ends E P (l.foldlM f b)) (hE : ∀ b, ∀ a ∈ l, Ends (fun e => ¬ E e) (fun _ => True) (f b a)) :
    ∀ a ∈ l, ∃ b c, f b a = .ok c := by
  induction l generalizing b with
  | nil => exact List.forall_mem_nil _
  | cons a rest ih =>
    rw [List.foldlM_cons] at h
    cases hb : f b a with
    | error e =>
      rw [hb] at h
      exact absurd h ((hE b a (List.mem_cons_self ..)).of_error hb)
    | ok c =>
      rw [hb] at h
      exact List.forall_mem_cons.mpr ⟨⟨b, c, hb⟩, ih h fun b x hx => hE b x (List.mem_cons_of_mem _ hx)⟩

theorem mapM_ok {f : α → Except ε β} {g : α → β} {l : List α} (h : ∀ x ∈ l, f x = .ok (g x)) :
    l.mapM f = .ok (l.map g) := by
  induction l with
  | nil => rfl
  | cons x l ih =>
    rw [List.mapM_cons, h x List.mem_cons_self, ih fun y hy => h y (List.mem_cons_of_mem _ hy)]
    rfl

theorem Ends.mapM {P : β → Prop} {f : α → Except ε β} {l : List α}
    (hstep : ∀ a ∈ l, Ends E P (f a)) :
    Ends E (fun r => r.length = l.length ∧ ∀ b ∈ r, P b) (l.mapM f) := by
  induction l with
  | nil =>
    rw [List.mapM_nil]
    exact Ends.ok ⟨rfl, nofun⟩
  | cons a rest ih =>
    rw [List.mapM_cons]
    apply (hstep a (List.mem_cons_self ..)).bind
    intro b hb
    apply (ih fun x hx => hstep x (List.mem_cons_of_mem _ hx)).bind
    intro bs hbs
    refine Ends.ok ⟨by rw [List.length_cons, hbs.1, List.length_cons], fun x hx => ?_⟩
    rcases List.mem_cons.mp hx with rfl | hx
    · exact hb
    · exact hbs.2 x hx

theorem Ends.filterMapM {P : β → Prop} {f : α → Except ε (Option β)} {l : List α}
    (hstep : ∀ a ∈ l, Ends E (fun r => ∀ b ∈ r, P b) (f a)) : Ends E (fun r => ∀ b ∈ r, P b) (l.filterMapM f) := by
  induction l with
  | nil => exact Ends.ok (List.forall_mem_nil _)
  | cons a rest ih =>
    rw [List.filterMapM_cons]
    apply (hstep a (List.mem_cons_self ..)).bind
    intro o ho
    have hrest := ih fun x hx => hstep x (List.mem_cons_of_mem _ hx)
    cases o with
    | none => exact hrest
    | some b =>
      apply hrest.bind
      intro bs hbs
      exact Ends.ok (List.forall_mem_cons.mpr ⟨ho b rfl, hbs⟩)

/-- What each step of a fold adds is what the fold has gathered at its end. -/
theorem foldlM_gathers {G : β → Prop} {R : α → Prop} {f : β → α → Except ε β} {l : List α}
    (hstep : ∀ b, ∀ a ∈ l, ∀ c, f b a = .ok c → (G c ↔ G b ∨ R a)) {b c : β} (h : l.foldlM f b = .ok c) :
    G c ↔ G b ∨ ∃ a ∈ l, R a := by
  induction l generalizing b with
  | nil =>
    cases h
    simp
  | cons a rest ih =>
    rw [List.foldlM_cons] at h
    cases ha : f b a with
    | error e =>
      rw [ha] at h
      cases h
    | ok d =>
      rw [ha] at h
      rw [ih (fun b x hx => hstep b x (List.mem_cons_of_mem _ hx)) h, hstep b a (List.mem_cons_self ..) d ha,
        List.exists_mem_cons_iff, or_assoc]

/-- The elements of a list that was filtered, none of which has failed. -/
theorem filterMapM_ok {f : α → Except ε (Option β)} {l : List α} {r : List β} (h : l.filterMapM f = .ok r) :
    (∀ a ∈ l, ∃ o, f a = .ok o) ∧ ∀ b, b ∈ r ↔ ∃ a ∈ l, f a = .ok (some b) := by
  induction l generalizing r with
  | nil =>
    cases h
    simp
  | cons a rest ih =>
    rw [List.filterMapM_cons] at h
    cases ha : f a with
    | error e =>
      rw [ha] at h
      cases h
    | ok o =>
      rw [ha] at h
      cases o with
      | none =>
        obtain ⟨hall, hmem⟩ := ih h
        refine ⟨List.forall_mem_cons.mpr ⟨⟨_, ha⟩, hall⟩, fun b => ?_⟩
        rw [hmem, List.exists_mem_cons_iff, ha]
        simp
      | some c =>
        change (rest.filterMapM f >>= fun bs => pure (c :: bs)) = .ok r at h
        cases hrest : rest.filterMapM f with
        | error e =>
          rw [hrest] at h
          cases h
        | ok bs =>
          rw [hrest] at h
          cases h
          obtain ⟨hall, hmem⟩ := ih hrest
          refine ⟨List.forall_mem_cons.mpr ⟨⟨_, ha⟩, hall⟩, fun b => ?_⟩
          rw [List.mem_cons, hmem, List.exists_mem_cons_iff, ha, Except.ok.injEq, Option.some.injEq, eq_comm]

/-- A fold over images is the image of a fold. -/
theorem foldlM_image {φ : β → γ} {f : γ → α → Except ε γ} {g : β → α → Except ε β}
    (h : ∀ s x, f (φ s) x = φ <$> g s x) (l : List α) (s : β) : l.foldlM f (φ s) = φ <$> l.foldlM g s := by
  induction l generalizing s with
  | nil => rfl
  | cons x rest ih =>
    rw [List.foldlM_cons, List.foldlM_cons, h]
    cases g s x with
    | error e => rfl
    | ok t => exact ih t

end Unearth.Post
