import Unearth.Lib.Loop

/-!
# Walks over a tree that may not be one

A walk visits the frames of a stack, the last pushed one first, and keeps the keys that it
has visited. What hangs together as a tree on paper may be any graph in fact, so that a
visit finds keys that were visited before. The walk ends because a frame is replaced by
others only when a new key is visited, except for the frames it begins with.
-/

namespace Unearth.TreeWalk
open Loop

variable {φ ρ ε : Type}

/-- What a visit leaves behind. The keys that were read on the way are those whose contents
were looked at; the walk is given up when there is an error. -/
structure VisitResult (φ ρ ε : Type) where
  visited : Finset ℕ
  reads : List ℕ
  pushed : List φ
  reports : List ρ
  error : Option ε

structure State (φ ρ : Type) where
  visited : Finset ℕ
  reads : List ℕ
  stack : List φ
  reports : List ρ

structure WalkResult (ρ ε : Type) where
  reads : List ℕ
  reports : List ρ
  error : Option ε

def State.start (frame : φ) : State φ ρ := ⟨∅, [], [frame], []⟩

section Walk

variable (visit : Finset ℕ → φ → VisitResult φ ρ ε)

def body (s : State φ ρ) : Ctl (State φ ρ) (WalkResult ρ ε) :=
  match s.stack with
  | [] => .done ⟨s.reads, s.reports, none⟩
  | f :: rest =>
    let v := visit s.visited f
    match v.error with
    | some e => .done ⟨s.reads ++ v.reads, s.reports ++ v.reports, some e⟩
    | none => .next ⟨v.visited, s.reads ++ v.reads, v.pushed.reverse ++ rest, s.reports ++ v.reports⟩

/-- At most `fuel` visits from a first frame on. -/
def walk (fuel : ℕ) (frame : φ) : Option (WalkResult ρ ε) := run (body visit) fuel (.start frame)

/-- Visits read keys that are new, and remember them. -/
structure Fresh : Prop where
  grows : ∀ v f, v ⊆ (visit v f).visited
  nodup : ∀ v f, (visit v f).reads.Nodup
  new : ∀ v f, ∀ k ∈ (visit v f).reads, k ∉ v ∧ k ∈ (visit v f).visited

/-- Frames of one kind are pushed, and such a frame leads to others only together with a new
key below a bound. -/
structure Bounded (bound : ℕ) (inner : φ → Prop) : Prop where
  grows : ∀ v f, v ⊆ (visit v f).visited
  pushed : ∀ v f, ∀ g ∈ (visit v f).pushed, inner g
  progress : ∀ v f, inner f → (visit v f).pushed ≠ [] → ∃ k < bound, k ∉ v ∧ k ∈ (visit v f).visited

end Walk

section Rules

variable {visit : Finset ℕ → φ → VisitResult φ ρ ε} {s s' : State φ ρ} {r : WalkResult ρ ε}

theorem body_next (h : body visit s = .next s') : ∃ f rest, s.stack = f :: rest ∧
    s' = ⟨(visit s.visited f).visited, s.reads ++ (visit s.visited f).reads,
      (visit s.visited f).pushed.reverse ++ rest, s.reports ++ (visit s.visited f).reports⟩ := by
  unfold body at h
  split at h
  · cases h
  · rename_i f rest hstack
    dsimp only at h
    split at h
    · cases h
    · cases h
      exact ⟨f, rest, hstack, rfl⟩

theorem body_done (h : body visit s = .done r) :
    (s.stack = [] ∧ r.reads = s.reads ∧ r.reports = s.reports) ∨
    ∃ f rest, s.stack = f :: rest ∧ r.reads = s.reads ++ (visit s.visited f).reads ∧
      r.reports = s.reports ++ (visit s.visited f).reports := by
  unfold body at h
  split at h
  · rename_i hstack
    cases h
    exact .inl ⟨hstack, rfl, rfl⟩
  · rename_i f rest hstack
    dsimp only at h
    split at h
    · cases h
      exact .inr ⟨f, rest, hstack, rfl, rfl⟩
    · cases h

/-- What holds of the first frame and passes to the frames that are pushed holds of every
frame of the stack. -/
theorem stack_inv {P : φ → Prop} (hstep : ∀ v f, P f → ∀ g ∈ (visit v f).pushed, P g)
    (h : Reaches (body visit) s s') (hs : ∀ f ∈ s.stack, P f) : ∀ f ∈ s'.stack, P f := by
  apply h.inv _ hs
  intro t t' ht hb
  obtain ⟨f, rest, hstack, rfl⟩ := body_next hb
  intro g hg
  rcases List.mem_append.mp hg with hg | hg
  · exact hstep _ f (ht f (by rw [hstack]; exact List.mem_cons_self ..)) g (List.mem_reverse.mp hg)
  · exact ht g (by rw [hstack]; exact List.mem_cons_of_mem _ hg)

/-- Every report was made in a visit. -/
theorem mem_reports {fuel : ℕ} {frame : φ} (h : walk visit fuel frame = some r) {p : ρ}
    (hp : p ∈ r.reports) : ∃ s f rest, Reaches (body visit) (.start frame) s ∧ s.stack = f :: rest ∧
      p ∈ (visit s.visited f).reports := by
  obtain ⟨t, hreach, hdone⟩ := exists_reaches_of_run h
  have hmem : ∀ s, Reaches (body visit) (.start frame) s → p ∈ s.reports →
      ∃ s f rest, Reaches (body visit) (.start frame) s ∧ s.stack = f :: rest ∧
        p ∈ (visit s.visited f).reports := by
    intro s hs
    induction hs with
    | refl => exact nofun
    | tail hs hb ih =>
      obtain ⟨f, rest, hstack, rfl⟩ := body_next hb
      intro hp
      rcases List.mem_append.mp hp with hp | hp
      · exact ih hp
      · exact ⟨_, f, rest, hs, hstack, hp⟩
  obtain ⟨-, -, hreports⟩ | ⟨f, rest, hstack, -, hreports⟩ := body_done hdone
  · rw [hreports] at hp
    exact hmem t hreach hp
  · rw [hreports] at hp
    rcases List.mem_append.mp hp with hp | hp
    · exact hmem t hreach hp
    · exact ⟨t, f, rest, hreach, hstack, hp⟩

/-- What a visit reports is reported by the walk that makes it. -/
theorem reports_of_visit {fuel : ℕ} {frame f : φ} {rest : List φ} (h : walk visit fuel frame = some r)
    (hreach : Reaches (body visit) (.start frame) s) (hstack : s.stack = f :: rest) :
    ∀ p ∈ (visit s.visited f).reports, p ∈ r.reports := by
  intro p hp
  have hkept : ∀ t, p ∈ t.reports → (body visit t).Sat (fun t' => p ∈ t'.reports) (fun r => p ∈ r.reports) := by
    intro t ht
    cases hb : body visit t with
    | next t' =>
      obtain ⟨g, rest', -, rfl⟩ := body_next hb
      exact List.mem_append_left _ ht
    | done r' =>
      obtain ⟨-, -, hreports⟩ | ⟨g, rest', -, -, hreports⟩ := body_done hb
      · dsimp only [Ctl.Sat]
        rwa [hreports]
      · dsimp only [Ctl.Sat]
        rw [hreports]
        exact List.mem_append_left _ ht
  obtain ⟨n, hn⟩ := run_of_reached hreach h
  cases n with
  | zero => cases hn
  | succ n =>
    cases hb : body visit s with
    | next s' =>
      rw [run_next hb] at hn
      obtain ⟨g, rest', hcons, rfl⟩ := body_next hb
      rw [hstack] at hcons
      cases hcons
      exact run_inv (I := fun t => p ∈ t.reports) (Q := fun r => p ∈ r.reports) hkept
        (List.mem_append_right _ hp) hn
    | done r' =>
      rw [run_done hb] at hn
      cases hn
      obtain ⟨hnil, -, -⟩ | ⟨g, rest', hcons, -, hreports⟩ := body_done hb
      · rw [hstack] at hnil
        cases hnil
      · rw [hstack] at hcons
        cases hcons
        rw [hreports]
        exact List.mem_append_right _ hp

/-- What the visits of frames make of a property of frames holds of all reports. -/
theorem reports_inv {P : φ → Prop} {Q : ρ → Prop} (hstep : ∀ v f, P f → ∀ g ∈ (visit v f).pushed, P g)
    (hreport : ∀ v f, P f → ∀ p ∈ (visit v f).reports, Q p) {fuel : ℕ} {frame : φ} (hframe : P frame)
    (h : walk visit fuel frame = some r) : ∀ p ∈ r.reports, Q p := by
  intro p hp
  obtain ⟨s, f, rest, hreach, hstack, hp⟩ := mem_reports h hp
  have hstack_inv := stack_inv hstep hreach fun g hg => by
    cases List.mem_singleton.mp hg
    exact hframe
  exact hreport _ f (hstack_inv f (by rw [hstack]; exact List.mem_cons_self ..)) p hp

/-- No key is read twice over a whole walk. -/
theorem reads_nodup (hfresh : Fresh visit) {fuel : ℕ} {frame : φ} (h : walk visit fuel frame = some r) :
    r.reads.Nodup := by
  have happend : ∀ s : State φ ρ, (s.reads.Nodup ∧ ∀ k ∈ s.reads, k ∈ s.visited) → ∀ f,
      (s.reads ++ (visit s.visited f).reads).Nodup := by
    intro s hs f
    rw [List.nodup_append]
    refine ⟨hs.1, hfresh.nodup _ f, fun k hk k' hk' heq => ?_⟩
    rw [heq] at hk
    exact (hfresh.new _ f k' hk').1 (hs.2 k' hk)
  obtain ⟨t, hreach, hdone⟩ := exists_reaches_of_run h
  have ht : t.reads.Nodup ∧ ∀ k ∈ t.reads, k ∈ t.visited := by
    apply hreach.inv _ ⟨List.nodup_nil, nofun⟩
    intro s s' hs hb
    obtain ⟨f, rest, -, rfl⟩ := body_next hb
    refine ⟨happend s hs f, fun k hk => ?_⟩
    rcases List.mem_append.mp hk with hk | hk
    · exact hfresh.grows _ f (hs.2 k hk)
    · exact (hfresh.new _ f k hk).2
  obtain ⟨-, hreads, -⟩ | ⟨f, rest, -, hreads, -⟩ := body_done hdone
  · rw [hreads]
    exact ht.1
  · rw [hreads]
    exact happend t ht f

section Ends

open Classical

variable {bound : ℕ} {inner : φ → Prop}

/-- The frames of the outer kind, the keys below the bound that are not visited, and all frames. -/
noncomputable def size (bound : ℕ) (inner : φ → Prop) (s : State φ ρ) : ℕ × ℕ × ℕ :=
  (s.stack.countP fun f => ¬ inner f, (Finset.range bound \ s.visited).card, s.stack.length)

/-- A visit takes a frame of the outer kind from the stack, or a new key below the bound, or
replaces its frame by nothing. -/
theorem size_lt (hb : Bounded visit bound inner) (h : body visit s = .next s') :
    Prod.Lex (· < ·) (Prod.Lex (· < ·) (· < ·)) (size bound inner s') (size bound inner s) := by
  obtain ⟨f, rest, hstack, rfl⟩ := body_next h
  have hpushed : (visit s.visited f).pushed.reverse.countP (fun f => ¬ inner f) = 0 := by
    rw [List.countP_eq_zero]
    intro g hg
    simpa using hb.pushed s.visited f g (List.mem_reverse.mp hg)
  have hsub : Finset.range bound \ (visit s.visited f).visited ⊆ Finset.range bound \ s.visited :=
    Finset.sdiff_subset_sdiff (Finset.Subset.refl _) (hb.grows _ f)
  unfold size
  rw [hstack, List.countP_append, hpushed, Nat.zero_add]
  by_cases hinner : inner f
  · rw [List.countP_cons_of_neg (by simpa using hinner)]
    apply Prod.Lex.right
    by_cases hnone : (visit s.visited f).pushed = []
    · rw [hnone, List.reverse_nil, List.nil_append, List.length_cons]
      rcases (Finset.card_le_card hsub).lt_or_eq with hlt | heq
      · exact Prod.Lex.left _ _ hlt
      · rw [heq]
        exact Prod.Lex.right _ (Nat.lt_succ_self _)
    · obtain ⟨k, hk, hold, hnew⟩ := hb.progress s.visited f hinner hnone
      apply Prod.Lex.left
      apply Finset.card_lt_card
      refine ⟨hsub, fun hback => ?_⟩
      have hmem := hback (Finset.mem_sdiff.mpr ⟨Finset.mem_range.mpr hk, hold⟩)
      exact (Finset.mem_sdiff.mp hmem).2 hnew
  · rw [List.countP_cons_of_pos (by simpa using hinner)]
    exact Prod.Lex.left _ _ (Nat.lt_succ_self _)

/-- A walk ends from every state. -/
theorem exists_run (hb : Bounded visit bound inner) (s : State φ ρ) : ∃ n r, run (body visit) n s = some r := by
  cases hbody : body visit s with
  | done r => exact ⟨1, r, run_done hbody 0⟩
  | next s' =>
    have hlt := size_lt hb hbody
    obtain ⟨n, r, hr⟩ := exists_run hb s'
    exact ⟨n + 1, r, by rw [run_next hbody, hr]⟩
termination_by size bound inner s
decreasing_by exact hlt

end Ends

theorem exists_walk {bound : ℕ} {inner : φ → Prop} (hb : Bounded visit bound inner) (frame : φ) :
    ∃ n r, walk visit n frame = some r :=
  exists_run hb _

end Rules

end Unearth.TreeWalk
