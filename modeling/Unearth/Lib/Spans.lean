import Mathlib

/-!
# Ascending lists of spans

A span is a half-open range of positions. `Within lo hi l` says that the spans of
`l` lie in `[lo, hi]`, in order and without overlap; `Covers l p` that one of them
holds the position `p`. `coalesce` joins spans that touch. It changes neither the
covered positions nor the total length, and joining in two goes is joining once.
-/

namespace Unearth.Spans

structure Span where
  offset : ℕ
  len : ℕ
  deriving DecidableEq

def Span.stop (s : Span) : ℕ := s.offset + s.len

def Span.Holds (s : Span) (p : ℕ) : Prop := s.offset ≤ p ∧ p < s.stop

def Covers (l : List Span) (p : ℕ) : Prop := ∃ s ∈ l, s.Holds p

def total (l : List Span) : ℕ := (l.map Span.len).sum

def Within : ℕ → ℕ → List Span → Prop
  | lo, hi, [] => lo ≤ hi
  | lo, hi, s :: l => lo ≤ s.offset ∧ Within s.stop hi l

@[simp] theorem covers_nil (p : ℕ) : ¬ Covers [] p := by simp [Covers]

@[simp]
theorem covers_cons (s : Span) (l : List Span) (p : ℕ) :
    Covers (s :: l) p ↔ s.Holds p ∨ Covers l p := by
  simp [Covers]

@[simp]
theorem covers_append (l₁ l₂ : List Span) (p : ℕ) :
    Covers (l₁ ++ l₂) p ↔ Covers l₁ p ∨ Covers l₂ p := by
  simp [Covers, or_and_right, exists_or]

@[simp] theorem total_nil : total [] = 0 := rfl

@[simp]
theorem total_cons (s : Span) (l : List Span) : total (s :: l) = s.len + total l := by
  simp [total]

@[simp]
theorem total_append (l₁ l₂ : List Span) : total (l₁ ++ l₂) = total l₁ + total l₂ := by
  simp [total]

theorem Within.le {lo hi : ℕ} {l : List Span} (h : Within lo hi l) : lo ≤ hi := by
  induction l generalizing lo with
  | nil => exact h
  | cons s l ih =>
    have := ih h.2
    have := h.1
    simp only [Span.stop] at *
    omega

theorem within_cons {lo hi : ℕ} {s : Span} {l : List Span} :
    Within lo hi (s :: l) ↔ lo ≤ s.offset ∧ Within s.stop hi l := Iff.rfl

theorem within_append {lo hi : ℕ} {l₁ l₂ : List Span} :
    Within lo hi (l₁ ++ l₂) ↔ ∃ mid, Within lo mid l₁ ∧ Within mid hi l₂ := by
  induction l₁ generalizing lo with
  | nil =>
    constructor
    · exact fun h => ⟨lo, le_rfl, h⟩
    · rintro ⟨mid, hmid, h⟩
      cases l₂ with
      | nil => exact hmid.trans h
      | cons s l => exact ⟨hmid.trans h.1, h.2⟩
  | cons s l₁ ih =>
    simp only [List.cons_append, within_cons, ih]
    constructor
    · rintro ⟨hs, mid, h₁, h₂⟩
      exact ⟨mid, ⟨hs, h₁⟩, h₂⟩
    · rintro ⟨mid, ⟨hs, h₁⟩, h₂⟩
      exact ⟨hs, mid, h₁, h₂⟩

theorem Within.mono {lo lo' hi hi' : ℕ} {l : List Span} (h : Within lo hi l) (hlo : lo' ≤ lo)
    (hhi : hi ≤ hi') : Within lo' hi' l := by
  induction l generalizing lo lo' with
  | nil => exact (hlo.trans h).trans hhi
  | cons s l ih => exact ⟨hlo.trans h.1, ih h.2 le_rfl⟩

theorem Within.snoc {lo mid hi : ℕ} {l : List Span} {s : Span} (h : Within lo mid l)
    (hs : mid ≤ s.offset) (hi' : s.stop ≤ hi) : Within lo hi (l ++ [s]) :=
  within_append.mpr ⟨mid, h, hs, hi'⟩

theorem Within.holds {lo hi : ℕ} {l : List Span} (h : Within lo hi l) {p : ℕ} (hp : Covers l p) :
    lo ≤ p ∧ p < hi := by
  induction l generalizing lo with
  | nil => simp at hp
  | cons s l ih =>
    have hle := h.2.le
    rcases (covers_cons s l p).mp hp with hs | hl
    · exact ⟨h.1.trans hs.1, lt_of_lt_of_le hs.2 hle⟩
    · obtain ⟨h₁, h₂⟩ := ih h.2 hl
      have := h.1
      simp only [Span.stop] at h₁
      exact ⟨by omega, h₂⟩

theorem Within.mem {lo hi : ℕ} {l : List Span} (h : Within lo hi l) {s : Span} (hs : s ∈ l) :
    lo ≤ s.offset ∧ s.stop ≤ hi := by
  induction l generalizing lo with
  | nil => simp at hs
  | cons t l ih =>
    rcases List.mem_cons.mp hs with rfl | hl
    · exact ⟨h.1, h.2.le⟩
    · obtain ⟨h₁, h₂⟩ := ih h.2 hl
      have := h.1
      simp only [Span.stop] at h₁ ⊢
      simp only [Span.stop] at h₂
      omega

/-- Spans in ascending order are pairwise disjoint. -/
theorem Within.pairwise {lo hi : ℕ} {l : List Span} (h : Within lo hi l) :
    l.Pairwise fun s t => s.stop ≤ t.offset := by
  induction l generalizing lo with
  | nil => exact List.Pairwise.nil
  | cons s l ih => exact List.Pairwise.cons (fun t ht => (h.2.mem ht).1) (ih h.2)

/-- `coalesceFrom prev l` joins `l` onto a list whose last span is `prev`. -/
def coalesceFrom (prev : Span) : List Span → List Span
  | [] => [prev]
  | s :: l =>
    if prev.stop = s.offset then coalesceFrom ⟨prev.offset, prev.len + s.len⟩ l
    else prev :: coalesceFrom s l

def coalesce : List Span → List Span
  | [] => []
  | s :: l => coalesceFrom s l

theorem coalesceFrom_nil (prev : Span) : coalesceFrom prev [] = [prev] := rfl

theorem coalesceFrom_cons (prev s : Span) (l : List Span) : coalesceFrom prev (s :: l) =
    if prev.stop = s.offset then coalesceFrom ⟨prev.offset, prev.len + s.len⟩ l else prev :: coalesceFrom s l := rfl

theorem coalesce_cons (s : Span) (l : List Span) : coalesce (s :: l) = coalesceFrom s l := rfl

theorem coalesceFrom_covers (prev : Span) (l : List Span) (p : ℕ) :
    Covers (coalesceFrom prev l) p ↔ prev.Holds p ∨ Covers l p := by
  induction l generalizing prev with
  | nil => simp [coalesceFrom_nil]
  | cons s l ih =>
    rw [coalesceFrom_cons]
    split_ifs with h
    · rw [ih, covers_cons, ← or_assoc]
      simp only [Span.Holds, Span.stop] at h ⊢
      exact or_congr (by omega) Iff.rfl
    · rw [covers_cons, ih, covers_cons]

@[simp]
theorem coalesce_covers (l : List Span) (p : ℕ) : Covers (coalesce l) p ↔ Covers l p := by
  cases l with
  | nil => rfl
  | cons s l => rw [coalesce_cons, coalesceFrom_covers, covers_cons]

theorem coalesceFrom_total (prev : Span) (l : List Span) :
    total (coalesceFrom prev l) = prev.len + total l := by
  induction l generalizing prev with
  | nil => simp [coalesceFrom_nil]
  | cons s l ih =>
    rw [coalesceFrom_cons]
    split_ifs with h
    · rw [ih, total_cons]; exact Nat.add_assoc _ _ _
    · rw [total_cons, ih, total_cons]

@[simp]
theorem coalesce_total (l : List Span) : total (coalesce l) = total l := by
  cases l with
  | nil => rfl
  | cons s l => rw [coalesce_cons, coalesceFrom_total, total_cons]

theorem coalesceFrom_within {lo hi : ℕ} {prev : Span} {l : List Span}
    (h : Within lo hi (prev :: l)) : Within lo hi (coalesceFrom prev l) := by
  induction l generalizing lo prev with
  | nil => exact h
  | cons s l ih =>
    rw [coalesceFrom_cons]
    split_ifs with ht
    · apply ih
      refine ⟨h.1, ?_⟩
      have hs := h.2.2
      simp only [Span.stop] at ht hs ⊢
      rwa [← Nat.add_assoc, ht]
    · exact ⟨h.1, ih h.2⟩

theorem coalesce_within {lo hi : ℕ} {l : List Span} (h : Within lo hi l) :
    Within lo hi (coalesce l) := by
  cases l with
  | nil => exact h
  | cons s l => exact coalesceFrom_within h

theorem coalesceFrom_separated {lo hi : ℕ} {prev : Span} {l : List Span}
    (h : Within lo hi (prev :: l)) :
    (coalesceFrom prev l).Pairwise fun s t => s.stop < t.offset := by
  induction l generalizing lo prev with
  | nil => exact List.pairwise_singleton _ _
  | cons s l ih =>
    have hs := h.2.1
    rw [coalesceFrom_cons]
    split_ifs with ht
    · have hjoin : Within lo hi (⟨prev.offset, prev.len + s.len⟩ :: l) := by
        refine ⟨h.1, ?_⟩
        have hl := h.2.2
        simp only [Span.stop] at ht hl ⊢
        rwa [← Nat.add_assoc, ht]
      exact ih hjoin
    · have hrest : Within s.offset hi (coalesceFrom s l) := coalesceFrom_within ⟨le_rfl, h.2.2⟩
      refine List.Pairwise.cons (fun t hmem => ?_) (ih ⟨le_rfl, h.2.2⟩)
      have := (hrest.mem hmem).1
      omega

/-- Joined spans do not touch. -/
theorem coalesce_separated {lo hi : ℕ} {l : List Span} (h : Within lo hi l) :
    (coalesce l).Pairwise fun s t => s.stop < t.offset := by
  cases l with
  | nil => exact List.Pairwise.nil
  | cons s l => exact coalesceFrom_separated h

@[simp]
theorem coalesce_eq_nil {l : List Span} : coalesce l = [] ↔ l = [] := by
  cases l with
  | nil => exact Iff.rfl
  | cons s l =>
    simp only [coalesce_cons, List.cons_ne_nil, iff_false]
    induction l generalizing s with
    | nil => simp [coalesceFrom_nil]
    | cons t l ih =>
      rw [coalesceFrom_cons]
      split_ifs
      · exact ih _
      · simp

/-- What holds of the lengths of spans holds of those of joined ones, if it holds of sums. -/
theorem coalesce_len {P : ℕ → Prop} (hadd : ∀ m n, P m → P n → P (m + n)) {l : List Span}
    (h : ∀ s ∈ l, P s.len) : ∀ s ∈ coalesce l, P s.len := by
  have hfrom (prev : Span) (l : List Span) (hprev : P prev.len) (hl : ∀ s ∈ l, P s.len) :
      ∀ s ∈ coalesceFrom prev l, P s.len := by
    induction l generalizing prev with
    | nil => simpa [coalesceFrom_nil] using hprev
    | cons s l ih =>
      obtain ⟨hs, hl⟩ := List.forall_mem_cons.mp hl
      rw [coalesceFrom_cons]
      split_ifs
      · exact ih ⟨prev.offset, prev.len + s.len⟩ (hadd _ _ hprev hs) hl
      · exact List.forall_mem_cons.mpr ⟨hprev, ih s hs hl⟩
  cases l with
  | nil => exact h
  | cons s l =>
    obtain ⟨hs, hl⟩ := List.forall_mem_cons.mp h
    exact hfrom s l hs hl

/-- A joined span begins where one of the spans does. -/
theorem coalesce_offset {P : ℕ → Prop} {l : List Span} (h : ∀ s ∈ l, P s.offset) :
    ∀ s ∈ coalesce l, P s.offset := by
  have hfrom (prev : Span) (l : List Span) (hprev : P prev.offset) (hl : ∀ s ∈ l, P s.offset) :
      ∀ s ∈ coalesceFrom prev l, P s.offset := by
    induction l generalizing prev with
    | nil => simpa [coalesceFrom_nil] using hprev
    | cons s l ih =>
      obtain ⟨hs, hl⟩ := List.forall_mem_cons.mp hl
      rw [coalesceFrom_cons]
      split_ifs
      · exact ih ⟨prev.offset, prev.len + s.len⟩ hprev hl
      · exact List.forall_mem_cons.mpr ⟨hprev, ih s hs hl⟩
  cases l with
  | nil => exact h
  | cons s l =>
    obtain ⟨hs, hl⟩ := List.forall_mem_cons.mp h
    exact hfrom s l hs hl

/-- Joining from `prev` leaves a first span that starts where `prev` does, and joining
the rest onto that span is joining everything at once. -/
theorem coalesceFrom_append (prev : Span) (l : List Span) :
    ∃ q m, coalesceFrom prev l = q :: m ∧ q.offset = prev.offset ∧
      ∀ l', coalesceFrom q (m ++ l') = coalesceFrom prev (l ++ l') := by
  induction l generalizing prev with
  | nil => exact ⟨prev, [], rfl, rfl, fun _ => rfl⟩
  | cons s l ih =>
    by_cases ht : prev.stop = s.offset
    · obtain ⟨q, m, hq, ho, hm⟩ := ih ⟨prev.offset, prev.len + s.len⟩
      refine ⟨q, m, by rw [coalesceFrom_cons, if_pos ht, hq], ho, fun l' => ?_⟩
      rw [hm, List.cons_append, coalesceFrom_cons, if_pos ht]
    · obtain ⟨q, m, hq, ho, hm⟩ := ih s
      refine ⟨prev, q :: m, by rw [coalesceFrom_cons, if_neg ht, hq], rfl, fun l' => ?_⟩
      rw [List.cons_append, List.cons_append, coalesceFrom_cons, coalesceFrom_cons, if_neg ht,
        if_neg (by rwa [ho]), hm]

theorem coalesce_coalesce_append (l₁ l₂ : List Span) :
    coalesce (coalesce l₁ ++ l₂) = coalesce (l₁ ++ l₂) := by
  cases l₁ with
  | nil => rfl
  | cons s l₁ =>
    obtain ⟨q, m, hq, -, hm⟩ := coalesceFrom_append s l₁
    rw [coalesce_cons, hq]
    exact hm l₂

end Unearth.Spans
