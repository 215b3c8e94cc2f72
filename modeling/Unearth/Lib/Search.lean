import Unearth.Lib.Loop

/-!
# Searching every position of a text

`hits find n off l` tries `find` on the first `n` suffixes of `l`, whose positions
count from `off`. When `find` looks at no more than `L` symbols, it finds the same in
a text that is cut `L` symbols behind the last position, so that a text can be searched
in pieces that overlap. `visitAll` hands what is found to a visitor that may stop.
-/

namespace Unearth.Search
open Loop

variable {α σ κ ρ : Type*}

def hits (find : List α → Option σ) : ℕ → ℕ → List α → List (ℕ × σ)
  | 0, _, _ => []
  | n + 1, off, l =>
    match find l with
    | some s => (off, s) :: hits find n (off + 1) l.tail
    | none => hits find n (off + 1) l.tail

theorem hits_eq_filterMap (find : List α → Option σ) (n off : ℕ) (l : List α) :
    hits find n off l =
      (List.range' off n).filterMap fun p => (find (l.drop (p - off))).map (p, ·) := by
  induction n generalizing off l with
  | zero => rfl
  | succ n ih =>
    have hrest : hits find n (off + 1) l.tail =
        (List.range' (off + 1) n).filterMap fun p => (find (l.drop (p - off))).map (p, ·) := by
      rw [ih]
      apply List.filterMap_congr
      intro p hp
      have hlo := (List.mem_range'_1.mp hp).1
      rw [List.drop_tail, show p - (off + 1) + 1 = p - off by omega]
    rw [hits, List.range'_succ, List.filterMap_cons, Nat.sub_self, List.drop_zero, hrest]
    cases find l <;> rfl

/-- The result on a text depends on its first `L` symbols only. -/
def Local (find : List α → Option σ) (L : ℕ) : Prop := ∀ l, find (l.take L) = find l

variable {find : List α → Option σ}

theorem hits_add (m n off : ℕ) (l : List α) :
    hits find (m + n) off l = hits find m off l ++ hits find n (off + m) (l.drop m) := by
  induction m generalizing off l with
  | zero => simp [hits]
  | succ m ih =>
    rw [Nat.add_right_comm m 1 n, hits, hits, ih, List.drop_tail, Nat.add_assoc off 1 m,
      Nat.add_comm 1 m]
    cases find l <;> rfl

theorem hits_eq_nil {n off : ℕ} {l : List α} (h : ∀ i < n, find (l.drop i) = none) :
    hits find n off l = [] := by
  induction n generalizing off l with
  | zero => rfl
  | succ n ih =>
    have h0 : find l = none := h 0 (Nat.succ_pos n)
    simp only [hits, h0]
    apply ih
    intro i hi
    rw [List.drop_tail]
    exact h (i + 1) (by omega)

/-- Cutting the text behind the reach of the last position changes nothing. -/
theorem hits_take {L m k off : ℕ} {l : List α} (h : Local find L) (hk : m + L ≤ k + 1) :
    hits find m off (l.take k) = hits find m off l := by
  induction m generalizing k off l with
  | zero => rfl
  | succ m ih =>
    have hfind : find (l.take k) = find l := by
      rw [← h (l.take k), List.take_take, min_eq_left (by omega), h]
    have htail : (l.take k).tail = l.tail.take (k - 1) := by
      cases l with
      | nil => simp
      | cons x l => cases k <;> simp
    have hrest : hits find m (off + 1) (l.tail.take (k - 1)) = hits find m (off + 1) l.tail := by
      cases m with
      | zero => rfl
      | succ m => exact ih (by omega)
    simp only [hits, hfind, htail, hrest]

def visitAll (visit : ℕ → σ → κ → Ctl κ ρ) : List (ℕ × σ) → κ → Ctl κ ρ
  | [], s => .next s
  | (p, x) :: l, s =>
    match visit p x s with
    | .next s' => visitAll visit l s'
    | .done r => .done r

theorem visitAll_append (visit : ℕ → σ → κ → Ctl κ ρ) (l₁ l₂ : List (ℕ × σ)) (s : κ) :
    visitAll visit (l₁ ++ l₂) s =
      match visitAll visit l₁ s with
      | .next s' => visitAll visit l₂ s'
      | .done r => .done r := by
  induction l₁ generalizing s with
  | nil => rfl
  | cons x l₁ ih =>
    simp only [List.cons_append, visitAll]
    cases visit x.1 x.2 s with
    | next s' => exact ih s'
    | done r => rfl

/-- A visitor that only collects has collected what was found. -/
theorem visitAll_collect (l : List (ℕ × σ)) (s : List (ℕ × σ)) :
    visitAll (fun p x s => (.next (s ++ [(p, x)]) : Ctl (List (ℕ × σ)) ρ)) l s = .next (s ++ l) := by
  induction l generalizing s with
  | nil => simp [visitAll]
  | cons x l ih =>
    simp only [visitAll, ih, List.append_assoc, List.singleton_append]

end Unearth.Search
