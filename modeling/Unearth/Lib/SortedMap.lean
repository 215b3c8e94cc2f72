import Mathlib

/-!
# Maps as lists in the order of their keys

An insertion replaces what its key had; `orInsert` leaves it.
-/

namespace Unearth.SortedMap

variable {κ α : Type} [LinearOrder κ]

def insert (k : κ) (x : α) : List (κ × α) → List (κ × α)
  | [] => [(k, x)]
  | (j, y) :: rest =>
    if k < j then (k, x) :: (j, y) :: rest
    else if k = j then (k, x) :: rest
    else (j, y) :: insert k x rest

def orInsert (k : κ) (x : α) : List (κ × α) → List (κ × α)
  | [] => [(k, x)]
  | (j, y) :: rest =>
    if k < j then (k, x) :: (j, y) :: rest
    else if k = j then (j, y) :: rest
    else (j, y) :: orInsert k x rest

theorem insert_nil (k : κ) (x : α) : insert k x [] = [(k, x)] := rfl

theorem insert_cons (k : κ) (x : α) (j : κ) (y : α) (rest : List (κ × α)) : insert k x ((j, y) :: rest) =
    if k < j then (k, x) :: (j, y) :: rest
    else if k = j then (k, x) :: rest
    else (j, y) :: insert k x rest := rfl

theorem mem_insert {k : κ} {x : α} {m : List (κ × α)} {e : κ × α} (h : e ∈ insert k x m) :
    e = (k, x) ∨ e ∈ m := by
  induction m with
  | nil => exact .inl (List.mem_singleton.mp h)
  | cons first rest ih =>
    obtain ⟨j, y⟩ := first
    rw [insert_cons] at h
    split_ifs at h
    · exact List.mem_cons.mp h
    · exact (List.mem_cons.mp h).imp id (List.mem_cons_of_mem _)
    · rcases List.mem_cons.mp h with rfl | h
      · exact .inr (List.mem_cons_self ..)
      · exact (ih h).imp id (List.mem_cons_of_mem _)

/-- The keys after an insertion. -/
theorem mem_keys_insert {k c : κ} {x : α} {m : List (κ × α)} :
    c ∈ (insert k x m).map (·.1) ↔ c ∈ m.map (·.1) ∨ k = c := by
  induction m with
  | nil => simp [insert_nil, eq_comm]
  | cons first rest ih =>
    obtain ⟨j, y⟩ := first
    rw [insert_cons]
    split_ifs with hlt heq
    · simp only [List.map_cons, List.mem_cons]
      tauto
    · subst heq
      simp only [List.map_cons, List.mem_cons]
      tauto
    · rw [List.map_cons, List.mem_cons, ih, List.map_cons, List.mem_cons, or_assoc]

theorem lookup_insert (k c : κ) (x : α) (m : List (κ × α)) :
    (insert k x m).lookup c = if c = k then some x else m.lookup c := by
  induction m with
  | nil =>
    rw [insert_nil, List.lookup_cons]
    by_cases h : c = k
    · rw [beq_iff_eq.mpr h, if_pos h]
    · rw [beq_eq_false_iff_ne.mpr h, if_neg h]
  | cons e rest ih =>
    obtain ⟨j, y⟩ := e
    rw [insert_cons]
    by_cases hck : c = k
    · subst hck
      rw [if_pos rfl] at ih ⊢
      split_ifs with hlt heq
      · rw [List.lookup_cons, beq_self_eq_true]
      · rw [List.lookup_cons, beq_self_eq_true]
      · rw [List.lookup_cons, ih, beq_eq_false_iff_ne.mpr heq]
    · have hother : (c == k) = false := beq_eq_false_iff_ne.mpr hck
      rw [if_neg hck] at ih ⊢
      split_ifs with hlt heq
      · rw [List.lookup_cons, hother]
      · subst heq
        rw [List.lookup_cons, List.lookup_cons, hother]
      · rw [List.lookup_cons, List.lookup_cons, ih]

theorem insert_last {k : κ} {x : α} {m : List (κ × α)} (h : ∀ e ∈ m, e.1 < k) : insert k x m = m ++ [(k, x)] := by
  induction m with
  | nil => rfl
  | cons e m ih =>
    have he := h e List.mem_cons_self
    rw [insert_cons]
    rw [if_neg he.not_gt, if_neg he.ne', ih fun e he => h e (List.mem_cons_of_mem _ he)]
    rfl

/-- Entries in the order of their keys are inserted as they are. -/
theorem foldl_insert_sorted {l : List (κ × α)} (h : l.Pairwise fun e f => e.1 < f.1) :
    l.foldl (fun m e => insert e.1 e.2 m) [] = l := by
  have hgo : ∀ l m : List (κ × α), (m ++ l).Pairwise (fun e f => e.1 < f.1) →
      l.foldl (fun m e => insert e.1 e.2 m) m = m ++ l := by
    intro l
    induction l with
    | nil => exact fun m _ => (List.append_nil m).symm
    | cons e l ih =>
      intro m h
      have hlast : ∀ f ∈ m, f.1 < e.1 := fun f hf => (List.pairwise_append.mp h).2.2 f hf e List.mem_cons_self
      rw [List.append_cons] at h ⊢
      rw [List.foldl_cons, insert_last hlast, ih _ h]
  exact hgo l [] h

end Unearth.SortedMap
