import Unearth.Lib.SortedMap

/-!
# What is added up under keys

Items are added one after the other to what a map has under their keys. The entry of a key is what its items
add up to in their order, and what every step adds the whole map adds.
-/

namespace Unearth.SortedMap

variable {ι κ α : Type} [LinearOrder κ] (key : ι → κ) (add : Option α → ι → α)

/-- What a key has. -/
def entry (m : List (κ × α)) (k : κ) : Option α := m.lookup k

/-- An item is added to what its key has. -/
def addItem (m : List (κ × α)) (x : ι) : List (κ × α) := insert (key x) (add (entry m (key x)) x) m

def tally (items : List ι) : List (κ × α) := items.foldl (addItem key add) []

/-- What items add up to, if there are any. -/
def total (items : List ι) : Option α := items.foldl (fun a x => some (add a x)) none

variable {key add} {m : List (κ × α)} {items : List ι}

/-- The entries of a map are in the order of their keys. -/
abbrev Sorted (m : List (κ × α)) : Prop := m.Pairwise fun e f => e.1 < f.1

theorem sorted_insert {k : κ} {x : α} (h : Sorted m) : Sorted (insert k x m) := by
  induction m with
  | nil => exact List.pairwise_singleton _ _
  | cons e rest ih =>
    obtain ⟨j, y⟩ := e
    obtain ⟨hhead, hrest⟩ := List.pairwise_cons.mp h
    unfold insert
    split_ifs with hlt heq
    · refine List.pairwise_cons.mpr ⟨fun f hf => ?_, h⟩
      rcases List.mem_cons.mp hf with rfl | hf
      · exact hlt
      · exact hlt.trans (hhead f hf)
    · subst heq
      exact List.pairwise_cons.mpr ⟨hhead, hrest⟩
    · refine List.pairwise_cons.mpr ⟨fun f hf => ?_, ih hrest⟩
      rcases mem_insert hf with rfl | hf
      · exact lt_of_le_of_ne (not_lt.mp hlt) (Ne.symm heq)
      · exact hhead f hf

theorem sorted_tally (key : ι → κ) (add : Option α → ι → α) (items : List ι) : Sorted (tally key add items) := by
  refine List.foldlRecOn items (addItem key add) List.Pairwise.nil fun m hm x _ => ?_
  exact sorted_insert hm

theorem tally_concat (key : ι → κ) (add : Option α → ι → α) (items : List ι) (x : ι) :
    tally key add (items ++ [x]) = addItem key add (tally key add items) x := by
  rw [tally, List.foldl_append]
  rfl

theorem total_concat (add : Option α → ι → α) (items : List ι) (x : ι) :
    total add (items ++ [x]) = some (add (total add items) x) := by
  rw [total, List.foldl_append]
  rfl

/-- The entry of a key is what its own items add up to. -/
theorem entry_tally (key : ι → κ) (add : Option α → ι → α) (items : List ι) (k : κ) :
    entry (tally key add items) k = total add (items.filter (key · = k)) := by
  induction items using List.reverseRecOn with
  | nil => rfl
  | append_singleton items x ih =>
    rw [tally_concat, addItem, entry, lookup_insert, List.filter_append, ← entry]
    by_cases hx : key x = k
    · have hlast : [x].filter (key · = k) = [x] := List.filter_cons_of_pos (by simpa using hx)
      rw [hlast, total_concat, if_pos hx.symm, ← ih, hx]
    · have hnone : [x].filter (key · = k) = [] := List.filter_cons_of_neg (by simpa using hx)
      rw [hnone, List.append_nil, if_neg (Ne.symm hx), ih]

theorem entry_tally_of {k : κ} {p : ι → Bool} (h : ∀ x ∈ items, key x = k ↔ p x = true) :
    entry (tally key add items) k = total add (items.filter p) := by
  rw [entry_tally]
  congr 1
  refine List.filter_congr fun x hx => ?_
  rw [Bool.eq_iff_iff, decide_eq_true_iff]
  exact h x hx

theorem entry_eq_some (h : Sorted m) {k : κ} {x : α} : entry m k = some x ↔ (k, x) ∈ m := by
  unfold entry
  induction m with
  | nil => simp
  | cons e rest ih =>
    obtain ⟨j, y⟩ := e
    obtain ⟨hhead, hrest⟩ := List.pairwise_cons.mp h
    rw [List.lookup_cons, List.mem_cons]
    by_cases hk : k = j
    · subst hk
      have hother : (k, x) ∉ rest := fun hmem => (hhead (k, x) hmem).ne rfl
      rw [beq_self_eq_true]
      simp only [Option.some.injEq, Prod.mk.injEq, true_and, hother, or_false]
      exact eq_comm
    · rw [beq_eq_false_iff_ne.mpr hk]
      simp only [Prod.mk.injEq, hk, false_and, false_or]
      exact ih hrest

/-- An insertion changes a sum by what it replaces. -/
theorem sum_insert (h : Sorted m) (g : α → ℕ) (k : κ) (x : α) :
    ((insert k x m).map fun e => g e.2).sum + ((entry m k).map g).getD 0 = (m.map fun e => g e.2).sum + g x := by
  unfold entry
  induction m with
  | nil => simp [insert]
  | cons e rest ih =>
    obtain ⟨j, y⟩ := e
    obtain ⟨hhead, hrest⟩ := List.pairwise_cons.mp h
    unfold insert
    rw [List.lookup_cons]
    split_ifs with hlt heq
    · have hnone : rest.lookup k = none := by
        rw [Option.eq_none_iff_forall_not_mem]
        intro y hy
        exact lt_irrefl k (hlt.trans (hhead _ ((entry_eq_some hrest).mp hy)))
      rw [beq_eq_false_iff_ne.mpr hlt.ne]
      simp only [hnone, Option.map_none, Option.getD_none, List.map_cons, List.sum_cons]
      omega
    · rw [beq_iff_eq.mpr heq]
      simp only [Option.map_some, Option.getD_some, List.map_cons, List.sum_cons]
      omega
    · have hstep := ih hrest
      rw [beq_eq_false_iff_ne.mpr heq]
      simp only [List.map_cons, List.sum_cons]
      omega

/-- What every item adds to its entry, all of them add to the map. -/
theorem sum_tally (g : α → ℕ) (w : ι → ℕ)
    (hadd : ∀ before x behind, items = before ++ x :: behind → ∀ a, entry (tally key add before) (key x) = a →
      g (add a x) = (a.map g).getD 0 + w x) :
    ((tally key add items).map fun e => g e.2).sum = (items.map w).sum := by
  induction items using List.reverseRecOn with
  | nil => rfl
  | append_singleton items x ih =>
    have hlast := hadd items x [] rfl _ rfl
    have hstep := sum_insert (sorted_tally key add items) g (key x) (add (entry (tally key add items) (key x)) x)
    have hrest := ih fun before y behind hsplit => hadd before y (behind ++ [x]) (by rw [hsplit]; simp)
    rw [tally_concat, addItem, List.map_append, List.sum_append, List.map_singleton, List.sum_singleton]
    omega

theorem mem_keys_tally {k : κ} : k ∈ (tally key add items).map Prod.fst ↔ k ∈ items.map key := by
  induction items using List.reverseRecOn with
  | nil => rfl
  | append_singleton items x ih =>
    rw [tally_concat, addItem, mem_keys_insert, ih, List.map_append, List.mem_append, List.map_singleton,
      List.mem_singleton, eq_comm (a := k)]

end Unearth.SortedMap
