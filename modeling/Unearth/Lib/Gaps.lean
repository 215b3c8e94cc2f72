import Mathlib

/-!
# Sequences with gaps

Some places of a sequence have an entry and some are gaps. What is kept is the entries one behind
the other, what is meant is the entries at their places with zeros in the gaps. The two begin alike
for so long as no entry behind a gap is kept that is not a zero. Where nothing at all is behind a
gap, every entry that is kept is at its place.
-/

namespace Unearth.Gaps

variable {α : Type} [Zero α] {c : List (Option α)} {n : ℕ}

def kept (c : List (Option α)) : List α := c.reduceOption

def meant (c : List (Option α)) : List α := c.map (·.getD 0)

omit [Zero α] in
theorem kept_append (c d : List (Option α)) : kept (c ++ d) = kept c ++ kept d := List.reduceOption_append c d

theorem meant_append (c d : List (Option α)) : meant (c ++ d) = meant c ++ meant d := List.map_append

/-- There are `n` entries, and those of the first `n` that are behind a gap are zeros. -/
def Aligned (n : ℕ) (c : List (Option α)) : Prop :=
  n ≤ (kept c).length ∧
    ∀ x ∈ (kept (c.dropWhile Option.isSome)).take (n - (c.takeWhile Option.isSome).length), x = 0

/-- Entries that begin like as many zeros and what is meant behind these are all zeros. -/
theorem take_kept_of_meant (c : List (Option α)) {m n : ℕ} (hm : 0 < m)
    (h : (kept c).take (n + m) = List.replicate m 0 ++ (meant c).take n) (hlen : n ≤ c.length) :
    (kept c).take (n + m) = List.replicate (n + m) 0 := by
  induction c generalizing m n with
  | nil =>
    rw [kept, List.reduceOption_nil, List.take_nil, eq_comm, List.append_eq_nil_iff, List.replicate_eq_nil_iff] at h
    omega
  | cons x c ih =>
    cases n with
    | zero => rwa [List.take_zero, List.append_nil, Nat.zero_add, ← Nat.zero_add m] at h
    | succ n =>
      rw [List.length_cons, Nat.add_le_add_iff_right] at hlen
      rw [meant, List.map_cons, List.take_succ_cons] at h
      cases x with
      | none =>
        have hzeros : List.replicate m 0 ++ (none : Option α).getD 0 :: (meant c).take n =
            List.replicate (m + 1) 0 ++ (meant c).take n := by
          rw [List.replicate_succ', List.append_assoc]
          rfl
        rw [kept, List.reduceOption_cons_of_none, Nat.add_right_comm, Nat.add_assoc] at h ⊢
        exact ih (Nat.succ_pos m) (h.trans hzeros) hlen
      | some x =>
        obtain ⟨m, rfl⟩ := Nat.exists_eq_succ_of_ne_zero hm.ne'
        rw [kept, List.reduceOption_cons_of_some, Nat.add_right_comm, List.take_succ_cons, List.replicate_succ,
          List.cons_append, List.cons.injEq] at h
        obtain ⟨rfl, h⟩ := h
        have hzeros : List.replicate m 0 ++ (some (0 : α)).getD 0 :: (meant c).take n =
            List.replicate (m + 1) 0 ++ (meant c).take n := by
          rw [List.replicate_succ', List.append_assoc]
          rfl
        rw [kept, List.reduceOption_cons_of_some, Nat.add_right_comm, List.take_succ_cons, List.replicate_succ]
        exact congrArg _ (ih (Nat.succ_pos m) (h.trans hzeros) hlen)

/-- Where all that is kept is zeros, so is all that is meant. -/
theorem take_meant_of_kept (c : List (Option α)) {m n : ℕ} (h : (kept c).take (n + m) = List.replicate (n + m) 0)
    (hlen : n ≤ c.length) : (meant c).take n = List.replicate n 0 := by
  induction c generalizing m n with
  | nil =>
    rw [Nat.le_zero.mp hlen]
    rfl
  | cons x c ih =>
    cases n with
    | zero => rfl
    | succ n =>
      rw [List.length_cons, Nat.add_le_add_iff_right] at hlen
      rw [meant, List.map_cons, List.take_succ_cons, List.replicate_succ]
      cases x with
      | none =>
        rw [kept, List.reduceOption_cons_of_none, Nat.add_right_comm, Nat.add_assoc] at h
        exact congrArg _ (ih h hlen)
      | some x =>
        rw [kept, List.reduceOption_cons_of_some, Nat.add_right_comm, List.take_succ_cons, List.replicate_succ,
          List.cons.injEq] at h
        rw [h.1]
        exact congrArg _ (ih h.2 hlen)

/-- What is kept begins with what is meant exactly when no entry is in another one's place. -/
theorem take_kept_eq_iff (hlen : n ≤ c.length) : (kept c).take n = (meant c).take n ↔ Aligned n c := by
  induction c generalizing n with
  | nil =>
    rw [Nat.le_zero.mp hlen]
    simp [Aligned]
  | cons x c ih =>
    cases n with
    | zero => simp [Aligned]
    | succ n =>
      rw [List.length_cons, Nat.add_le_add_iff_right] at hlen
      cases x with
      | some x =>
        rw [kept, List.reduceOption_cons_of_some, meant, List.map_cons, List.take_succ_cons, List.take_succ_cons,
          Option.getD_some, List.cons.injEq, and_iff_right rfl]
        refine (ih hlen).trans ?_
        unfold Aligned
        rw [List.dropWhile_cons_of_pos rfl, List.takeWhile_cons_of_pos rfl, List.length_cons, Nat.add_sub_add_right,
          kept, kept, kept, List.reduceOption_cons_of_some, List.length_cons, Nat.add_le_add_iff_right]
      | none =>
        rw [kept, List.reduceOption_cons_of_none, meant, List.map_cons, List.take_succ_cons, Option.getD_none]
        change (kept c).take (n + 1) = 0 :: (meant c).take n ↔ _
        have hall : (∀ x ∈ (kept c).take (n + 1), x = 0) ∧ n + 1 ≤ (kept c).length ↔
            (kept c).take (n + 1) = List.replicate (n + 1) 0 := by
          rw [List.eq_replicate_iff, List.length_take, min_eq_left_iff, and_comm]
        have haligned : Aligned (n + 1) (none :: c) ↔ (kept c).take (n + 1) = List.replicate (n + 1) 0 := by
          rw [← hall, and_comm]
          unfold Aligned
          rw [kept, List.reduceOption_cons_of_none, List.dropWhile_cons_of_neg (by simp),
            List.takeWhile_cons_of_neg (by simp), List.length_nil, Nat.sub_zero, kept, List.reduceOption_cons_of_none]
          rfl
        rw [haligned]
        constructor
        · intro h
          exact take_kept_of_meant c Nat.one_pos h hlen
        · intro h
          rw [take_meant_of_kept c h hlen, ← List.replicate_succ]
          exact h

/-- Without a gap among the first places, each entry is at its own. -/
theorem aligned_of_present (hlen : n ≤ c.length) (h : ∀ x ∈ c.take n, x.isSome) : Aligned n c := by
  apply (take_kept_eq_iff hlen).mp
  induction c generalizing n with
  | nil => rfl
  | cons x c ih =>
    cases n with
    | zero => rfl
    | succ n =>
      rw [List.length_cons, Nat.add_le_add_iff_right] at hlen
      rw [List.take_succ_cons] at h
      obtain ⟨y, rfl⟩ := Option.isSome_iff_exists.mp (h x List.mem_cons_self)
      rw [kept, List.reduceOption_cons_of_some, meant, List.map_cons, List.take_succ_cons, List.take_succ_cons]
      exact congrArg _ (ih hlen fun z hz => h z (List.mem_cons_of_mem _ hz))

section Gapless

variable {α : Type}

/-- No entry is behind a gap. -/
def Gapless (l : List (Option α)) : Prop :=
  ∀ i j : ℕ, i < j → l[i]? = some none → l[j]? = some none ∨ l[j]? = none

/-- What is there is where it was when nothing that is missing comes before it. -/
theorem Gapless.getElem?_reduceOption {l : List (Option α)} (h : Gapless l) (i : ℕ) :
    l.reduceOption[i]? = (l[i]?).join := by
  induction l generalizing i with
  | nil => rfl
  | cons x l ih =>
    have hrest : Gapless l := fun i j hij hi => h (i + 1) (j + 1) (Nat.succ_lt_succ hij) hi
    cases x with
    | some a =>
      rw [List.reduceOption_cons_of_some]
      cases i with
      | zero => rfl
      | succ i => exact ih hrest i
    | none =>
      have hnone (j : ℕ) : (l[j]?).join = none := by
        rcases h 0 (j + 1) j.succ_pos rfl with hj | hj
        · rw [List.getElem?_cons_succ] at hj
          rw [hj]
          rfl
        · rw [List.getElem?_cons_succ] at hj
          rw [hj]
          rfl
      rw [List.reduceOption_cons_of_none, ih hrest, hnone]
      cases i with
      | zero => rfl
      | succ i => exact (hnone i).symm

/-- What is missing comes behind what is there, also behind a part. -/
theorem Gapless.behind {l m : List (Option α)} (h : Gapless (l ++ m)) : Gapless m := by
  intro i j hij hi
  have hgap := h (l.length + i) (l.length + j) (by omega)
  rw [List.getElem?_append_right (by omega), List.getElem?_append_right (by omega), Nat.add_sub_cancel_left,
    Nat.add_sub_cancel_left] at hgap
  exact hgap hi

/-- Behind a part of which nothing is there, nothing is there. -/
theorem Gapless.reduceOption_eq_nil {l m : List (Option α)} (h : Gapless (l ++ m)) (hne : l ≠ [])
    (hnone : l.reduceOption = []) : (l ++ m).reduceOption = [] := by
  obtain ⟨x, l, rfl⟩ := List.exists_cons_of_ne_nil hne
  cases x with
  | some a =>
    rw [List.reduceOption_cons_of_some] at hnone
    cases hnone
  | none =>
    rw [List.reduceOption, List.filterMap_eq_nil_iff]
    intro x hx
    obtain ⟨j, hj⟩ := List.getElem?_of_mem hx
    cases j with
    | zero =>
      cases hj
      rfl
    | succ j =>
      rcases h 0 (j + 1) j.succ_pos rfl with hgap | hgap
      · rw [hj] at hgap
        exact Option.some.inj hgap
      · rw [hj] at hgap
        cases hgap

/-- An entry of lists of one length put one behind the other. -/
theorem getElem?_flatMap {β : Type} {f : α → List β} {k : ℕ} (hk : 0 < k) {l : List α}
    (h : ∀ x ∈ l, (f x).length = k) (j : ℕ) : (l.flatMap f)[j]? = (l[j / k]?).bind fun x => (f x)[j % k]? := by
  induction l generalizing j with
  | nil => simp
  | cons x l ih =>
    rw [List.flatMap_cons]
    have hx := h x List.mem_cons_self
    by_cases hj : j < k
    · rw [List.getElem?_append_left (hj.trans_eq hx.symm), Nat.div_eq_of_lt hj, Nat.mod_eq_of_lt hj]
      rfl
    · rw [not_lt] at hj
      rw [List.getElem?_append_right (hx.trans_le hj), hx, ih (fun y hy => h y (List.mem_cons_of_mem _ hy)),
        Nat.div_eq_sub_div hk hj, Nat.mod_eq_sub_mod hj]
      rfl

end Gapless

end Unearth.Gaps
