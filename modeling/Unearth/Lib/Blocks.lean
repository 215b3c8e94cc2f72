import Mathlib

/-!
# A message that is taken in blocks

A state takes in a block at a time, as long as there is a whole one. What is left is less than a block, and
stands in front of what comes next.
-/

namespace Unearth.Blocks

variable {α σ : Type} (n : ℕ) (absorb : σ → List α → σ)

/-- The state after the whole blocks, and what is left. -/
def feed (s : σ) (l : List α) : σ × List α :=
  if 0 < n ∧ n ≤ l.length then feed (absorb s (l.take n)) (l.drop n) else (s, l)
termination_by l.length
decreasing_by
  rename_i h
  rw [List.length_drop]
  omega

variable {n absorb} {s : σ} {l m : List α}

theorem feed_short (h : l.length < n) : feed n absorb s l = (s, l) := by
  rw [feed, if_neg (by omega)]

theorem feed_block (hn : 0 < n) (hl : l.length = n) : feed n absorb s (l ++ m) = feed n absorb (absorb s l) m := by
  rw [feed, if_pos ⟨hn, by rw [List.length_append]; omega⟩, List.take_left' hl, List.drop_left' hl]

theorem feed_append (hn : 0 < n) (s : σ) (l m : List α) :
    feed n absorb s (l ++ m) = feed n absorb (feed n absorb s l).1 ((feed n absorb s l).2 ++ m) := by
  induction s, l using feed.induct n absorb with
  | case1 s l h ih =>
    have hsplit : l ++ m = l.take n ++ (l.drop n ++ m) := by rw [← List.append_assoc, List.take_append_drop]
    have hstep : feed n absorb s l = feed n absorb (absorb s (l.take n)) (l.drop n) := by rw [feed, if_pos h]
    rw [hsplit, feed_block hn (List.length_take_of_le h.2), ih, hstep]
  | case2 s l h => rw [feed_short (l := l) (by omega)]

theorem length_feed (hn : 0 < n) (s : σ) (l : List α) : (feed n absorb s l).2.length = l.length % n := by
  induction s, l using feed.induct n absorb with
  | case1 s l h ih =>
    rw [feed, if_pos h, ih, List.length_drop, ← Nat.mod_eq_sub_mod h.2]
  | case2 s l h =>
    have hlt : l.length < n := by omega
    rw [feed_short hlt, Nat.mod_eq_of_lt hlt]

theorem length_feed_lt (hn : 0 < n) (s : σ) (l : List α) : (feed n absorb s l).2.length < n := by
  rw [length_feed hn]
  exact Nat.mod_lt _ hn

/-- Nothing is left of a message that is a number of blocks. -/
theorem feed_whole (hn : 0 < n) (h : n ∣ l.length) : (feed n absorb s l).2 = [] := by
  have hlength := @length_feed _ _ n absorb hn s l
  rw [Nat.mod_eq_zero_of_dvd h] at hlength
  exact List.length_eq_zero_iff.mp hlength

end Unearth.Blocks
