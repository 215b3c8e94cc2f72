import Unearth.Source

/-!
# The walk over free clusters

A deleted file has lost its chain, and its clusters are looked for among the free ones: from
its start to the end of the volume, and once more from the first cluster to its start. A walk
never turns back, so that every cluster that it leads to comes after the ones before it.
-/

namespace Unearth
open Word

structure FreeWalk where
  isFree : ℕ → Bool
  max : ℕ
  start : ℕ
  wrapped : Bool

namespace FreeWalk

section Next

variable (b : Build) (w : FreeWalk)

/-- The first free cluster from `c` on, before `stop`. -/
def firstFree (c stop : ℕ) : Option ℕ := (List.range' c (stop - c)).find? w.isFree

def stop : Exec ℕ := if w.wrapped then return w.start else plus32 b w.max 1

/-- The next cluster to try, and the walk that has got there. -/
def nextAfter (after : ℕ) (canWrap : Bool) : Exec (Option ℕ × FreeWalk) :=
  if after + 1 < 2 ^ 32 then do
    match w.firstFree (after + 1) (← w.stop b) with
    | some c => return (some c, w)
    | none =>
      if w.wrapped || !canWrap then return (none, w)
      -- The second round of the loop ends at the start, whether it finds a cluster or not.
      else return (w.firstFree 2 w.start, { w with wrapped := true })
  else return (none, w)

end Next

/-- Where a cluster stands in a walk: those before the start come after all the others. -/
def turn (start c : ℕ) : ℕ := if start ≤ c then c else 2 ^ 32 + c

variable {b : Build} {w w' : FreeWalk} {after c : ℕ} {canWrap : Bool}

theorem firstFree_some {lo hi : ℕ} (h : w.firstFree lo hi = some c) :
    w.isFree c = true ∧ lo ≤ c ∧ c < hi := by
  obtain ⟨hfree, hmem, -⟩ := List.find?_range'_eq_some.mp h
  rw [List.mem_range'_1] at hmem
  exact ⟨hfree, hmem.1, by omega⟩

theorem stop_unwrapped {s : ℕ} (hw : w.wrapped = false) (h : w.stop b = .ok s) :
    s ≤ w.max + 1 ∧ s < 2 ^ 32 := by
  unfold stop at h
  rw [hw] at h
  simp only [Bool.false_eq_true, if_false] at h
  refine ⟨?_, plus32_lt h⟩
  unfold plus32 at h
  split_ifs at h
  · cases h
    exact le_rfl
  · cases b with
    | debug => cases h
    | release =>
      cases h
      exact Nat.mod_le _ _

/-- The ways in which a walk goes on. -/
theorem nextAfter_some (h : w.nextAfter b after canWrap = .ok (some c, w')) :
    w.isFree c = true ∧ after + 1 < 2 ^ 32 ∧
    ((w.wrapped = false ∧ w' = w ∧ after < c ∧ c ≤ w.max ∧ c < 2 ^ 32) ∨
    (w.wrapped = true ∧ w' = w ∧ after < c ∧ c < w.start) ∨
    (w.wrapped = false ∧ w' = { w with wrapped := true } ∧ 2 ≤ c ∧ c < w.start)) := by
  unfold nextAfter at h
  by_cases hafter : after + 1 < 2 ^ 32
  · rw [if_pos hafter] at h
    obtain ⟨s, hs, h⟩ := exec_bind_ok h
    cases hfirst : w.firstFree (after + 1) s with
    | some c' =>
      rw [hfirst] at h
      cases h
      obtain ⟨hfree, hlo, hhi⟩ := firstFree_some hfirst
      refine ⟨hfree, hafter, ?_⟩
      cases hw : w.wrapped with
      | false =>
        have hstop := stop_unwrapped hw hs
        exact .inl ⟨rfl, rfl, by omega, by omega, by omega⟩
      | true =>
        right
        left
        unfold stop at hs
        rw [hw] at hs
        cases hs
        exact ⟨rfl, rfl, by omega, hhi⟩
    | none =>
      rw [hfirst] at h
      dsimp only at h
      by_cases hend : (w.wrapped || !canWrap) = true
      · rw [if_pos hend] at h
        cases h
      · rw [if_neg hend] at h
        obtain ⟨hfound, hwalk⟩ := Prod.mk.inj (Except.ok.inj h)
        obtain ⟨hfree, hlo, hhi⟩ := firstFree_some hfound
        have hw : w.wrapped = false := by
          cases hwrapped : w.wrapped with
          | false => rfl
          | true => simp [hwrapped] at hend
        exact ⟨hfree, hafter, .inr (.inr ⟨hw, hwalk.symm, hlo, hhi⟩)⟩
  · rw [if_neg hafter] at h
    cases h

/-- The walk keeps what it was made of. -/
theorem nextAfter_kept {r : Option ℕ} (h : w.nextAfter b after canWrap = .ok (r, w')) :
    w'.isFree = w.isFree ∧ w'.max = w.max ∧ w'.start = w.start := by
  unfold nextAfter at h
  by_cases hafter : after + 1 < 2 ^ 32
  · rw [if_pos hafter] at h
    obtain ⟨s, -, h⟩ := exec_bind_ok h
    split at h
    · cases h
      exact ⟨rfl, rfl, rfl⟩
    · split at h <;> cases h <;> exact ⟨rfl, rfl, rfl⟩
  · rw [if_neg hafter] at h
    cases h
    exact ⟨rfl, rfl, rfl⟩

/-- Before it has wrapped a walk is at or behind its start, afterwards before it. -/
structure At (w : FreeWalk) (c : ℕ) : Prop where
  low : 2 ≤ c
  high : c ≤ w.max
  ahead : w.wrapped = false → w.start ≤ c
  behind : w.wrapped = true → c < w.start

/-- A walk goes on to a cluster that is free and comes later. -/
theorem At.next (hat : w.At after) (hstart : w.start ≤ w.max)
    (h : w.nextAfter b after canWrap = .ok (some c, w')) :
    w'.At c ∧ w.isFree c = true ∧ turn w.start after < turn w.start c := by
  obtain ⟨hfree, hafter, hcases⟩ := nextAfter_some h
  have hlow := hat.low
  unfold turn
  obtain ⟨hw, rfl, hlt, hmax, -⟩ | ⟨hw, rfl, hlt, hbefore⟩ | ⟨hw, rfl, hlo, hbefore⟩ := hcases
  · have hahead := hat.ahead hw
    refine ⟨⟨by omega, hmax, fun _ => by omega, fun hw' => ?_⟩, hfree, ?_⟩
    · rw [hw] at hw'
      cases hw'
    · rw [if_pos hahead, if_pos (by omega)]
      exact hlt
  · have hbehind := hat.behind hw
    refine ⟨⟨by omega, by omega, fun hw' => ?_, fun _ => hbefore⟩, hfree, ?_⟩
    · rw [hw] at hw'
      cases hw'
    · rw [if_neg (by omega), if_neg (by omega)]
      omega
  · have hahead := hat.ahead hw
    refine ⟨⟨hlo, (show c ≤ w.max by omega), nofun, fun _ => hbefore⟩, hfree, ?_⟩
    rw [if_pos hahead, if_neg (by omega)]
    omega

/-- How far a walk still has to go. -/
def left (w : FreeWalk) (c : ℕ) : ℕ := (if w.wrapped then 0 else 2 ^ 32) + w.start - c

theorem left_lt (h : w.nextAfter b after canWrap = .ok (some c, w')) : w'.left c < w.left after := by
  obtain ⟨-, hafter, ⟨hw, rfl, hlt, -, hword⟩ | ⟨hw, rfl, hlt, hbefore⟩ | ⟨hw, rfl, hlo, hbefore⟩⟩ :=
    nextAfter_some h
  all_goals
    simp only [left, hw, Bool.false_eq_true, if_false, if_true]
    omega

end FreeWalk

end Unearth
