import Unearth.FreeWalk

/-!
# Whole walks over the free clusters

A walk that is asked again and again, each time for the cluster behind the one that it led
to, leads to every cluster at most once; and to all the free ones when it may turn around.
-/

namespace Unearth
open Word

namespace FreeWalk

/-- The clusters that a walk leads to behind another one, asked once with each flag, and whether
it has come to its end. -/
def follow (b : Build) (w : FreeWalk) (after : ℕ) : List Bool → Exec (List ℕ × Bool)
  | [] => return ([], false)
  | canWrap :: flags => do
    match ← w.nextAfter b after canWrap with
    | (none, _) => return ([], true)
    | (some c, w) => do
      let (clusters, ended) ← w.follow b c flags
      return (c :: clusters, ended)

/-- The free clusters that a walk has not come to. -/
structure Ahead (w : FreeWalk) (after c : ℕ) : Prop where
  free : w.isFree c = true
  place : if w.wrapped then after < c ∧ c < w.start else (after < c ∧ c ≤ w.max) ∨ (2 ≤ c ∧ c < w.start)

section Next

variable {b : Build} {w w' : FreeWalk} {after c : ℕ} {canWrap : Bool}

def bound (w : FreeWalk) : ℕ := if w.wrapped then w.start else w.max + 1

theorem nextAfter_eq (hafter : after + 1 < 2 ^ 32) (hmax : w.max + 1 < 2 ^ 32) :
    w.nextAfter b after canWrap = .ok (match w.firstFree (after + 1) w.bound with
      | some c => (some c, w)
      | none =>
        if w.wrapped || !canWrap then (none, w)
        else (w.firstFree 2 w.start, { w with wrapped := true })) := by
  have hstop : w.stop b = .ok w.bound := by
    unfold stop bound
    cases w.wrapped with
    | true => rfl
    | false => exact plus32_eq hmax
  unfold nextAfter
  rw [if_pos hafter, hstop]
  change (match w.firstFree (after + 1) w.bound with | some c => _ | none => _) = _
  cases w.firstFree (after + 1) w.bound with
  | some c => rfl
  | none =>
    dsimp only
    split_ifs <;> rfl

theorem firstFree_least {lo hi d : ℕ} (h : w.firstFree lo hi = some c) (hlo : lo ≤ d) (hd : d < c) :
    w.isFree d = false := by
  obtain ⟨-, -, hleast⟩ := List.find?_range'_eq_some.mp h
  simpa using hleast d hlo hd

theorem firstFree_none {lo hi d : ℕ} (h : w.firstFree lo hi = none) (hlo : lo ≤ d) (hd : d < hi) :
    w.isFree d = false := by
  have hnone := List.find?_eq_none.mp h d (List.mem_range'_1.mpr ⟨hlo, by omega⟩)
  simpa using hnone

theorem not_free_of_least {lo hi d : ℕ} (h : w.firstFree lo hi = some c) (hfree : w.isFree d = true)
    (hlo : lo ≤ d) : c ≤ d := by
  by_contra hd
  rw [firstFree_least h hlo (not_le.mp hd)] at hfree
  cases hfree

/-- A walk that may turn around leads to the next of the clusters that it has not come to. -/
theorem ahead_next (hat : w.At after) (hmax : w.max + 1 < 2 ^ 32)
    (h : w.nextAfter b after true = .ok (some c, w')) (d : ℕ) :
    w.Ahead after d ↔ d = c ∨ w'.Ahead c d := by
  have hhigh := hat.high
  rw [nextAfter_eq (by omega) hmax] at h
  cases hfirst : w.firstFree (after + 1) w.bound with
  | some c' =>
    rw [hfirst] at h
    cases h
    obtain ⟨hfree, hlo, hhi⟩ := firstFree_some hfirst
    constructor
    · rintro ⟨hd, hplace⟩
      cases hw : w.wrapped with
      | true =>
        simp only [hw, if_true] at hplace
        have hle := not_free_of_least hfirst hd (by omega)
        refine (Nat.eq_or_lt_of_le hle).imp Eq.symm fun hlt => ⟨hd, ?_⟩
        simp only [hw, if_true]
        exact ⟨hlt, hplace.2⟩
      | false =>
        simp only [hw, Bool.false_eq_true, if_false] at hplace
        obtain ⟨hafter, hle_max⟩ | hbefore := hplace
        · have hle := not_free_of_least hfirst hd (by omega)
          refine (Nat.eq_or_lt_of_le hle).imp Eq.symm fun hlt => ⟨hd, ?_⟩
          simp only [hw, Bool.false_eq_true, if_false]
          exact .inl ⟨hlt, hle_max⟩
        · refine .inr ⟨hd, ?_⟩
          simp only [hw, Bool.false_eq_true, if_false]
          exact .inr hbefore
    · intro hd
      cases hw : w.wrapped with
      | true =>
        simp only [bound, hw, if_true] at hhi
        obtain rfl | ⟨hd, hplace⟩ := hd
        · refine ⟨hfree, ?_⟩
          simp only [hw, if_true]
          omega
        · refine ⟨hd, ?_⟩
          simp only [hw, if_true] at hplace ⊢
          omega
      | false =>
        simp only [bound, hw, Bool.false_eq_true, if_false] at hhi
        obtain rfl | ⟨hd, hplace⟩ := hd
        · refine ⟨hfree, ?_⟩
          simp only [hw, Bool.false_eq_true, if_false]
          omega
        · refine ⟨hd, ?_⟩
          simp only [hw, Bool.false_eq_true, if_false] at hplace ⊢
          omega
  | none =>
    rw [hfirst] at h
    cases hw : w.wrapped with
    | true =>
      simp only [hw, Bool.true_or, if_true] at h
      cases h
    | false =>
      simp only [hw, Bool.not_true, Bool.or_false, Bool.false_eq_true, if_false] at h
      obtain ⟨hsecond, hw'⟩ := Prod.mk.inj (Except.ok.inj h)
      obtain ⟨hfree, hlo, hhi⟩ := firstFree_some hsecond
      subst hw'
      constructor
      · rintro ⟨hd, hplace⟩
        simp only [hw, Bool.false_eq_true, if_false] at hplace
        obtain ⟨hafter, hle_max⟩ | ⟨htwo, hbefore⟩ := hplace
        · have hnone : w.isFree d = false := firstFree_none hfirst hafter (by
            simp only [bound, hw, Bool.false_eq_true, if_false]
            omega)
          rw [hd] at hnone
          cases hnone
        · have hle := not_free_of_least hsecond hd htwo
          exact (Nat.eq_or_lt_of_le hle).imp Eq.symm fun hlt => ⟨hd, ⟨hlt, hbefore⟩⟩
      · rintro (rfl | ⟨hd, hplace⟩)
        · refine ⟨hfree, ?_⟩
          simp only [hw, Bool.false_eq_true, if_false]
          exact .inr ⟨hlo, hhi⟩
        · refine ⟨hd, ?_⟩
          simp only [if_true] at hplace
          simp only [hw, Bool.false_eq_true, if_false]
          exact .inr ⟨by omega, hplace.2⟩

/-- Where such a walk ends, it has come to all of them. -/
theorem not_ahead_of_end (hat : w.At after) (hmax : w.max + 1 < 2 ^ 32)
    (h : w.nextAfter b after true = .ok (none, w')) (d : ℕ) : ¬ w.Ahead after d := by
  rintro ⟨hd, hplace⟩
  have hhigh := hat.high
  rw [nextAfter_eq (by omega) hmax] at h
  cases hfirst : w.firstFree (after + 1) w.bound with
  | some c => rw [hfirst] at h; cases h
  | none =>
    rw [hfirst] at h
    cases hw : w.wrapped with
    | true =>
      simp only [hw, if_true] at hplace
      have hnone : w.isFree d = false := firstFree_none hfirst hplace.1 (by
        simp only [bound, hw, if_true]
        exact hplace.2)
      rw [hd] at hnone
      cases hnone
    | false =>
      simp only [hw, Bool.not_true, Bool.or_false, Bool.false_eq_true, if_false] at h hplace
      obtain ⟨hsecond, -⟩ := Prod.mk.inj (Except.ok.inj h)
      obtain ⟨hafter, hle_max⟩ | ⟨htwo, hbefore⟩ := hplace
      · have hnone : w.isFree d = false := firstFree_none hfirst hafter (by
          simp only [bound, hw, Bool.false_eq_true, if_false]
          omega)
        rw [hd] at hnone
        cases hnone
      · rw [firstFree_none hsecond htwo hbefore] at hd
        cases hd

end Next

section Follow

variable {b : Build} {w : FreeWalk} {after : ℕ}

/-- A walk that is asked for what is behind one of its clusters is never at a loss. -/
theorem exists_follow (hat : w.At after) (hstart : w.start ≤ w.max) (hmax : w.max + 1 < 2 ^ 32)
    (flags : List Bool) : ∃ clusters ended, w.follow b after flags = .ok (clusters, ended) := by
  induction flags generalizing w after with
  | nil => exact ⟨[], false, rfl⟩
  | cons canWrap flags ih =>
    have hhigh := hat.high
    unfold follow
    cases hnext : w.nextAfter b after canWrap with
    | error e =>
      rw [nextAfter_eq (by omega) hmax] at hnext
      cases hnext
    | ok r =>
      obtain ⟨_ | c, w'⟩ := r
      · exact ⟨[], true, rfl⟩
      · obtain ⟨-, hmax', hstart'⟩ := nextAfter_kept hnext
        obtain ⟨hat', -, -⟩ := hat.next hstart hnext
        obtain ⟨clusters, ended, hfollow⟩ := ih hat' (by omega) (by omega)
        refine ⟨c :: clusters, ended, ?_⟩
        change (w'.follow b c flags >>= _) = _
        rw [hfollow]
        rfl

theorem follow_cons {canWrap : Bool} {flags : List Bool} {clusters : List ℕ} {ended : Bool}
    (h : w.follow b after (canWrap :: flags) = .ok (clusters, ended)) :
    (clusters = [] ∧ ended = true ∧ ∃ w', w.nextAfter b after canWrap = .ok (none, w')) ∨
      ∃ c rest w', clusters = c :: rest ∧ w.nextAfter b after canWrap = .ok (some c, w') ∧
        w'.follow b c flags = .ok (rest, ended) := by
  unfold follow at h
  obtain ⟨⟨_ | c, w'⟩, hnext, h⟩ := exec_bind_ok h
  · cases h
    exact .inl ⟨rfl, rfl, w', hnext⟩
  · obtain ⟨⟨rest, ended'⟩, hfollow, h⟩ := exec_bind_ok h
    cases h
    exact .inr ⟨c, rest, w', rfl, hnext, hfollow⟩

/-- The clusters of a walk are free ones of the volume, each in a later turn than the one before. -/
theorem follow_ordered (hat : w.At after) (hstart : w.start ≤ w.max) {flags : List Bool}
    {clusters : List ℕ} {ended : Bool} (h : w.follow b after flags = .ok (clusters, ended)) :
    (∀ c ∈ clusters, w.isFree c = true ∧ 2 ≤ c ∧ c ≤ w.max) ∧
      (after :: clusters).Pairwise fun c d => turn w.start c < turn w.start d := by
  induction flags generalizing w after clusters ended with
  | nil =>
    cases h
    exact ⟨nofun, List.pairwise_singleton _ _⟩
  | cons canWrap flags ih =>
    obtain ⟨rfl, -, -⟩ | ⟨c, rest, w', rfl, hnext, hfollow⟩ := follow_cons h
    · exact ⟨nofun, List.pairwise_singleton _ _⟩
    · obtain ⟨hkept, hmax', hstart'⟩ := nextAfter_kept hnext
      obtain ⟨hat', hfree, hturn⟩ := hat.next hstart hnext
      obtain ⟨hrest, hordered⟩ := ih hat' (by omega) hfollow
      rw [hkept, hmax'] at hrest
      rw [hstart'] at hordered
      refine ⟨fun d hd => ?_, List.pairwise_cons.mpr ⟨fun d hd => ?_, hordered⟩⟩
      · rcases List.mem_cons.mp hd with rfl | hd
        · exact ⟨hfree, hat'.low, hmax' ▸ hat'.high⟩
        · exact hrest d hd
      · rcases List.mem_cons.mp hd with rfl | hd
        · exact hturn
        · exact hturn.trans ((List.pairwise_cons.mp hordered).1 d hd)

/-- A walk that may always turn around has led to all that was ahead of it when it ends, and
to a cluster for each flag before. -/
theorem follow_complete (hat : w.At after) (hstart : w.start ≤ w.max) (hmax : w.max + 1 < 2 ^ 32)
    {flags : List Bool} (hflags : ∀ f ∈ flags, f = true) {clusters : List ℕ} {ended : Bool}
    (h : w.follow b after flags = .ok (clusters, ended)) :
    (ended = true → ∀ c, c ∈ clusters ↔ w.Ahead after c) ∧
      (ended = false → clusters.length = flags.length) := by
  induction flags generalizing w after clusters ended with
  | nil =>
    cases h
    exact ⟨nofun, fun _ => rfl⟩
  | cons canWrap flags ih =>
    have hwrap : canWrap = true := hflags canWrap List.mem_cons_self
    subst hwrap
    obtain ⟨rfl, rfl, w', hnext⟩ | ⟨c, rest, w', rfl, hnext, hfollow⟩ := follow_cons h
    · exact ⟨fun _ d => iff_of_false (List.not_mem_nil) (not_ahead_of_end hat hmax hnext d), nofun⟩
    · obtain ⟨-, hmax', hstart'⟩ := nextAfter_kept hnext
      obtain ⟨hat', -, -⟩ := hat.next hstart hnext
      obtain ⟨hall, hlength⟩ := ih hat' (by omega) (by omega)
        (fun f hf => hflags f (List.mem_cons_of_mem _ hf)) hfollow
      refine ⟨fun hended d => ?_, fun hended => congrArg (· + 1) (hlength hended)⟩
      rw [List.mem_cons, hall hended d, ahead_next hat hmax hnext d]

end Follow

/-- Clusters behind the start in the order of their turns: first those above it, then those
below it, both ascending. -/
theorem split_turns {start : ℕ} {clusters : List ℕ} (hwords : ∀ c ∈ clusters, c < 2 ^ 32)
    (h : (start :: clusters).Pairwise fun c d => turn start c < turn start d) :
    ∃ above below, clusters = above ++ below ∧ above.Pairwise (· < ·) ∧ (∀ c ∈ above, start < c) ∧
      below.Pairwise (· < ·) ∧ ∀ c ∈ below, c < start := by
  induction clusters with
  | nil => exact ⟨[], [], rfl, .nil, nofun, .nil, nofun⟩
  | cons c clusters ih =>
    obtain ⟨hfirst, hrest⟩ := List.pairwise_cons.mp h
    obtain ⟨hlater, hordered⟩ := List.pairwise_cons.mp hrest
    obtain ⟨above, below, rfl, habove, hstarts, hbelow, hends⟩ := ih
      (fun d hd => hwords d (List.mem_cons_of_mem _ hd))
      (List.pairwise_cons.mpr ⟨fun d hd => hfirst d (List.mem_cons_of_mem _ hd), hordered⟩)
    have hc := hfirst c List.mem_cons_self
    rcases Nat.lt_or_ge c start with hlt | hge
    · -- Nothing above the start comes after a cluster below it.
      have hnil : above = [] := by
        refine List.eq_nil_iff_forall_not_mem.mpr fun d hd => ?_
        have hturn := hlater d (List.mem_append_left _ hd)
        have hword := hwords d (List.mem_cons_of_mem _ (List.mem_append_left _ hd))
        have hd := hstarts d hd
        unfold turn at hturn
        rw [if_neg (by omega), if_pos (by omega)] at hturn
        omega
      subst hnil
      refine ⟨[], c :: below, rfl, .nil, nofun, List.pairwise_cons.mpr ⟨fun d hd => ?_, hbelow⟩, ?_⟩
      · have hturn := hlater d hd
        have hd := hends d hd
        unfold turn at hturn
        rw [if_neg (by omega), if_neg (by omega)] at hturn
        omega
      · exact List.forall_mem_cons.mpr ⟨hlt, hends⟩
    · unfold turn at hc
      rw [if_pos le_rfl, if_pos hge] at hc
      refine ⟨c :: above, below, rfl, List.pairwise_cons.mpr ⟨fun d hd => ?_, habove⟩,
        List.forall_mem_cons.mpr ⟨hc, hstarts⟩, hbelow, hends⟩
      have hturn := hlater d (List.mem_append_left _ hd)
      have hd := hstarts d hd
      unfold turn at hturn
      rw [if_pos hge, if_pos (by omega)] at hturn
      exact hturn

/-- What a walk from a start leads to: free clusters of the volume other than the start, none
of them twice; up to the end of the volume and, after it has turned around, up to the start. -/
structure LeadsTo (isFree : ℕ → Bool) (start max : ℕ) (clusters : List ℕ) : Prop where
  free : ∀ c ∈ clusters, isFree c = true ∧ 2 ≤ c ∧ c ≤ max ∧ c ≠ start
  once : clusters.Nodup
  turns : ∃ above below, clusters = above ++ below ∧ above.Pairwise (· < ·) ∧ (∀ c ∈ above, start < c) ∧
    below.Pairwise (· < ·) ∧ ∀ c ∈ below, c < start

theorem leadsTo_of_ordered {isFree : ℕ → Bool} {start max : ℕ} {clusters : List ℕ} (hmax : max < 2 ^ 32)
    (hfree : ∀ c ∈ clusters, isFree c = true ∧ 2 ≤ c ∧ c ≤ max)
    (h : (start :: clusters).Pairwise fun c d => turn start c < turn start d) :
    LeadsTo isFree start max clusters := by
  refine ⟨fun c hc => ?_, ?_, split_turns (fun c hc => (hfree c hc).2.2.trans_lt hmax) h⟩
  · obtain ⟨hc', htwo, hle⟩ := hfree c hc
    refine ⟨hc', htwo, hle, fun heq => ?_⟩
    have hlt := (List.pairwise_cons.mp h).1 c hc
    rw [heq] at hlt
    exact lt_irrefl _ hlt
  · refine (List.pairwise_cons.mp h).2.imp fun hlt heq => ?_
    rw [heq] at hlt
    exact lt_irrefl _ hlt

/-- There are no more clusters of a volume than it has, less its start. -/
theorem LeadsTo.length_le {isFree : ℕ → Bool} {start max : ℕ} {clusters : List ℕ}
    (h : LeadsTo isFree start max clusters) (htwo : 2 ≤ start) (hstart : start ≤ max) :
    clusters.length + 2 ≤ max := by
  have hnodup : (start :: clusters).Nodup :=
    List.nodup_cons.mpr ⟨fun hmem => (h.free start hmem).2.2.2 rfl, h.once⟩
  have hsub : (start :: clusters).toFinset ⊆ Finset.Icc 2 max := by
    intro c hc
    rcases List.mem_cons.mp (List.mem_toFinset.mp hc) with rfl | hc
    · exact Finset.mem_Icc.mpr ⟨htwo, hstart⟩
    · exact Finset.mem_Icc.mpr ⟨(h.free c hc).2.1, (h.free c hc).2.2.1⟩
  have hcard := Finset.card_le_card hsub
  rw [List.toFinset_card_of_nodup hnodup, Nat.card_Icc, List.length_cons] at hcard
  omega

/-- A walk never comes back to a cluster. When it may always turn around, it ends after at
most as many clusters as the volume has, and has then led to every free one but the start. -/
theorem walk_once (b : Build) (isFree : ℕ → Bool) {start max : ℕ} (htwo : 2 ≤ start) (hstart : start ≤ max)
    (hmax : max < 2 ^ 32 - 1) (flags : List Bool) :
    ∃ clusters ended, (⟨isFree, max, start, false⟩ : FreeWalk).follow b start flags = .ok (clusters, ended) ∧
      LeadsTo isFree start max clusters ∧
      ((∀ f ∈ flags, f = true) →
        (ended = true → ∀ c, c ∈ clusters ↔ isFree c = true ∧ 2 ≤ c ∧ c ≤ max ∧ c ≠ start) ∧
        (max ≤ flags.length + 1 → ended = true)) := by
  have hat : (⟨isFree, max, start, false⟩ : FreeWalk).At start := ⟨htwo, hstart, fun _ => le_rfl, nofun⟩
  have hword : (⟨isFree, max, start, false⟩ : FreeWalk).max + 1 < 2 ^ 32 := by
    dsimp only
    omega
  obtain ⟨clusters, ended, hfollow⟩ := @exists_follow b _ _ hat hstart hword flags
  obtain ⟨hfree, hordered⟩ := follow_ordered hat hstart hfollow
  have hleads : LeadsTo isFree start max clusters := leadsTo_of_ordered (by omega) hfree hordered
  refine ⟨clusters, ended, hfollow, hleads, fun hflags => ?_⟩
  obtain ⟨hall, hlength⟩ := follow_complete hat hstart hword hflags hfollow
  refine ⟨fun hended c => ?_, fun hlong => ?_⟩
  · rw [hall hended c]
    constructor
    · intro hc
      obtain ⟨hc', hplace⟩ := hc
      simp only [Bool.false_eq_true, if_false] at hplace
      refine ⟨hc', ?_⟩
      omega
    · rintro ⟨hc', hlow, hhigh, hne⟩
      refine ⟨hc', ?_⟩
      simp only [Bool.false_eq_true, if_false]
      omega
  · cases hended : ended with
    | true => rfl
    | false =>
      have hcount := hleads.length_le htwo hstart
      have hlength := hlength hended
      omega

/-- Six clusters, of which 2, 4 and 7 are free, walked from 5. -/
theorem walk_once_wrapping : ∃ clusters ended,
    (⟨fun c => c = 2 ∨ c = 4 ∨ c = 7, 7, 5, false⟩ : FreeWalk).follow .debug 5 [true, true, true, true] =
      .ok (clusters, ended) ∧ LeadsTo (fun c => c = 2 ∨ c = 4 ∨ c = 7) 5 7 clusters := by
  obtain ⟨clusters, ended, hfollow, hleads, -⟩ := walk_once .debug (fun c => c = 2 ∨ c = 4 ∨ c = 7)
    (show 2 ≤ 5 by decide) (show 5 ≤ 7 by decide) (by decide) [true, true, true, true]
  exact ⟨clusters, ended, hfollow, hleads⟩

section Rest

variable (w : FreeWalk)

def freeBetween (lo hi : ℕ) : List ℕ := (List.range' lo (hi - lo)).filter w.isFree

/-- The free clusters that a walk has still to come to behind a cluster, in its order. -/
def rest (b : Build) (canWrap : Bool) (c : ℕ) : List ℕ :=
  match w.stop b with
  | .error _ => []
  | .ok stop =>
    if c + 1 < 2 ^ 32 then
      w.freeBetween (c + 1) stop ++ if w.wrapped || !canWrap then [] else w.freeBetween 2 w.start
    else []

variable {w} {b : Build} {canWrap : Bool} {c lo hi : ℕ}

theorem freeBetween_none (h : w.firstFree lo hi = none) : w.freeBetween lo hi = [] := by
  rw [freeBetween, List.filter_eq_nil_iff]
  exact List.find?_eq_none.mp h

theorem freeBetween_some (h : w.firstFree lo hi = some c) : w.freeBetween lo hi = c :: w.freeBetween (c + 1) hi := by
  obtain ⟨hfree, hlo, hhi⟩ := firstFree_some h
  have hbefore : (List.range' lo (c - lo)).filter w.isFree = [] := by
    rw [List.filter_eq_nil_iff]
    intro d hd
    rw [List.mem_range'_1] at hd
    rw [firstFree_least h hd.1 (by omega)]
    exact Bool.false_ne_true
  have hsplit : List.range' lo (hi - lo) = List.range' lo (c - lo) ++ c :: List.range' (c + 1) (hi - (c + 1)) := by
    have happend : List.range' lo (c - lo) ++ List.range' (lo + (c - lo)) (hi - c) =
        List.range' lo (c - lo + (hi - c)) := List.range'_append_1
    rw [show lo + (c - lo) = c by omega, show c - lo + (hi - c) = hi - lo by omega,
      show hi - c = hi - (c + 1) + 1 by omega, List.range'_succ] at happend
    exact happend.symm
  rw [freeBetween, hsplit, List.filter_append, hbefore, List.nil_append, List.filter_cons_of_pos hfree]
  rfl

theorem stop_lt {stop : ℕ} (hstart : w.start < 2 ^ 32) (h : w.stop b = .ok stop) : stop < 2 ^ 32 := by
  cases hw : w.wrapped with
  | false => exact (stop_unwrapped hw h).2
  | true =>
    unfold FreeWalk.stop at h
    rw [hw] at h
    cases h
    exact hstart

theorem rest_eq {stop : ℕ} (hstop : w.stop b = .ok stop) (hword : c + 1 < 2 ^ 32) :
    w.rest b canWrap c =
      w.freeBetween (c + 1) stop ++ if w.wrapped || !canWrap then [] else w.freeBetween 2 w.start := by
  unfold rest
  rw [hstop]
  exact if_pos hword

/-- A walk goes on to the first of the clusters that it has still to come to, if its end can be
told. -/
theorem nextAfter_rest (b : Build) (canWrap : Bool) (c : ℕ) (hstart : w.start < 2 ^ 32) :
    (∃ e, w.stop b = .error e ∧ w.nextAfter b c canWrap = .error e ∧ w.rest b canWrap c = []) ∨
    ∃ w', w.nextAfter b c canWrap = .ok ((w.rest b canWrap c).head?, w') ∧
      ∀ d, (w.rest b canWrap c).head? = some d → w.rest b canWrap c = d :: w'.rest b canWrap d := by
  by_cases hword : c + 1 < 2 ^ 32
  · unfold nextAfter
    rw [if_pos hword]
    cases hstop : w.stop b with
    | error e =>
      refine .inl ⟨e, rfl, rfl, ?_⟩
      unfold rest
      rw [hstop]
    | ok stop =>
      right
      have hstop_lt := stop_lt hstart hstop
      rw [exec_ok_bind, rest_eq hstop hword]
      cases hfirst : w.firstFree (c + 1) stop with
      | some d =>
        have hd := (firstFree_some hfirst).2.2
        rw [freeBetween_some hfirst]
        refine ⟨w, rfl, fun e he => ?_⟩
        cases Option.some.inj he
        rw [rest_eq hstop (by omega)]
        rfl
      | none =>
        rw [freeBetween_none hfirst, List.nil_append]
        dsimp only
        by_cases hend : (w.wrapped || !canWrap) = true
        · rw [if_pos hend, if_pos hend]
          exact ⟨w, rfl, fun d hd => by cases hd⟩
        · rw [if_neg hend, if_neg hend]
          cases hsecond : w.firstFree 2 w.start with
          | none =>
            rw [freeBetween_none hsecond]
            exact ⟨_, rfl, fun d hd => by cases hd⟩
          | some d =>
            have hd := (firstFree_some hsecond).2.2
            rw [freeBetween_some hsecond]
            refine ⟨{ w with wrapped := true }, rfl, fun e he => ?_⟩
            cases Option.some.inj he
            have hturned : ({ w with wrapped := true } : FreeWalk).stop b = .ok w.start := rfl
            rw [rest_eq hturned (by omega)]
            exact congrArg (d :: ·) (List.append_nil _).symm
  · have hrest : w.rest b canWrap c = [] := by
      unfold rest
      cases w.stop b with
      | error e => rfl
      | ok stop => exact if_neg hword
    right
    rw [hrest]
    exact ⟨w, if_neg hword, fun d hd => by cases hd⟩

theorem nextAfter_stuck {r : Option ℕ} {w' : FreeWalk} (hstop : ∀ stop, w.stop b ≠ .ok stop)
    (h : w.nextAfter b c canWrap = .ok (r, w')) : r = none ∧ w' = w := by
  unfold nextAfter at h
  by_cases hword : c + 1 < 2 ^ 32
  · rw [if_pos hword] at h
    obtain ⟨stop, heq, -⟩ := exec_bind_ok h
    exact absurd heq (hstop stop)
  · rw [if_neg hword] at h
    cases h
    exact ⟨rfl, rfl⟩

end Rest

end FreeWalk

end Unearth
