import Mathlib

/-!
# A log that is written round and round a ring

Every block of the log goes to the next slot of the ring, in the place of what was there one
pass before. A head in the log announces the blocks behind it, each by a key. What a scan of
the ring in the order of its slots finds under the heads is compared with what the log has
kept, in the order in which it was written.
-/

namespace Unearth.RingLog

variable {α κ : Type}

/-- The ring after the blocks of a log were written to it, from the first slot on. -/
def written (blank log : List α) : List α :=
  log.zipIdx.foldl (fun ring e => ring.set (e.2 % blank.length) e.1) blank

theorem written_nil (blank : List α) : written blank [] = blank := rfl

theorem written_concat (blank log : List α) (x : α) :
    written blank (log ++ [x]) = (written blank log).set (log.length % blank.length) x := by
  simp only [written, List.zipIdx_append, List.foldl_append, List.zipIdx_cons, List.zipIdx_nil,
    List.foldl_cons, List.foldl_nil, Nat.zero_add]

@[simp]
theorem length_written (blank log : List α) : (written blank log).length = blank.length := by
  induction log using List.reverseRecOn with
  | nil => rfl
  | append_singleton log x ih => rw [written_concat, List.length_set, ih]

theorem written_map {β : Type} (f : α → β) (blank log : List α) :
    (written blank log).map f = written (blank.map f) (log.map f) := by
  induction log using List.reverseRecOn with
  | nil => rfl
  | append_singleton log x ih =>
    rw [written_concat, List.map_append, List.map_singleton, written_concat, List.map_set, ih,
      List.length_map, List.length_map]

/-- The position in the ring of the end of a log. -/
theorem succ_mod {n m : ℕ} (hm : 0 < m) : (n + 1) % m = if n % m + 1 = m then 0 else n % m + 1 := by
  rw [← Nat.mod_add_mod]
  split_ifs with h
  · rw [h, Nat.mod_self]
  · have hlt := Nat.mod_lt n hm
    exact Nat.mod_eq_of_lt (by omega)

theorem le_sub_mod {n m : ℕ} (hm : 0 < m) (h : m ≤ n) : m ≤ n - n % m := by
  have hdiv := Nat.div_add_mod n m
  have hpos : 1 ≤ n / m := Nat.div_pos h hm
  have hle : m * 1 ≤ m * (n / m) := Nat.mul_le_mul_left m hpos
  omega

/-- A slot before the end of the log was written in the last pass, and one behind it in the
pass before, if there was one. -/
theorem written_getElem? (blank log : List α) {p : ℕ} (hp : p < blank.length) :
    (written blank log)[p]? =
      if p < log.length % blank.length then log[log.length - log.length % blank.length + p]?
      else if log.length < blank.length then blank[p]?
      else log[log.length - log.length % blank.length - blank.length + p]? := by
  have hpos : 0 < blank.length := by omega
  induction log using List.reverseRecOn with
  | nil => simp [written_nil, hpos]
  | append_singleton log x ih =>
    have hlt := Nat.mod_lt log.length hpos
    have hle := Nat.mod_le log.length blank.length
    have hmod := succ_mod (n := log.length) hpos
    have hpass : blank.length ≤ log.length → blank.length ≤ log.length - log.length % blank.length :=
      le_sub_mod hpos
    have hshort : log.length < blank.length → log.length % blank.length = log.length :=
      Nat.mod_eq_of_lt
    have hend {i : ℕ} (hi : i = log.length) : some x = (log ++ [x])[i]? := by
      rw [hi]
      simp
    have hkept {i j : ℕ} (hij : i = j) (hi : i < log.length) : log[i]? = (log ++ [x])[j]? := by
      rw [← hij, List.getElem?_append_left hi]
    rw [written_concat, List.length_append, List.length_singleton]
    by_cases heq : log.length % blank.length = p
    · rw [List.getElem?_set, if_pos heq, length_written, if_pos (by omega)]
      split_ifs at hmod with hfull
      · rw [hmod, if_neg (Nat.not_lt_zero p), if_neg (by omega)]
        exact hend (by omega)
      · rw [hmod, if_pos (by omega)]
        exact hend (by omega)
    · rw [List.getElem?_set_ne heq, ih]
      split_ifs at hmod with hfull
      · have hbefore : p < log.length % blank.length := by omega
        rw [if_pos hbefore, hmod, if_neg (Nat.not_lt_zero p), if_neg (by omega)]
        exact hkept (by omega) (by omega)
      · rw [hmod]
        by_cases hbefore : p < log.length % blank.length
        · rw [if_pos hbefore, if_pos (Nat.lt_succ_of_lt hbefore)]
          exact hkept (by omega) (by omega)
        · have hbehind : ¬ p < log.length % blank.length + 1 := by omega
          rw [if_neg hbefore, if_neg hbehind]
          by_cases hfirst : log.length < blank.length
          · rw [if_pos hfirst, if_pos (show log.length + 1 < blank.length by omega)]
          · rw [if_neg hfirst, if_neg (show ¬ log.length + 1 < blank.length by omega)]
            exact hkept (by omega) (by omega)

/-- The last pass over the ring, as far as it came. -/
def newer (m : ℕ) (log : List α) : List α := log.drop (log.length - log.length % m)

/-- What the last pass has left of the one before. -/
def older (blank log : List α) : List α :=
  if log.length < blank.length then blank.drop (log.length % blank.length)
  else (log.take (log.length - log.length % blank.length)).drop (log.length - blank.length)

theorem length_newer (m : ℕ) (log : List α) : (newer m log).length = log.length % m := by
  have hle := Nat.mod_le log.length m
  rw [newer, List.length_drop]
  omega

theorem written_eq {blank log : List α} (hpos : 0 < blank.length) :
    written blank log = newer blank.length log ++ older blank log := by
  have hlt := Nat.mod_lt log.length hpos
  have hle := Nat.mod_le log.length blank.length
  have hnew := length_newer blank.length log
  have hpass := le_sub_mod (n := log.length) hpos
  apply List.ext_getElem?
  intro p
  by_cases hp : p < blank.length
  · rw [written_getElem? blank log hp]
    by_cases hbefore : p < log.length % blank.length
    · rw [if_pos hbefore, List.getElem?_append_left (by omega), newer, List.getElem?_drop]
    · rw [if_neg hbefore, List.getElem?_append_right (by omega), hnew, older]
      by_cases hfirst : log.length < blank.length
      · rw [if_pos hfirst, if_pos hfirst, List.getElem?_drop]
        congr 1
        omega
      · rw [if_neg hfirst, if_neg hfirst, List.getElem?_drop, List.getElem?_take_of_lt (by omega)]
        congr 1
        omega
  · rw [List.getElem?_eq_none (by rw [length_written]; omega), List.getElem?_eq_none]
    rw [List.length_append, hnew, older]
    split_ifs
    · rw [List.length_drop]
      omega
    · rw [List.length_drop, List.length_take]
      omega

/-- A block of the log that was announced: by which key, under which head, and where it is. -/
structure Copy (κ : Type) where
  tag : κ
  head : ℕ
  place : ℕ

def Copy.shift (d : ℕ) (c : Copy κ) : Copy κ := ⟨c.tag, d + c.head, d + c.place⟩

/-- The blocks that the head at a position announces. -/
def announced (pos : ℕ) (tags : List κ) : List (Copy κ) :=
  tags.zipIdx.map fun e => ⟨e.1, pos, pos + 1 + e.2⟩

/-- All that is announced in a piece of a log, whose first block has a position. A head has
the keys that it announces. -/
def listed : ℕ → List (Option (List κ)) → List (Copy κ)
  | _, [] => []
  | pos, slot :: rest => announced pos (slot.getD []) ++ listed (pos + 1) rest

/-- A log in which every head is followed by the blocks that it announces, none of them a head. -/
def Whole : List (Option (List κ)) → Prop
  | [] => True
  | slot :: rest => (slot.getD []).length ≤ rest.length ∧
      (∀ s ∈ rest.take (slot.getD []).length, s = none) ∧ Whole rest

/-- No head where an announced block should be. -/
def Quiet : List (Option (List κ)) → Prop
  | [] => True
  | slot :: rest => (∀ s ∈ rest.take (slot.getD []).length, s = none) ∧ Quiet rest

/-- The blocks that a scan looks at, in the order of the ring: it passes over what is announced. -/
def stops : ℕ → ℕ → List (Option (List κ)) → List (ℕ × List κ)
  | _, _, [] => []
  | skip + 1, pos, _ :: rest => stops skip (pos + 1) rest
  | 0, pos, slot :: rest => (pos, slot.getD []) :: stops (slot.getD []).length (pos + 1) rest

theorem announced_shift (d pos : ℕ) (tags : List κ) :
    announced (d + pos) tags = (announced pos tags).map (Copy.shift d) := by
  simp only [announced, List.map_map]
  apply List.map_congr_left
  intro e _
  simp only [Function.comp_apply, Copy.shift, Copy.mk.injEq, true_and]
  omega

theorem listed_shift (d pos : ℕ) (l : List (Option (List κ))) :
    listed (d + pos) l = (listed pos l).map (Copy.shift d) := by
  induction l generalizing pos with
  | nil => rfl
  | cons slot rest ih =>
    rw [listed, listed, List.map_append, announced_shift, Nat.add_assoc, ih]

theorem listed_append (pos : ℕ) (l l' : List (Option (List κ))) :
    listed pos (l ++ l') = listed pos l ++ listed (pos + l.length) l' := by
  induction l generalizing pos with
  | nil => rfl
  | cons slot rest ih =>
    rw [List.cons_append, listed, listed, ih, List.append_assoc, List.length_cons]
    congr 3
    omega

theorem listed_none {pos : ℕ} {l : List (Option (List κ))} (h : ∀ s ∈ l, s = none) :
    listed pos l = [] := by
  induction l generalizing pos with
  | nil => rfl
  | cons slot rest ih =>
    rw [listed, h slot (List.mem_cons_self ..), ih fun s hs => h s (List.mem_cons_of_mem _ hs)]
    rfl

theorem mem_announced {pos : ℕ} {tags : List κ} {c : Copy κ} (h : c ∈ announced pos tags) :
    c.head = pos ∧ pos < c.place ∧ c.place < pos + 1 + tags.length := by
  obtain ⟨e, he, rfl⟩ := List.mem_map.mp h
  have hlt := (List.mem_zipIdx he).2.1
  dsimp only at hlt ⊢
  omega

/-- An announced block is behind its head. -/
theorem head_bounds {pos : ℕ} {l : List (Option (List κ))} {c : Copy κ} (h : c ∈ listed pos l) :
    pos ≤ c.head ∧ c.head < pos + l.length ∧ c.head < c.place := by
  induction l generalizing pos with
  | nil => cases h
  | cons slot rest ih =>
    rw [listed] at h
    rw [List.length_cons]
    rcases List.mem_append.mp h with h | h
    · have hc := mem_announced h
      omega
    · have hc := ih h
      omega

/-- In a whole log the announced blocks are in the log. -/
theorem Whole.place_lt {pos : ℕ} {l : List (Option (List κ))} (hl : Whole l) {c : Copy κ}
    (h : c ∈ listed pos l) : c.place < pos + l.length := by
  induction l generalizing pos with
  | nil => cases h
  | cons slot rest ih =>
    rw [listed] at h
    rw [List.length_cons]
    rcases List.mem_append.mp h with h | h
    · have hc := mem_announced h
      have hlen := hl.1
      omega
    · have hc := ih hl.2.2 h
      omega

theorem Whole.drop {l : List (Option (List κ))} (h : Whole l) (n : ℕ) : Whole (l.drop n) := by
  induction l generalizing n with
  | nil => simpa using h
  | cons slot rest ih =>
    cases n with
    | zero => exact h
    | succ n => exact ih h.2.2 n

theorem Whole.quiet {l : List (Option (List κ))} (h : Whole l) : Quiet l := by
  induction l with
  | nil => trivial
  | cons slot rest ih => exact ⟨h.2.1, ih h.2.2⟩

theorem Whole.append {l l' : List (Option (List κ))} (h : Whole l) (h' : Whole l') : Whole (l ++ l') := by
  induction l with
  | nil => exact h'
  | cons slot rest ih =>
    rw [List.cons_append]
    refine ⟨?_, ?_, ih h.2.2⟩
    · rw [List.length_append]
      exact h.1.trans (Nat.le_add_right ..)
    · intro s hs
      rw [List.take_append_of_le_length h.1] at hs
      exact h.2.1 s hs

/-- A head with the blocks that it announces. -/
theorem whole_head (tags : List κ) : Whole (some tags :: List.replicate tags.length none) := by
  have hnone (n : ℕ) : Whole (List.replicate n (none : Option (List κ))) := by
    induction n with
    | zero => trivial
    | succ n ih => exact ⟨Nat.zero_le _, nofun, ih⟩
  refine ⟨by simp, fun s hs => ?_, hnone _⟩
  exact List.eq_of_mem_replicate (List.mem_of_mem_take hs)

theorem Quiet.drop {l : List (Option (List κ))} (h : Quiet l) (n : ℕ) : Quiet (l.drop n) := by
  induction l generalizing n with
  | nil => simpa using h
  | cons slot rest ih =>
    cases n with
    | zero => exact h
    | succ n => exact ih h.2 n

theorem Quiet.take {l : List (Option (List κ))} (h : Quiet l) (n : ℕ) : Quiet (l.take n) := by
  induction l generalizing n with
  | nil => simpa using h
  | cons slot rest ih =>
    cases n with
    | zero => trivial
    | succ n =>
      refine ⟨fun s hs => h.1 s ?_, ih h.2 n⟩
      rw [List.take_take] at hs
      exact List.mem_of_mem_take (by rwa [List.take_take, min_comm] at *)

theorem quiet_none {l : List (Option (List κ))} (h : ∀ s ∈ l, s = none) : Quiet l := by
  induction l with
  | nil => trivial
  | cons slot rest ih =>
    have hrest : ∀ s ∈ rest, s = none := fun s hs => h s (List.mem_cons_of_mem _ hs)
    exact ⟨fun s hs => hrest s (List.mem_of_mem_take hs), ih hrest⟩

/-- What is announced before the end of a whole log is not cut by what comes behind it. -/
theorem Whole.append_quiet {l l' : List (Option (List κ))} (h : Whole l) (h' : Quiet l') :
    Quiet (l ++ l') := by
  induction l with
  | nil => exact h'
  | cons slot rest ih =>
    rw [List.cons_append]
    refine ⟨fun s hs => ?_, ih h.2.2⟩
    rw [List.take_append_of_le_length h.1] at hs
    exact h.2.1 s hs

/-- A scan that passes over what is announced misses no head. -/
theorem flatMap_stops {l : List (Option (List κ))} (h : Quiet l) (skip pos : ℕ)
    (hskip : ∀ s ∈ l.take skip, s = none) :
    (stops skip pos l).flatMap (fun e => announced e.1 e.2) = listed pos l := by
  induction l generalizing skip pos with
  | nil => cases skip <;> rfl
  | cons slot rest ih =>
    cases skip with
    | zero =>
      rw [stops, List.flatMap_cons, listed, ih h.2 _ _ h.1]
    | succ n =>
      rw [List.take_succ_cons] at hskip
      rw [stops, listed, ih h.2 n (pos + 1) fun s hs => hskip s (List.mem_cons_of_mem _ hs),
        hskip slot (List.mem_cons_self ..)]
      rfl

section Compare

variable {blank log : List (Option (List κ))}

/-- What the ring still has of the log, under heads that it still has, the oldest first. -/
def kept (m : ℕ) (log : List (Option (List κ))) : List (Copy κ) :=
  listed (log.length - m) (log.drop (log.length - m))

/-- All copies of one key, with their heads, lie in one pass over the ring. -/
def OnePass (m : ℕ) (copies : List (Copy κ)) : Prop :=
  ∀ c ∈ copies, ∀ c' ∈ copies, c.tag = c'.tag → c.head / m = c'.place / m

/-- The ring begins with what is newest: what a scan lists first was written last. -/
structure Passes (m : ℕ) (ring log : List (Option (List κ))) where
  newer : List (Copy κ)
  older : List (Copy κ)
  listed_ring : listed 0 ring = newer ++ older
  pass : ℕ
  last : ℕ
  kept_log : kept m log = older.map (Copy.shift (m * pass)) ++ newer.map (Copy.shift (m * last))
  pass_ne : older ≠ [] → pass ≠ last
  stop : ℕ
  stop_le : stop ≤ m
  newer_lt : ∀ c ∈ newer, c.head < stop ∧ c.place < stop
  older_ge : ∀ c ∈ older, stop ≤ c.head ∧ c.head < m ∧ stop ≤ c.place

theorem quiet_written (hpos : 0 < blank.length) (hblank : ∀ s ∈ blank, s = none) (hlog : Whole log) :
    Quiet (written blank log) := by
  rw [written_eq hpos]
  apply (hlog.drop _).append_quiet
  unfold older
  split_ifs
  · exact quiet_none fun s hs => hblank s (List.mem_of_mem_drop hs)
  · exact (hlog.quiet.take _).drop _

theorem exists_passes (hpos : 0 < blank.length) (hblank : ∀ s ∈ blank, s = none) (hlog : Whole log) :
    Nonempty (Passes blank.length (written blank log) log) := by
  have hlt := Nat.mod_lt log.length hpos
  have hle := Nat.mod_le log.length blank.length
  have hnew := length_newer blank.length log
  have hlisted := congrArg (listed 0) (@written_eq _ blank log hpos)
  rw [listed_append, hnew, Nat.zero_add] at hlisted
  have hnewer : ∀ c ∈ listed 0 (newer blank.length log),
      c.head < log.length % blank.length ∧ c.place < log.length % blank.length := by
    intro c hc
    have hhead := head_bounds hc
    have hplace := (hlog.drop _).place_lt hc
    rw [← newer] at hplace
    omega
  have hstart : log.length - log.length % blank.length = blank.length * (log.length / blank.length) := by
    have hdiv := Nat.div_add_mod log.length blank.length
    omega
  have hlast : listed (log.length - log.length % blank.length) (newer blank.length log) =
      (listed 0 (newer blank.length log)).map (Copy.shift (blank.length * (log.length / blank.length))) := by
    rw [← listed_shift, hstart, Nat.add_zero]
  by_cases hfirst : log.length < blank.length
  · have hmod := Nat.mod_eq_of_lt hfirst
    have holder : listed (log.length % blank.length) (older blank log) = [] := by
      rw [older, if_pos hfirst]
      exact listed_none fun s hs => hblank s (List.mem_of_mem_drop hs)
    refine ⟨⟨_, _, hlisted, 0, log.length / blank.length, ?_, fun h => absurd holder h, _, hlt.le, hnewer, ?_⟩⟩
    · rw [holder, List.map_nil, List.nil_append, ← hlast, kept, newer, hmod, Nat.sub_self,
        Nat.sub_eq_zero_of_le hfirst.le]
    · rw [holder]
      exact nofun
  · have hpass := le_sub_mod hpos (not_lt.mp hfirst)
    have hq : 1 ≤ log.length / blank.length := Nat.div_pos (not_lt.mp hfirst) hpos
    have hlen : (older blank log).length = blank.length - log.length % blank.length := by
      rw [older, if_neg hfirst, List.length_drop, List.length_take]
      omega
    have hbefore : log.length - blank.length =
        blank.length * (log.length / blank.length - 1) + log.length % blank.length := by
      rw [Nat.mul_sub, Nat.mul_one]
      omega
    refine ⟨⟨_, _, hlisted, log.length / blank.length - 1, log.length / blank.length, ?_,
      fun _ => by omega, _, hlt.le, hnewer, fun c hc => ?_⟩⟩
    · have hsplit : log.drop (log.length - blank.length) = older blank log ++ newer blank.length log := by
        rw [older, if_neg hfirst, newer]
        rw [← List.drop_append_of_le_length, List.take_append_drop]
        rw [List.length_take]
        omega
      rw [kept, hsplit, listed_append, hlen, ← listed_shift, ← hbefore, ← hlast]
      congr 2
      omega
    · have hhead := head_bounds hc
      rw [hlen] at hhead
      omega

end Compare

section Index

variable {β : Type}

/-- What an index has under a key. -/
def select [DecidableEq κ] (t : κ) (index : List (κ × β)) : List β := (index.filter (·.1 = t)).map Prod.snd

/-- The copies by their keys, each with what is known of its place. -/
def located (phys : ℕ → Option β) (copies : List (Copy κ)) : List (κ × β) :=
  copies.filterMap fun c => (phys c.place).map (c.tag, ·)

/-- What the first `cap` blocks that a scan of the ring looks at announce. -/
def scanned (phys : ℕ → Option β) (cap : ℕ) (ring : List (Option (List κ))) : List (κ × β) :=
  located phys (((stops 0 0 ring).take cap).flatMap fun e => announced e.1 e.2)

/-- No head comes after the first `cap` blocks that a scan looks at. -/
def Reached (cap : ℕ) (ring : List (Option (List κ))) : Prop := ∀ e ∈ (stops 0 0 ring).drop cap, e.2 = []

theorem select_append [DecidableEq κ] (t : κ) (index index' : List (κ × β)) :
    select t (index ++ index') = select t index ++ select t index' := by
  simp only [select, List.filter_append, List.map_append]

theorem located_append (phys : ℕ → Option β) (l l' : List (Copy κ)) :
    located phys (l ++ l') = located phys l ++ located phys l' := List.filterMap_append

theorem mem_located {phys : ℕ → Option β} {l : List (Copy κ)} {e : κ × β} :
    e ∈ located phys l ↔ ∃ c ∈ l, c.tag = e.1 ∧ phys c.place = some e.2 := by
  obtain ⟨t, x⟩ := e
  simp only [located, List.mem_filterMap, Option.map_eq_some_iff, Prod.mk.injEq]
  constructor
  · rintro ⟨c, hc, y, hy, ht, rfl⟩
    exact ⟨c, hc, ht, hy⟩
  · rintro ⟨c, hc, ht, hx⟩
    exact ⟨c, hc, x, hx, ht, rfl⟩

theorem mem_select [DecidableEq κ] {t : κ} {x : β} {index : List (κ × β)} : x ∈ select t index ↔ (t, x) ∈ index := by
  simp only [select, List.mem_map, List.mem_filter, decide_eq_true_eq]
  constructor
  · rintro ⟨⟨t', y⟩, ⟨hmem, rfl⟩, rfl⟩
    exact hmem
  · exact fun h => ⟨(t, x), ⟨h, rfl⟩, rfl⟩

theorem located_congr {phys phys' : ℕ → Option β} {l : List (Copy κ)}
    (h : ∀ c ∈ l, phys c.place = phys' c.place) : located phys l = located phys' l :=
  List.filterMap_congr fun c hc => by rw [h c hc]

/-- Only the position in the ring counts. -/
theorem located_shift (phys : ℕ → Option β) (m a : ℕ) (l : List (Copy κ)) :
    located (fun i => phys (i % m)) (l.map (Copy.shift (m * a))) = located (fun i => phys (i % m)) l := by
  simp only [located, List.filterMap_map]
  apply List.filterMap_congr
  intro c _
  simp only [Function.comp_apply, Copy.shift, Nat.mul_add_mod]

theorem length_located {phys : ℕ → Option β} {l : List (Copy κ)} (h : ∀ c ∈ l, (phys c.place).isSome) :
    (located phys l).length = l.length := by
  rw [located, List.filterMap_length_eq_length]
  intro c hc
  rw [Option.isSome_map]
  exact h c hc

/-- Indexes that agree under every key have the same entries. -/
theorem perm_of_select [DecidableEq κ] {index index' : List (κ × β)} (h : ∀ t, select t index = select t index') :
    index.Perm index' := by
  classical
  have hcount (t : κ) (x : β) (l : List (κ × β)) : l.count (t, x) = (select t l).count x := by
    induction l with
    | nil => rfl
    | cons e rest ih =>
      obtain ⟨t', y⟩ := e
      rw [List.count_cons, ih]
      by_cases ht : t' = t
      · simp [select, ht, List.count_cons]
      · simp [select, ht]
  rw [List.perm_iff_count]
  rintro ⟨t, x⟩
  rw [hcount, hcount, h]

end Index

section Scan

variable {β : Type} {phys : ℕ → Option β} {m cap : ℕ} {ring log : List (Option (List κ))}

theorem Passes.div_older (P : Passes m ring log) {c : Copy κ} (hc : c ∈ P.older) :
    (m * P.pass + c.head) / m = P.pass := by
  have hlt := (P.older_ge c hc).2.1
  rw [Nat.mul_add_div (by omega), Nat.div_eq_of_lt hlt, Nat.add_zero]

theorem Passes.div_newer (P : Passes m ring log) {c : Copy κ} (hc : c ∈ P.newer) :
    (m * P.last + c.head) / m = P.last ∧ (m * P.last + c.place) / m = P.last := by
  have hlt := P.newer_lt c hc
  have hle := P.stop_le
  constructor <;> rw [Nat.mul_add_div (by omega), Nat.div_eq_of_lt (by omega), Nat.add_zero]

/-- That each key is of one pass means that nothing older goes on behind the end of the ring,
and that nothing older has a key of something newer. -/
theorem Passes.onePass_iff (P : Passes m ring log) : OnePass m (kept m log) ↔
    (∀ c ∈ P.older, c.place < m) ∧ ∀ c ∈ P.older, ∀ c' ∈ P.newer, c.tag ≠ c'.tag := by
  rw [P.kept_log]
  have hplace : ∀ c ∈ P.older, c.place < m → (m * P.pass + c.place) / m = P.pass := by
    intro c hc hlt
    rw [Nat.mul_add_div (by omega), Nat.div_eq_of_lt hlt, Nat.add_zero]
  constructor
  · intro h
    constructor
    · intro c hc
      have hmem := List.mem_append_left (P.newer.map (Copy.shift (m * P.last)))
        (List.mem_map_of_mem (f := Copy.shift (m * P.pass)) hc)
      have hone : (m * P.pass + c.head) / m = (m * P.pass + c.place) / m := h _ hmem _ hmem rfl
      have hm : 0 < m := by
        have hlt := P.older_ge c hc
        omega
      rw [P.div_older hc, Nat.mul_add_div hm] at hone
      by_contra hge
      have hpos := Nat.div_pos (not_lt.mp hge) hm
      omega
    · intro c hc c' hc' htag
      have hone : (m * P.pass + c.head) / m = (m * P.last + c'.place) / m :=
        h _ (List.mem_append_left _ (List.mem_map_of_mem hc)) _
          (List.mem_append_right _ (List.mem_map_of_mem hc')) htag
      rw [P.div_older hc, (P.div_newer hc').2] at hone
      exact P.pass_ne (List.ne_nil_of_mem hc) hone
  · intro ⟨hwrap, htags⟩ c hc c' hc' htag
    rcases List.mem_append.mp hc with hc | hc <;> rcases List.mem_append.mp hc' with hc' | hc' <;>
      obtain ⟨d, hd, rfl⟩ := List.mem_map.mp hc <;> obtain ⟨d', hd', rfl⟩ := List.mem_map.mp hc'
    · exact (P.div_older hd).trans (hplace d' hd' (hwrap d' hd')).symm
    · exact absurd htag (htags d hd d' hd')
    · exact absurd htag.symm (htags d' hd' d hd)
    · exact (P.div_newer hd).1.trans (P.div_newer hd').2.symm

theorem Passes.located_kept (P : Passes m ring log) :
    located (fun i => phys (i % m)) (kept m log) =
      located (fun i => phys (i % m)) P.older ++ located phys P.newer := by
  rw [P.kept_log, located_append, located_shift, located_shift]
  congr 1
  apply located_congr
  intro c hc
  have hlt := P.newer_lt c hc
  have hle := P.stop_le
  rw [Nat.mod_eq_of_lt (by omega)]

/-- A scan that reaches every head lists the newer copies and then the older ones. -/
theorem Passes.scanned_of_reached (P : Passes m ring log) (hquiet : Quiet ring) (h : Reached cap ring) :
    scanned phys cap ring = located phys P.newer ++ located phys P.older := by
  have hdrop : ((stops 0 0 ring).drop cap).flatMap (fun e => announced e.1 e.2) = [] := by
    rw [List.flatMap_eq_nil_iff]
    intro e he
    rw [h e he]
    rfl
  have hall := flatMap_stops hquiet 0 0 nofun
  rw [← List.take_append_drop cap (stops 0 0 ring), List.flatMap_append, hdrop, List.append_nil,
    P.listed_ring] at hall
  rw [scanned, hall, located_append]

theorem select_eq_nil [DecidableEq κ] {t : κ} {l : List (Copy κ)} (h : ∀ c ∈ l, c.tag ≠ t) :
    select t (located phys l) = [] := by
  apply List.eq_nil_iff_forall_not_mem.mpr
  intro x hx
  obtain ⟨c, hc, ht, -⟩ := mem_located.mp (mem_select.mp hx)
  exact h c hc ht

theorem Passes.select_of_onePass [DecidableEq κ] (P : Passes m ring log) (hquiet : Quiet ring)
    (hpass : OnePass m (kept m log)) (hreached : Reached cap ring) (t : κ) :
    select t (scanned phys cap ring) = select t (located (fun i => phys (i % m)) (kept m log)) := by
  obtain ⟨hwrap, htags⟩ := P.onePass_iff.mp hpass
  have holder : located (fun i => phys (i % m)) P.older = located phys P.older := by
    apply located_congr
    intro c hc
    rw [Nat.mod_eq_of_lt (hwrap c hc)]
  rw [P.scanned_of_reached hquiet hreached, P.located_kept, holder, select_append, select_append]
  by_cases hold : ∃ c ∈ P.older, c.tag = t
  · obtain ⟨c, hc, rfl⟩ := hold
    rw [select_eq_nil (l := P.newer) fun c' hc' htag => htags c hc c' hc' htag.symm, List.nil_append,
      List.append_nil]
  · rw [select_eq_nil (l := P.older) fun c hc htag => hold ⟨c, hc, htag⟩, List.nil_append,
      List.append_nil]

/-- An index that agrees with the log has reached every head. -/
theorem Passes.reached_of_perm (P : Passes m ring log) (hquiet : Quiet ring)
    (hphys : ∀ p < m, (phys p).isSome)
    (h : (scanned phys cap ring).Perm (located (fun i => phys (i % m)) (kept m log))) :
    Reached cap ring := by
  have hall := flatMap_stops hquiet 0 0 nofun
  have htotal : (kept m log).length = (listed 0 ring).length := by
    rw [P.kept_log, P.listed_ring]
    simp only [List.length_append, List.length_map]
    omega
  have hkept : (located (fun i => phys (i % m)) (kept m log)).length = (kept m log).length := by
    apply length_located
    intro c hc
    apply hphys
    apply Nat.mod_lt
    rw [P.kept_log] at hc
    have hle := P.stop_le
    rcases List.mem_append.mp hc with hc | hc <;> obtain ⟨d, hd, -⟩ := List.mem_map.mp hc
    · have hlt := P.older_ge d hd
      omega
    · have hlt := P.newer_lt d hd
      omega
  have hscan : (scanned phys cap ring).length ≤
      (((stops 0 0 ring).take cap).flatMap fun e => announced e.1 e.2).length :=
    List.length_filterMap_le ..
  rw [← List.take_append_drop cap (stops 0 0 ring), List.flatMap_append] at hall
  have hsum := congrArg List.length hall
  rw [List.length_append] at hsum
  have hnone : ((stops 0 0 ring).drop cap).flatMap (fun e => announced e.1 e.2) = [] := by
    apply List.length_eq_zero_iff.mp
    have hperm := h.length_eq
    omega
  intro e he
  have hannounced := List.flatMap_eq_nil_iff.mp hnone e he
  have hzip := List.map_eq_nil_iff.mp hannounced
  simpa using congrArg List.length hzip

/-- An index that agrees with the log has no place behind the end of the ring. -/
theorem Passes.older_lt (P : Passes m ring log) (hphys : ∀ p < m, (phys p).isSome)
    (hinj : ∀ p q x, phys p = some x → phys q = some x → p = q)
    (h : (located phys P.newer ++ located phys P.older).Perm
      (located (fun i => phys (i % m)) P.older ++ located phys P.newer)) :
    ∀ c ∈ P.older, c.place < m := by
  have hle := P.stop_le
  have hwrapped : (located (fun i => phys (i % m)) P.older).length = P.older.length := by
    apply length_located
    intro c hc
    have hlt := P.older_ge c hc
    exact hphys _ (Nat.mod_lt _ (by omega))
  have hlen : (located phys P.older).length = P.older.length := by
    have hsum := h.length_eq
    rw [List.length_append, List.length_append] at hsum
    omega
  rw [located, List.filterMap_length_eq_length] at hlen
  intro c hc
  have hsome := hlen c hc
  rw [Option.isSome_map] at hsome
  obtain ⟨x, hx⟩ := Option.isSome_iff_exists.mp hsome
  have hfound : (c.tag, x) ∈ located phys P.older := mem_located.mpr ⟨c, hc, rfl, hx⟩
  have hmem := h.mem_iff.mp (List.mem_append_right _ hfound)
  rcases List.mem_append.mp hmem with hmem | hmem <;> obtain ⟨d, hd, -, hplace⟩ := mem_located.mp hmem
  · rw [hinj _ _ x hx hplace]
    have hlt := P.older_ge d hd
    exact Nat.mod_lt _ (by omega)
  · rw [hinj _ _ x hx hplace]
    have hlt := P.newer_lt d hd
    omega

/-- No key of a newer copy is one of an older copy where their order does not matter. -/
theorem Passes.tag_ne [DecidableEq κ] (P : Passes m ring log) (hphys : ∀ p < m, (phys p).isSome)
    (hinj : ∀ p q x, phys p = some x → phys q = some x → p = q) (holder : ∀ c ∈ P.older, c.place < m)
    (h : ∀ t, select t (located phys P.newer ++ located phys P.older) =
      select t (located phys P.older ++ located phys P.newer)) :
    ∀ c ∈ P.older, ∀ c' ∈ P.newer, c.tag ≠ c'.tag := by
  have hle := P.stop_le
  have hcons {l : List (Copy κ)} {c : Copy κ} (hc : c ∈ l) (hlt : c.place < m) :
      ∃ x rest d, select c.tag (located phys l) = x :: rest ∧ d ∈ l ∧ phys d.place = some x := by
    obtain ⟨x, hx⟩ := Option.isSome_iff_exists.mp (hphys _ hlt)
    have hmem := mem_select.mpr (mem_located.mpr ⟨c, hc, rfl, hx⟩)
    obtain ⟨y, rest, hlist⟩ := List.exists_cons_of_ne_nil (List.ne_nil_of_mem hmem)
    have hy : y ∈ select c.tag (located phys l) := by
      rw [hlist]
      exact List.mem_cons_self ..
    obtain ⟨d, hd, -, hplace⟩ := mem_located.mp (mem_select.mp hy)
    exact ⟨y, rest, d, hlist, hd, hplace⟩
  intro c hc c' hc' htag
  have hnew := P.newer_lt c' hc'
  obtain ⟨x, rest, d, hold, hd, hx⟩ := hcons hc (holder c hc)
  obtain ⟨y, rest', d', hnewer, hd', hy⟩ := hcons hc' (by omega)
  have heq := h c.tag
  rw [select_append, select_append, hold, htag, hnewer, List.cons_append, List.cons_append,
    List.cons.injEq] at heq
  have hsame := hinj _ _ x hx (by rw [← heq.1, hy])
  have hlt := P.newer_lt d' hd'
  have hge := P.older_ge d hd
  omega

/-- The index of a scan agrees with the log, under every key, if and only if each key is of
one pass and the scan reaches every head. -/
theorem select_scanned_iff [DecidableEq κ] (cap : ℕ) {blank : List (Option (List κ))} (hpos : 0 < blank.length)
    (hblank : ∀ s ∈ blank, s = none) (hlog : Whole log) (hphys : ∀ p < blank.length, (phys p).isSome)
    (hinj : ∀ p q x, phys p = some x → phys q = some x → p = q) :
    (∀ t, select t (scanned phys cap (written blank log)) =
      select t (located (fun i => phys (i % blank.length)) (kept blank.length log))) ↔
    OnePass blank.length (kept blank.length log) ∧ Reached cap (written blank log) := by
  have hquiet := quiet_written hpos hblank hlog
  obtain ⟨P⟩ := exists_passes hpos hblank hlog
  constructor
  · intro h
    have hreached := P.reached_of_perm hquiet hphys (perm_of_select h)
    rw [P.scanned_of_reached hquiet hreached, P.located_kept] at h
    have holder := P.older_lt hphys hinj (perm_of_select h)
    have hwrapped : located (fun i => phys (i % blank.length)) P.older = located phys P.older := by
      apply located_congr
      intro c hc
      rw [Nat.mod_eq_of_lt (holder c hc)]
    rw [hwrapped] at h
    exact ⟨P.onePass_iff.mpr ⟨holder, P.tag_ne hphys hinj holder h⟩, hreached⟩
  · intro ⟨hpass, hreached⟩
    exact P.select_of_onePass hquiet hpass hreached

end Scan

end Unearth.RingLog
