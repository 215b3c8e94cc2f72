import Unearth.Json
import Unearth.Source

/-!
# Background jobs

A job is a worker and the progress that it shares with the queries. The end of a job is
published in two steps, first the result and then the flag that says that it is there. A
worker that panics leaves without either of them.
-/

namespace Unearth.Job
open Lines Word

/-- A word as a double: the closest one, and of two the one with an even significand. -/
def asDouble (n : ℕ) : ℚ :=
  let unit := 2 ^ (Nat.log2 n - 52)
  let q := n / unit
  let r := n % unit
  if unit < 2 * r ∨ (unit = 2 * r ∧ q % 2 = 1) then ((q + 1) * unit : ℕ) else (q * unit : ℕ)

structure Progress where
  kind : Text
  total : ℕ
  scanned : ℕ
  done : Bool
  cancel : Bool
  result : Option (Except Text Json)

def Progress.new (kind : Text) : Progress := ⟨kind, 0, 0, false, false, none⟩

/-- Where the thread of a job is. -/
inductive Phase
  | working
  | returned (res : Except Text Json)
  | stored
  | published
  | left

structure Worker where
  id : ℕ
  prog : Progress
  phase : Phase

inductive Move
  | begin (total : ℕ)
  | update (scanned : ℕ)
  | finish (scanned : ℕ)
  | returns (res : Except Text Json)
  | panics
  | store
  | publish
  | exit

def Worker.step (w : Worker) (m : Move) : Option Worker :=
  match m, w.phase with
  | .begin total, .working => some { w with prog := { w.prog with total := total } }
  | .update scanned, .working => some { w with prog := { w.prog with scanned := scanned } }
  | .finish scanned, .working => some { w with prog := { w.prog with scanned := scanned } }
  | .returns res, .working => some { w with phase := .returned res }
  | .panics, .working => some { w with phase := .left }
  | .store, .returned res => some { w with prog := { w.prog with result := some res }, phase := .stored }
  | .publish, .stored => some { w with prog := { w.prog with done := true }, phase := .published }
  | .exit, .published => some { w with phase := .left }
  | _, _ => none

/-- The registry, which names a worker under its id, and the threads in the order of their start. -/
structure State where
  next : ℕ
  jobs : List (ℕ × ℕ)
  workers : List Worker

def init : State := ⟨1, [], []⟩

section Calls

variable (b : Build) (s : State)

/-- The counter that does not fit stops the caller. -/
def start (kind : Text) : Option State :=
  match plus b s.next 1 with
  | .error _ => none
  | .ok next => some
    { next := next
      jobs := (s.next, s.workers.length) :: s.jobs
      workers := s.workers ++ [⟨s.next, .new kind, .working⟩] }

def lookup (id : ℕ) : Option Worker := (s.jobs.lookup id).bind fun i => s.workers[i]?

def endFields (p : Progress) : List (Text × Json) :=
  if p.done then
    match p.result with
    | some (.ok value) => [("result".toList, value)]
    | some (.error msg) => [("error".toList, .str msg)]
    | none => []
  else []

def Progress.status (id : ℕ) (p : Progress) : Json :=
  .obj ([("job_id".toList, .num (some (asDouble id))), ("kind".toList, .str p.kind),
    ("running".toList, .bool !p.done), ("cancel_requested".toList, .bool p.cancel),
    ("bytes_scanned".toList, .num (some (asDouble p.scanned))),
    ("bytes_total".toList, .num (some (asDouble p.total)))] ++ endFields p)

def status (id : ℕ) : Option Json := (lookup s id).map fun w => w.prog.status id

def Worker.cancel (w : Worker) : Worker := { w with prog := { w.prog with cancel := true } }

def cancel (id : ℕ) : State :=
  match s.jobs.lookup id with
  | some i => { s with workers := s.workers.modify i Worker.cancel }
  | none => s

inductive Act
  | start (kind : Text)
  | status (id : ℕ)
  | cancel (id : ℕ)
  | worker (i : ℕ) (m : Move)

def step : Act → Option State
  | .start kind => start b s kind
  | .status _ => some s
  | .cancel id => some (cancel s id)
  | .worker i m => ((s.workers[i]?).bind fun w => w.step m).map fun w => { s with workers := s.workers.set i w }

end Calls

/-- The runs whose steps all meet a condition on the state before the step. -/
def Runs (P : State → Act → Prop) (b : Build) : State → State → Prop :=
  Relation.ReflTransGen fun s s' => ∃ a, P s a ∧ step b s a = some s'

theorem Runs.mono {P Q : State → Act → Prop} {b : Build} {s s' : State} (hr : Runs P b s s')
    (h : ∀ s a, P s a → Q s a) : Runs Q b s s' := by
  induction hr with
  | refl => exact .refl
  | tail _ hstep ih =>
    obtain ⟨a, hp, hs⟩ := hstep
    exact ih.tail ⟨a, h _ a hp, hs⟩

/-- No worker panics, and the counter of the ids does not overflow. -/
def Calm (s : State) : Act → Prop
  | .start _ => s.next + 1 < 2 ^ 64
  | .worker _ .panics => False
  | _ => True

/-- Moreover no job is cancelled that has ended. -/
def Quiet (s : State) (a : Act) : Prop :=
  Calm s a ∧ ∀ id w, a = .cancel id → lookup s id = some w → w.prog.done = false

example : asDouble 4096 = 4096 := by decide +kernel
example : asDouble (2 ^ 53 + 1) = 2 ^ 53 := by decide +kernel

section Status

variable (id : ℕ) (p : Progress)

theorem status_running : (p.status id).get "running".toList = some (.bool !p.done) := rfl

theorem status_result : (p.status id).get "result".toList =
    if p.done then p.result.bind Except.toOption else none := by
  rcases p with ⟨kind, total, scanned, done, cancel, result⟩
  rcases done with _ | _ <;> rcases result with _ | (_ | _) <;> rfl

theorem status_error : (p.status id).get "error".toList =
    if p.done then p.result.bind fun r => match r with
      | .ok _ => none
      | .error msg => some (.str msg)
    else none := by
  rcases p with ⟨kind, total, scanned, done, cancel, result⟩
  rcases done with _ | _ <;> rcases result with _ | (_ | _) <;> rfl

theorem get_set {key k : Text} (h : key ≠ k) (before after : List (Text × Json)) (v v' : Json) :
    (Json.obj (before ++ (k, v') :: after)).get key = (Json.obj (before ++ (k, v) :: after)).get key := by
  simp [Json.get, List.find?_append, Ne.symm h]

/-- A later cancellation shows in one field only. -/
theorem status_cancel {key : Text} (h : key ≠ "cancel_requested".toList) :
    ({ p with cancel := true }.status id).get key = (p.status id).get key :=
  get_set h [_, _, _] (_ :: _ :: endFields p) _ _

end Status

section Step

variable {b : Build} {s s' : State} {a : Act}

theorem lookup_eq_some {id : ℕ} {w : Worker} :
    lookup s id = some w ↔ ∃ i, s.jobs.lookup id = some i ∧ s.workers[i]? = some w := by
  simp [lookup, Option.bind_eq_some_iff]

theorem cancel_eq {id : ℕ} : cancel s id = s ∨ ∃ i w, s.jobs.lookup id = some i ∧ s.workers[i]? = some w ∧
    cancel s id = { s with workers := s.workers.set i w.cancel } := by
  unfold cancel
  cases hi : s.jobs.lookup id with
  | none => exact .inl rfl
  | some i =>
    cases hw : s.workers[i]? with
    | none =>
      left
      simp only [List.modify_eq_self (List.getElem?_eq_none_iff.mp hw)]
    | some w =>
      refine .inr ⟨i, w, rfl, hw, ?_⟩
      dsimp only
      congr 1
      apply List.ext_getElem?
      intro j
      rw [List.getElem?_modify, List.getElem?_set]
      obtain ⟨hlt, hget⟩ := List.getElem?_eq_some_iff.mp hw
      by_cases hij : i = j
      · subst hij
        simp [hlt, hget]
      · simp [hij]

/-- All that a step of a calm run can do. -/
theorem step_cases (hcalm : Calm s a) (h : step b s a = some s') :
    (∃ kind, a = .start kind ∧ s' =
      ⟨s.next + 1, (s.next, s.workers.length) :: s.jobs, s.workers ++ [⟨s.next, .new kind, .working⟩]⟩) ∨
    s' = s ∨
    ∃ i w w', s.workers[i]? = some w ∧ s' = { s with workers := s.workers.set i w' } ∧
      ((∃ id, a = .cancel id ∧ s.jobs.lookup id = some i ∧ w' = w.cancel) ∨
        ∃ m, m ≠ .panics ∧ w.step m = some w') := by
  cases a with
  | start kind =>
    left
    simp only [step, start, plus_eq hcalm] at h
    exact ⟨kind, rfl, (Option.some.inj h).symm⟩
  | status id => exact .inr (.inl (Option.some.inj h).symm)
  | cancel id =>
    have heq : cancel s id = s' := Option.some.inj h
    rcases @cancel_eq s id with hsame | ⟨i, w, hi, hw, hset⟩
    · exact .inr (.inl (heq.symm.trans hsame))
    · exact .inr (.inr ⟨i, w, w.cancel, hw, heq.symm.trans hset, .inl ⟨id, rfl, hi, rfl⟩⟩)
  | worker i m =>
    obtain ⟨w', hw', hset⟩ := Option.map_eq_some_iff.mp h
    obtain ⟨w, hw, hm⟩ := Option.bind_eq_some_iff.mp hw'
    refine .inr (.inr ⟨i, w, w', hw, hset.symm, .inr ⟨m, ?_, hm⟩⟩)
    intro hpanic
    rw [hpanic] at hcalm
    exact hcalm

/-- What a thread that has not panicked has published at each point. -/
def Worker.Ordered (w : Worker) : Prop :=
  match w.phase with
  | .working => w.prog.done = false
  | .returned _ => w.prog.done = false
  | .stored => w.prog.done = false ∧ w.prog.result.isSome
  | .published => w.prog.done = true ∧ w.prog.result.isSome
  | .left => w.prog.done = true ∧ w.prog.result.isSome

theorem Worker.step_spec {w w' : Worker} {m : Move} (ho : w.Ordered) (hm : m ≠ .panics)
    (h : w.step m = some w') :
    w'.Ordered ∧ w'.id = w.id ∧ (w.prog.done = true → w'.prog = w.prog) := by
  rcases w with ⟨id, prog, phase⟩
  cases m <;> cases phase <;> simp only [Worker.step, reduceCtorEq, Option.some.injEq, ne_eq,
    not_true_eq_false] at h hm
  all_goals
    subst h
    simp_all [Worker.Ordered]

end Step

section Invariant

/-- The registry names every worker under its id. -/
structure WellNamed (s : State) : Prop where
  id_lt : ∀ (i : ℕ) (w : Worker), s.workers[i]? = some w → w.id < s.next
  jobs_iff : ∀ id i, s.jobs.lookup id = some i ↔ ∃ w, s.workers[i]? = some w ∧ w.id = id
  ordered : ∀ (i : ℕ) (w : Worker), s.workers[i]? = some w → w.Ordered

variable {b : Build} {s s' : State} {a : Act}

theorem wellNamed_init : WellNamed init where
  id_lt i w h := by simp [init] at h
  jobs_iff id i := by simp [init]
  ordered i w h := by simp [init] at h

theorem WellNamed.jobs_lt (h : WellNamed s) {id i : ℕ} (hi : s.jobs.lookup id = some i) : id < s.next := by
  obtain ⟨w, hw, rfl⟩ := (h.jobs_iff id i).mp hi
  exact h.id_lt i w hw

theorem WellNamed.set (h : WellNamed s) {i : ℕ} {w w' : Worker} (hw : s.workers[i]? = some w)
    (hid : w'.id = w.id) (ho : w'.Ordered) : WellNamed { s with workers := s.workers.set i w' } := by
  have hset : ∀ j x, (s.workers.set i w')[j]? = some x ↔
      (i = j ∧ x = w') ∨ (i ≠ j ∧ s.workers[j]? = some x) := by
    intro j x
    rw [List.getElem?_set]
    by_cases hij : i = j
    · simp [hij, hij ▸ (List.getElem?_eq_some_iff.mp hw).1, eq_comm]
    · simp [hij]
  constructor
  · intro j x hx
    rcases (hset j x).mp hx with ⟨-, rfl⟩ | ⟨-, hx⟩
    · exact hid ▸ h.id_lt i w hw
    · exact h.id_lt j x hx
  · intro id j
    rw [h.jobs_iff id j]
    simp only [hset]
    by_cases hij : i = j
    · subst hij
      simp [hw, hid]
    · simp [hij]
  · intro j x hx
    rcases (hset j x).mp hx with ⟨-, rfl⟩ | ⟨-, hx⟩
    · exact ho
    · exact h.ordered j x hx

theorem WellNamed.start (h : WellNamed s) (kind : Text) : WellNamed
    ⟨s.next + 1, (s.next, s.workers.length) :: s.jobs, s.workers ++ [⟨s.next, .new kind, .working⟩]⟩ := by
  have happend : ∀ i w, (s.workers ++ [⟨s.next, .new kind, .working⟩])[i]? = some w ↔
      s.workers[i]? = some w ∨ (i = s.workers.length ∧ w = ⟨s.next, .new kind, .working⟩) := by
    intro i w
    rw [List.getElem?_append]
    split_ifs with hi
    · simp [hi.ne]
    · rw [List.getElem?_eq_none (not_lt.mp hi), List.getElem?_singleton]
      by_cases heq : i = s.workers.length
      · simp [heq, eq_comm]
      · simp [heq, show i - s.workers.length ≠ 0 by omega]
  constructor
  · intro i w hw
    rcases (happend i w).mp hw with hold | ⟨-, rfl⟩
    · exact (h.id_lt i w hold).trans (Nat.lt_succ_self _)
    · exact Nat.lt_succ_self _
  · intro id i
    simp only [happend]
    by_cases hid : id = s.next
    · rw [hid, List.lookup_cons_self, Option.some.injEq]
      constructor
      · rintro rfl
        exact ⟨_, .inr ⟨rfl, rfl⟩, rfl⟩
      · rintro ⟨w, hold | ⟨hi, -⟩, hw⟩
        · exact absurd hw (h.id_lt i w hold).ne
        · exact hi.symm
    · rw [List.lookup_cons, beq_false_of_ne hid, h.jobs_iff id i]
      constructor
      · rintro ⟨w, hw, hwid⟩
        exact ⟨w, .inl hw, hwid⟩
      · rintro ⟨w, hold | ⟨-, rfl⟩, hw⟩
        · exact ⟨w, hold, hw⟩
        · exact absurd hw.symm hid
  · intro i w hw
    rcases (happend i w).mp hw with hold | ⟨-, rfl⟩
    · exact h.ordered i w hold
    · rfl

theorem WellNamed.step (h : WellNamed s) (hcalm : Calm s a) (hs : step b s a = some s') : WellNamed s' := by
  rcases step_cases hcalm hs with ⟨kind, -, rfl⟩ | rfl | ⟨i, w, w', hw, rfl, ⟨id, -, -, rfl⟩ | ⟨m, hm, hstep⟩⟩
  · exact h.start kind
  · exact h
  · exact h.set hw rfl (h.ordered i w hw)
  · obtain ⟨ho, hid, -⟩ := Worker.step_spec (h.ordered i w hw) hm hstep
    exact h.set hw hid ho

theorem WellNamed.run (h : WellNamed s) (hr : Runs Calm b s s') : WellNamed s' := by
  induction hr with
  | refl => exact h
  | tail _ hstep ih =>
    obtain ⟨a, hcalm, hs⟩ := hstep
    exact ih.step hcalm hs

theorem WellNamed.ids_nodup (h : WellNamed s) : (s.workers.map Worker.id).Nodup := by
  apply List.nodup_iff_getElem?_ne_getElem?.mpr
  intro i j hij hj heq
  rw [List.length_map] at hj
  have hwi := List.getElem?_eq_getElem (hij.trans hj)
  have hwj := List.getElem?_eq_getElem hj
  rw [List.getElem?_map, List.getElem?_map, hwi, hwj] at heq
  have hi := (h.jobs_iff _ i).mpr ⟨_, hwi, Option.some.inj heq⟩
  have hj' := (h.jobs_iff _ j).mpr ⟨_, hwj, rfl⟩
  rw [hi, Option.some.injEq] at hj'
  omega

end Invariant

section Ended

variable {b : Build} {s s' : State} {a : Act} {id : ℕ} {w : Worker}

/-- A step leaves what has been published, but for the mark of a cancellation. -/
theorem step_ended (hinv : WellNamed s) (hcalm : Calm s a) (hs : step b s a = some s')
    (hw : lookup s id = some w) (hdone : w.prog.done = true) :
    ∃ w', lookup s' id = some w' ∧ (w'.prog = w.prog ∨ a = .cancel id ∧ w' = w.cancel) := by
  obtain ⟨i, hi, hget⟩ := lookup_eq_some.mp hw
  rcases step_cases hcalm hs with ⟨kind, -, rfl⟩ | rfl | ⟨j, x, x', hx, rfl, hstep⟩
  · refine ⟨w, lookup_eq_some.mpr ⟨i, ?_, ?_⟩, .inl rfl⟩
    · have hne : (id == s.next) = false := beq_false_of_ne (hinv.jobs_lt hi).ne
      rw [List.lookup_cons, hne]
      exact hi
    · rw [List.getElem?_append_left (List.getElem?_eq_some_iff.mp hget).1]
      exact hget
  · exact ⟨w, hw, .inl rfl⟩
  · by_cases hij : j = i
    · subst hij
      obtain rfl : w = x := Option.some.inj (hget.symm.trans hx)
      have hset : (s.workers.set j x')[j]? = some x' := by
        rw [List.getElem?_set, if_pos rfl, if_pos (List.getElem?_eq_some_iff.mp hget).1]
      refine ⟨x', lookup_eq_some.mpr ⟨j, hi, hset⟩, ?_⟩
      rcases hstep with ⟨k, rfl, hk, rfl⟩ | ⟨m, hm, hmove⟩
      · obtain ⟨y, hy, rfl⟩ := (hinv.jobs_iff k j).mp hk
        obtain ⟨z, hz, rfl⟩ := (hinv.jobs_iff id j).mp hi
        obtain rfl : y = z := Option.some.inj (hy.symm.trans hz)
        exact .inr ⟨rfl, rfl⟩
      · exact .inl ((Worker.step_spec (hinv.ordered j w hget) hm hmove).2.2 hdone)
    · refine ⟨w, lookup_eq_some.mpr ⟨i, hi, ?_⟩, .inl rfl⟩
      rw [List.getElem?_set, if_neg hij]
      exact hget

theorem run_ended (hinv : WellNamed s) (hr : Runs Calm b s s') (hw : lookup s id = some w)
    (hdone : w.prog.done = true) :
    ∃ w', lookup s' id = some w' ∧ (w'.prog = w.prog ∨ w'.prog = { w.prog with cancel := true }) := by
  induction hr with
  | refl => exact ⟨w, hw, .inl rfl⟩
  | tail hrun hstep ih =>
    obtain ⟨a, hcalm, hs⟩ := hstep
    obtain ⟨x, hx, hprog⟩ := ih
    have hxdone : x.prog.done = true := by
      rcases hprog with hprog | hprog <;> rw [hprog] <;> exact hdone
    obtain ⟨y, hy, hkeep⟩ := step_ended (hinv.run hrun) hcalm hs hx hxdone
    refine ⟨y, hy, ?_⟩
    rcases hkeep with hsame | ⟨-, rfl⟩
    · rwa [hsame]
    · right
      rcases hprog with hprog | hprog <;> simp only [Worker.cancel, hprog]

theorem quiet_run_ended (hinv : WellNamed s) (hr : Runs Quiet b s s') (hw : lookup s id = some w)
    (hdone : w.prog.done = true) : ∃ w', lookup s' id = some w' ∧ w'.prog = w.prog := by
  induction hr with
  | refl => exact ⟨w, hw, rfl⟩
  | tail hrun hstep ih =>
    obtain ⟨a, hquiet, hs⟩ := hstep
    obtain ⟨x, hx, hprog⟩ := ih
    have hxdone : x.prog.done = true := by rw [hprog, hdone]
    obtain ⟨y, hy, hsame | ⟨ha, -⟩⟩ := step_ended (hinv.run (Runs.mono hrun fun _ _ h => h.1)) hquiet.1 hs hx hxdone
    · exact ⟨y, hy, hsame.trans hprog⟩
    · rw [hquiet.2 id x ha hx] at hxdone
      cases hxdone

end Ended

section Reports

/-- A status that reports the end of its job. -/
def Ended (st : Json) : Prop := st.get "running".toList = some (.bool false)

/-- What the queries say about the jobs of a state. -/
structure StatusRight (s : State) : Prop where
  ids_nodup : (s.workers.map Worker.id).Nodup
  one_end : ∀ id st, status s id = some st → Ended st →
    ((st.get "result".toList).isSome ↔ ¬ (st.get "error".toList).isSome)
  left_ended : ∀ w ∈ s.workers, w.phase = .left → ∃ st, status s w.id = some st ∧ Ended st

variable {b : Build} {s : State}

theorem exists_ended {id : ℕ} {st : Json} (h : status s id = some st) (hend : Ended st) :
    ∃ w, lookup s id = some w ∧ w.prog.status id = st ∧ w.prog.done = true := by
  obtain ⟨w, hw, rfl⟩ := Option.map_eq_some_iff.mp h
  refine ⟨w, hw, rfl, ?_⟩
  unfold Ended at hend
  rw [status_running, Option.some.injEq, Json.bool.injEq] at hend
  simpa using hend

theorem Worker.Ordered.isSome_result {w : Worker} (h : w.Ordered) (hdone : w.prog.done = true) :
    w.prog.result.isSome = true := by
  unfold Worker.Ordered at h
  cases hp : w.phase with
  | working => simp_all
  | returned res => simp_all
  | stored => simp_all
  | published => simp_all
  | left => simp_all

theorem WellNamed.statusRight (h : WellNamed s) : StatusRight s where
  ids_nodup := h.ids_nodup
  one_end id st hst hend := by
    obtain ⟨w, hw, rfl, hdone⟩ := exists_ended hst hend
    obtain ⟨i, -, hget⟩ := lookup_eq_some.mp hw
    obtain ⟨res, hres⟩ := Option.isSome_iff_exists.mp ((h.ordered i w hget).isSome_result hdone)
    rw [status_result, status_error, if_pos hdone, if_pos hdone, hres]
    cases res <;> simp [Except.toOption]
  left_ended w hmem hleft := by
    obtain ⟨i, hget⟩ := List.mem_iff_getElem?.mp hmem
    have hlookup := lookup_eq_some.mpr ⟨i, (h.jobs_iff w.id i).mpr ⟨w, hget, rfl⟩, hget⟩
    refine ⟨w.prog.status w.id, by rw [status, hlookup, Option.map_some], ?_⟩
    have hordered := h.ordered i w hget
    unfold Worker.Ordered at hordered
    rw [hleft] at hordered
    unfold Ended
    rw [status_running, hordered.1]
    rfl

/-- In a run in which no worker panics, the queries are right about the end of every job, and what
they say of it stays: all of it when the job is not cancelled afterwards, else all but the mark of
the cancellation. -/
theorem status_right (h : Runs Calm b init s) : StatusRight s ∧
    (∀ s' id st, Runs Calm b s s' → status s id = some st → Ended st →
      ∃ st', status s' id = some st' ∧ ∀ key, key ≠ "cancel_requested".toList → st'.get key = st.get key) ∧
    ∀ s' id st, Runs Quiet b s s' → status s id = some st → Ended st → status s' id = some st := by
  have hinv := wellNamed_init.run h
  refine ⟨hinv.statusRight, ?_, ?_⟩
  · intro s' id st hr hst hend
    obtain ⟨w, hw, rfl, hdone⟩ := exists_ended hst hend
    obtain ⟨w', hw', hprog⟩ := run_ended hinv hr hw hdone
    refine ⟨w'.prog.status id, by rw [status, hw', Option.map_some], ?_⟩
    intro key hkey
    rcases hprog with hprog | hprog
    · rw [hprog]
    · rw [hprog, status_cancel id w.prog hkey]
  · intro s' id st hr hst hend
    obtain ⟨w, hw, rfl, hdone⟩ := exists_ended hst hend
    obtain ⟨w', hw', hprog⟩ := quiet_run_ended hinv hr hw hdone
    rw [status, hw', Option.map_some, hprog]

/-- One job, from its start to the end of its thread. -/
def oneJob (kind : Text) (res : Except Text Json) : State :=
  ⟨2, [(1, 0)], [⟨1, ⟨kind, 0, 0, true, false, some res⟩, .left⟩]⟩

theorem runs_oneJob (kind : Text) (res : Except Text Json) : Runs Calm .debug init (oneJob kind res) := by
  have hstart : (1 : ℕ) + 1 < 2 ^ 64 := by decide
  refine .head ⟨.start kind, hstart, rfl⟩ ?_
  refine .head ⟨.worker 0 (.returns res), trivial, rfl⟩ ?_
  refine .head ⟨.worker 0 .store, trivial, rfl⟩ ?_
  refine .head ⟨.worker 0 .publish, trivial, rfl⟩ ?_
  exact .single ⟨.worker 0 .exit, trivial, rfl⟩

theorem status_right_oneJob : Runs Calm .debug init (oneJob [] (.ok .null)) ∧
    StatusRight (oneJob [] (.ok .null)) :=
  ⟨runs_oneJob [] (.ok .null), (status_right (runs_oneJob [] (.ok .null))).1⟩

/-- A worker that panicked has left, and its job runs for ever. -/
theorem panicked_runs : ∃ s, Runs (fun _ _ => True) .release init s ∧
    ∃ w ∈ s.workers, w.phase = .left ∧
      (status s w.id).bind (fun st => st.get "running".toList) = some (.bool true) := by
  refine ⟨⟨2, [(1, 0)], [⟨1, .new [], .left⟩]⟩, ?_, ⟨1, .new [], .left⟩, ?_, rfl, rfl⟩
  · refine .head ⟨.start [], trivial, rfl⟩ ?_
    exact .single ⟨.worker 0 .panics, trivial, rfl⟩
  · simp

end Reports

end Unearth.Job
