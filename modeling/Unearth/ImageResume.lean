import Unearth.ImageFaithful

/-!
# Interrupting and resuming an imaging run

What a run leaves on disk is a function of the image, the position and the joined
unreadable regions, and with a source whose answers depend only on place and length
the copy loop respects exactly these. A resumed run starts from a state that agrees
with the interrupted one on them, because the map is read back as it was written.
-/

namespace Unearth.Image
open Spans Bytes Loop Relation

/-- The answer to a read does not depend on the reads before it. -/
def BlockSource.Deterministic (src : BlockSource) : Prop :=
  ∀ k k' off len, src.readAt k off len = src.readAt k' off len

/-- The two states leave the same files. -/
structure State.Same (s t : State) : Prop where
  out : s.out = t.out
  abs : s.abs = t.abs
  bad : coalesce s.bad = coalesce t.bad

theorem State.Same.refl (s : State) : s.Same s := ⟨rfl, rfl, rfl⟩

theorem State.Same.symm {s t : State} (h : s.Same t) : t.Same s :=
  ⟨h.out.symm, h.abs.symm, h.bad.symm⟩

theorem State.Same.trans {s t u : State} (h : s.Same t) (h' : t.Same u) : s.Same u :=
  ⟨h.out.trans h'.out, h.abs.trans h'.abs, h.bad.trans h'.bad⟩

theorem writeBlocks_keeps (off : ℕ) (blocks : List (List UInt8)) (s : State) :
    (writeBlocks off blocks s).bad = s.bad ∧ (writeBlocks off blocks s).abs = s.abs := by
  induction blocks generalizing off s with
  | nil => exact ⟨rfl, rfl⟩
  | cons block blocks ih =>
    simp only [writeBlocks]
    split_ifs
    · exact ih _ _
    · exact ih _ _

theorem writeBlocks_out {s t : State} (h : s.out = t.out) (off : ℕ) (blocks : List (List UInt8)) :
    (writeBlocks off blocks s).out = (writeBlocks off blocks t).out := by
  induction blocks generalizing off s t with
  | nil => exact h
  | cons block blocks ih =>
    simp only [writeBlocks]
    split_ifs
    · apply ih
      exact h
    · apply ih
      exact congrArg (writeAt · off block) h

theorem State.Same.writeRegion {s t : State} (h : s.Same t) (sparse : Bool) (off : ℕ)
    (data : List UInt8) :
    (writeRegion sparse off data s).Same (writeRegion sparse off data t) := by
  simp only [Image.writeRegion]
  split_ifs
  · have hs := writeBlocks_keeps off (chunks sparseBlock data) s
    have ht := writeBlocks_keeps off (chunks sparseBlock data) t
    exact ⟨writeBlocks_out h.out _ _, by rw [hs.2, ht.2, h.abs], by rw [hs.1, ht.1, h.bad]⟩
  · exact ⟨congrArg (writeAt · off data) h.out, h.abs, h.bad⟩

theorem State.Same.lost {s t : State} (h : s.Same t) (pos len : ℕ) :
    (s.lost pos len).Same (t.lost pos len) where
  out := h.out
  abs := h.abs
  bad := by
    simp only [State.lost]
    rw [← coalesce_coalesce_append, h.bad, coalesce_coalesce_append]

theorem State.Same.at {s t : State} (h : s.Same t) (pos : ℕ) :
    ({ s with abs := pos } : State).Same { t with abs := pos } :=
  ⟨h.out, rfl, h.bad⟩

section Resume

variable {src : BlockSource} {opts : ImageOptions} {start stop : ℕ}

theorem flushMap_same (s : State) : (flushMap opts stop s).Same s := by
  unfold flushMap
  split_ifs <;> exact ⟨rfl, rfl, rfl⟩

theorem State.Same.flushMap {s t : State} (h : s.Same t) :
    (flushMap opts stop s).Same (flushMap opts stop t) :=
  (flushMap_same s).trans (h.trans (flushMap_same t).symm)

theorem sectorLoop_same (det : src.Deterministic) {blockEnd pos : ℕ} {s t : State}
    (h : s.Same t) :
    ((sectorLoop src opts start blockEnd).eval (pos, s)).Same
      ((sectorLoop src opts start blockEnd).eval (pos, t)) := by
  refine While.eval_rel (R := fun p q : ℕ × State => p.1 = q.1 ∧ p.2.Same q.2) ?_ ⟨rfl, h⟩
  rintro ⟨pos, s⟩ ⟨pos', t⟩ ⟨hpos, h⟩
  simp only at hpos h
  subst hpos
  simp only [sectorLoop, sectorBody]
  split_ifs with hlt
  · have h' : ({ s with reads := s.reads + 1 } : State).Same { t with reads := t.reads + 1 } :=
      ⟨h.out, h.abs, h.bad⟩
    rw [det t.reads s.reads]
    cases src.readAt s.reads pos (min opts.sector (blockEnd - pos)) with
    | err => exact .next ⟨rfl, h'.lost _ _⟩
    | ok bytes =>
      simp only
      split_ifs
      · exact .next ⟨rfl, h'.writeRegion _ _ _⟩
      · exact .next ⟨rfl, h'.lost _ _⟩
  · exact .done h

def never : ℕ → Bool := fun _ => false

theorem copyLoop_same (det : src.Deterministic) {s t : State} (h : s.Same t) :
    ((copyLoop src opts never start stop).eval s).Same
      ((copyLoop src opts never start stop).eval t) := by
  refine While.eval_rel (R := State.Same) ?_ h
  intro s t h
  simp only [copyLoop, copyBody, never, Bool.false_eq_true, if_false, h.abs]
  split_ifs with hlt
  · have h' : ({ s with abs := t.abs, polls := s.polls + 1, reads := s.reads + 1 } : State).Same
        { t with polls := t.polls + 1, reads := t.reads + 1 } := ⟨h.out, rfl, h.bad⟩
    rw [det s.reads t.reads]
    cases src.readAt t.reads t.abs (min (stop - t.abs) imageChunk) with
    | err =>
      apply Ctl.Rel.next
      apply State.Same.flushMap
      exact (sectorLoop_same det h').at _
    | ok bytes =>
      cases bytes with
      | nil => exact .done h'
      | cons b bytes =>
        apply Ctl.Rel.next
        apply State.Same.flushMap
        exact (h'.writeRegion _ _ _).at _
  · exact .done h

theorem copyBody_go {cancelled : ℕ → Bool} {s t : State}
    (h : copyBody src opts cancelled start stop s = .next t) :
    copyBody src opts never start stop s = .next t := by
  simp only [copyBody, never, Bool.false_eq_true, if_false] at h ⊢
  split_ifs at h ⊢ with hlt hc
  exact h

theorem copyBody_stop {cancelled : ℕ → Bool} {s t : State}
    (h : copyBody src opts cancelled start stop s = .done t) : t.Same s := by
  simp only [copyBody] at h
  split_ifs at h with hlt hc
  · cases h
    exact ⟨rfl, rfl, rfl⟩
  · split at h
    · cases h
      exact ⟨rfl, rfl, rfl⟩
    · cases h
    · cases h
  · cases h
    exact .refl s

theorem copyBody_completed {cancelled : ℕ → Bool} {s t : State}
    (h : copyBody src opts cancelled start stop s = .done t) (ht : t.stats.cancelled = false) :
    copyBody src opts never start stop s = .done t := by
  simp only [copyBody, never, Bool.false_eq_true, if_false] at h ⊢
  split_ifs at h ⊢ with hlt hc
  · cases h
    simp at ht
  · exact h
  · exact h

theorem copyLoop_resumed (det : src.Deterministic) (cancelled : ℕ → Bool) (s : State) :
    ((copyLoop src opts never start stop).eval
      ((copyLoop src opts cancelled start stop).eval s)).Same
        ((copyLoop src opts never start stop).eval s) :=
  While.eval_resumed (fun _ _ h => copyLoop_same det h) (fun _ _ h => copyBody_go h)
    (fun _ _ h => copyBody_stop h) s

theorem copyLoop_completed {cancelled : ℕ → Bool} {s : State}
    (h : ((copyLoop src opts cancelled start stop).eval s).stats.cancelled = false) :
    (copyLoop src opts never start stop).eval s =
      (copyLoop src opts cancelled start stop).eval s :=
  While.eval_eq_of_completed (P := fun r : State => r.stats.cancelled = false)
    (fun _ _ hb => copyBody_go hb) (fun _ _ hb hr => copyBody_completed hb hr) h

theorem finish_same {s t : State} (h : s.Same t) (hmap : opts.map = true) :
    (finish opts stop s).2 = (finish opts stop t).2 := by
  simp only [finish, mergeRegions, hmap, if_true, h.out, h.abs, h.bad]

/-- The map that a run leaves is accepted by the run that resumes it. -/
theorem loadMap_finish {s : State} (hmap : opts.map = true) (hstop : stop < 2 ^ 64)
    (h : Shape start stop (s.picture s.abs [])) :
    loadMap { opts with resume := true } (finish opts stop s).2 start stop =
      .ok (some ⟨some stop, s.abs, mergeRegions s.bad⟩) := by
  have hfit : s.abs ≤ stop := h.fits
  have hlen : s.out.length = stop - start := h.length
  have hw : Within start s.abs (mergeRegions s.bad) := by
    apply coalesce_within
    simpa only [State.picture, List.append_nil] using h.within
  have hparse : parseMap (writeMap stop s.abs (mergeRegions s.bad)) =
      ⟨some stop, s.abs, mergeRegions s.bad⟩ := by
    apply parseMap_writeMap hstop (by omega)
    intro r hr
    have hm := (hw.mem hr).2
    simp only [Span.stop] at hm
    omega
  have hvalid : validateMap ⟨some stop, s.abs, mergeRegions s.bad⟩ start stop opts.output
      s.out.length = .ok true :=
    validateMap_ok _ hstop ⟨hw.le, hfit⟩ (hw.mono le_rfl hfit) (by omega)
  simp only [loadMap, finish, hmap, and_self, if_true, hparse, Option.elim_some, hvalid]

/-- The state of a run that resumes agrees with the state that was left. -/
theorem startState_finish (opts : ImageOptions) {s : State} (h : Shape start stop (s.picture s.abs [])) :
    ∃ t, startState (finish opts stop s).2 start stop
        (some ⟨some stop, s.abs, mergeRegions s.bad⟩) = .ok t ∧
      t.Same s ∧ Shape start stop (t.picture t.abs []) := by
  have hlen : s.out.length = stop - start := h.length
  refine ⟨_, rfl, ⟨setLen_of_length hlen, rfl, ?_⟩, length_setLen _ _, h.fits, ?_⟩
  · simpa [mergeRegions] using coalesce_coalesce_append s.bad []
  · have hw := h.within
    simp only [State.picture, List.append_nil] at hw ⊢
    exact coalesce_within hw

end Resume

section Runs

variable {src : BlockSource} {opts : ImageOptions} {disk : Disk}

/-- The runs that resume a copy, one for each way of being cancelled. -/
def resumeAll (src : BlockSource) (opts : ImageOptions) : List (ℕ → Bool) → Disk →
    Except ImageError Disk
  | [], disk => .ok disk
  | cancelled :: later, disk => do
    let run ← image src { opts with resume := true } cancelled disk
    resumeAll src opts later run.2

/-- `disk` holds what a run left from which an uninterrupted one gets to `goal`. -/
def Left (src : BlockSource) (opts : ImageOptions) (goal : State) (disk : Disk) : Prop :=
  ∃ s, disk = (finish opts (opts.stop src) s).2 ∧
    Shape (opts.first src) (opts.stop src) (s.picture s.abs []) ∧
    ((copyLoop src opts never (opts.first src) (opts.stop src)).eval s).Same goal

theorem stop_lt (src : BlockSource) (opts : ImageOptions) : opts.stop src < 2 ^ 64 :=
  lt_of_le_of_lt (min_le_right _ _) src.size_lt

theorem copyAll_of_retries (cancelled : ℕ → Bool) (s : State) (hret : opts.retries = 0) :
    copyAll src opts cancelled s =
      (copyLoop src opts cancelled (opts.first src) (opts.stop src)).eval s := by
  simp only [copyAll, hret, lt_irrefl, false_and, and_false, if_false]

theorem left_copyLoop (det : src.Deterministic) {s goal : State} (cancelled : ℕ → Bool)
    (hs : Shape (opts.first src) (opts.stop src) (s.picture s.abs []))
    (hgoal : ((copyLoop src opts never (opts.first src) (opts.stop src)).eval s).Same goal) :
    Left src opts goal (finish opts (opts.stop src)
      ((copyLoop src opts cancelled (opts.first src) (opts.stop src)).eval s)).2 := by
  have hstart : Sound (opts.first src) (opts.stop src) src.Delivers (s.picture s.abs [])
    (s.picture s.abs []) := ⟨.refl, hs⟩
  exact ⟨_, rfl, (copyLoop_sound opts cancelled hstart).shape,
    (copyLoop_resumed det cancelled s).trans hgoal⟩

/-- One resumed run: it is accepted, it leaves the goal within reach, and it leaves the
goal itself unless it is cancelled. -/
theorem Left.resume (det : src.Deterministic) (hmap : opts.map = true) (hret : opts.retries = 0)
    {goal : State} (h : Left src opts goal disk) (cancelled : ℕ → Bool) :
    (∃ saved, loadMap { opts with resume := true } disk (opts.first src) (opts.stop src) =
      .ok (some saved)) ∧
    ∃ stats disk', image src { opts with resume := true } cancelled disk = .ok (stats, disk') ∧
      Left src opts goal disk' ∧
      (stats.cancelled = false → disk' = (finish opts (opts.stop src) goal).2) := by
  obtain ⟨s, rfl, hs, hgoal⟩ := h
  obtain ⟨t, ht, hsame, hshape⟩ := startState_finish opts hs
  have hload := loadMap_finish hmap (stop_lt src opts) hs
  refine ⟨⟨_, hload⟩, ?_⟩
  have hrun : image src { opts with resume := true } cancelled (finish opts (opts.stop src) s).2 =
      .ok (finish opts (opts.stop src)
        ((copyLoop src opts cancelled (opts.first src) (opts.stop src)).eval t)) := by
    have hfirst : ImageOptions.first src { opts with resume := true } = opts.first src := rfl
    have hstop : ImageOptions.stop src { opts with resume := true } = opts.stop src := rfl
    simp only [image, imageRun, hfirst, hstop, hload]
    simp only [bind, Except.bind, ht]
    rw [copyAll_of_retries _ _ _]
    · rfl
    · exact hret
  refine ⟨_, _, hrun, left_copyLoop det cancelled hshape
    ((copyLoop_same det hsame).trans hgoal), fun hc => ?_⟩
  have hend := copyLoop_completed hc
  rw [← hend]
  exact finish_same ((copyLoop_same det hsame).trans hgoal) hmap

/-- However often a copy is cancelled, each run that resumes it is accepted, and a last
one that is not cancelled leaves the files of a single uninterrupted run. -/
theorem resume_invisible (det : src.Deterministic) (hmap : opts.map = true)
    (hret : opts.retries = 0)
    (fresh : loadMap opts disk (opts.first src) (opts.stop src) = .ok none)
    (cancelled : ℕ → Bool) (later : List (ℕ → Bool)) :
    ∃ left, (image src opts cancelled disk >>= fun run => resumeAll src opts later run.2) =
        .ok left ∧
      (∃ saved, loadMap { opts with resume := true } left (opts.first src) (opts.stop src) =
        .ok (some saved)) ∧
      ∀ last, ∃ stats disk', image src { opts with resume := true } last left = .ok (stats, disk') ∧
        (stats.cancelled = false → ∃ whole, image src opts never disk = .ok (whole, disk')) := by
  set s₀ := freshState disk (opts.first src) (opts.stop src)
  set goal := (copyLoop src opts never (opts.first src) (opts.stop src)).eval s₀
  have hrun (c : ℕ → Bool) : image src opts c disk = .ok (finish opts (opts.stop src)
      ((copyLoop src opts c (opts.first src) (opts.stop src)).eval s₀)) := by
    rw [image, imageRun_fresh fresh, copyAll_of_retries _ _ hret]
    rfl
  have hshape : Shape (opts.first src) (opts.stop src) (s₀.picture s₀.abs []) :=
    freshState_shape disk (first_le_stop src opts)
  have hfirst : Left src opts goal (finish opts (opts.stop src)
      ((copyLoop src opts cancelled (opts.first src) (opts.stop src)).eval s₀)).2 :=
    left_copyLoop det cancelled hshape (.refl goal)
  -- by induction on the interruptions: each leaves a disk from which the goal is in reach
  have hall (cs : List (ℕ → Bool)) (d : Disk) (hd : Left src opts goal d) :
      ∃ left, resumeAll src opts cs d = .ok left ∧ Left src opts goal left := by
    induction cs generalizing d with
    | nil => exact ⟨d, rfl, hd⟩
    | cons c cs ih =>
      obtain ⟨-, stats, d', himage, hd', -⟩ := hd.resume det hmap hret c
      obtain ⟨left, hleft, hl⟩ := ih d' hd'
      refine ⟨left, ?_, hl⟩
      simp only [resumeAll, himage, bind, Except.bind]
      exact hleft
  obtain ⟨left, hleft, hl⟩ := hall later _ hfirst
  refine ⟨left, ?_, (hl.resume det hmap hret never).1, fun last => ?_⟩
  · rw [hrun cancelled]
    exact hleft
  · obtain ⟨-, stats, disk', himage, -, hend⟩ := hl.resume det hmap hret last
    refine ⟨stats, disk', himage, fun hc => ?_⟩
    rw [hend hc, hrun never]
    exact ⟨_, rfl⟩

/-- The second byte is never read, and the reads of the others are short. -/
def scratchedSource : BlockSource :=
  .oracle [5, 9, 7] (by decide) fun _ off _ => if off = 1 then 0 else 1

theorem resume_invisible_scratched :
    ∃ left, (image scratchedSource { sectorSize := 1, map := true } (· == 1) {} >>= fun run =>
        resumeAll scratchedSource { sectorSize := 1, map := true } [(· == 0)] run.2) = .ok left ∧
      (∃ saved, loadMap { sectorSize := 1, map := true, resume := true } left 0 3 =
        .ok (some saved)) ∧
      ∀ last, ∃ stats disk', image scratchedSource
          { sectorSize := 1, map := true, resume := true } last left = .ok (stats, disk') ∧
        (stats.cancelled = false → ∃ whole,
          image scratchedSource { sectorSize := 1, map := true } never {} = .ok (whole, disk')) :=
  resume_invisible (fun _ _ _ _ => rfl) rfl rfl rfl _ _

end Runs

end Unearth.Image
