import Unearth.ImageSteps

/-!
# What an image holds when a run is over

Two invariants of the steps. `Filled` places the bytes: below the frontier a byte is
one that the source delivered there, unless its region is recorded as unreadable, and
then it is zero. `Balanced` counts them. The first gives the image of a source that
delivers true bytes, whatever fails and whenever the run is cancelled. The second
reduces completeness to the position at which the copy loop ends, and the loop ends
short of the range exactly when a read of a whole chunk delivers nothing.
-/

namespace Unearth.Image
open Spans Bytes Loop Relation

section Invariants

variable {start stop : ℕ} {Read : ℕ → List UInt8 → Prop} {p p' : Picture}

/-- The source delivered the byte `b` at the position `x`. -/
def Sourced (Read : ℕ → List UInt8 → Prop) (x : ℕ) (b : UInt8) : Prop :=
  ∃ off bytes, Read off bytes ∧ off ≤ x ∧ x < off + bytes.length ∧ byteAt bytes (x - off) = b

structure Filled (start : ℕ) (Read : ℕ → List UInt8 → Prop) (p : Picture) : Prop where
  held : ∀ x, start ≤ x → x < p.frontier → ¬ Covers p.bad x →
    Sourced Read x (byteAt p.out (x - start))
  hole : ∀ x, Covers p.bad x → byteAt p.out (x - start) = 0
  blank : ∀ x, p.frontier ≤ x → byteAt p.out (x - start) = 0

/-- Pasting over zeros leaves what was delivered, holes included. -/
theorem Pasted.sourced {off x : ℕ} {bytes out out' : List UInt8}
    (h : Pasted (off - start) bytes out out') (read : Read off bytes) (hstart : start ≤ off)
    (hlo : off ≤ x) (hhi : x < off + bytes.length) (hzero : byteAt out (x - start) = 0) :
    Sourced Read x (byteAt out' (x - start)) := by
  have hi : x - start - (off - start) = x - off := by omega
  refine ⟨off, bytes, read, hlo, hhi, ?_⟩
  rcases h.inside (x - start) (by omega) (by omega) with hb | ⟨hb, hsame⟩
  · rw [hb, hi]
  · rw [hi] at hb
    rw [hb, hsame, hzero]

theorem Filled.step (hp : Shape start stop p) (hf : Filled start Read p)
    (hs : Step start stop Read p p') : Filled start Read p' := by
  have hle : start ≤ p.frontier := hp.within.le
  cases hs with
  | @copy bytes out' read fits pasted =>
    have hsame (x : ℕ) (hx : start ≤ x) (hout : ¬ (p.frontier ≤ x ∧ x < p.frontier + bytes.length)) :
        byteAt out' (x - start) = byteAt p.out (x - start) := pasted.outside _ (by omega)
    refine ⟨fun x hlo hhi hc => ?_, fun x hc => ?_, fun x hx => ?_⟩
    · by_cases hx : x < p.frontier
      · simp only
        rw [hsame x hlo (by omega)]
        exact hf.held x hlo hx hc
      · exact pasted.sourced read hle (by omega) hhi (hf.blank x (by omega))
    · obtain ⟨h₁, h₂⟩ := hp.within.holds hc
      simp only
      rw [hsame x h₁ (by omega)]
      exact hf.hole x hc
    · simp only at hx ⊢
      rw [hsame x (by omega) (by omega)]
      exact hf.blank x (by omega)
  | @lose n fits =>
    have hspan (x : ℕ) : Span.Holds ⟨p.frontier, n⟩ x ↔ p.frontier ≤ x ∧ x < p.frontier + n := by
      simp only [Span.Holds, Span.stop]
    refine ⟨fun x hlo hhi hc => ?_, fun x hc => ?_, fun x hx => ?_⟩
    · simp only [covers_append, covers_cons, hspan, covers_nil, or_false, not_or] at hc
      exact hf.held x hlo (by simp only at hhi; omega) hc.1
    · simp only [covers_append, covers_cons, hspan, covers_nil, or_false] at hc
      exact hc.elim (hf.hole x) fun hx => hf.blank x hx.1
    · exact hf.blank x (by simp only at hx; omega)
  | @salvage a b pos len bytes out' bad read fits pasted =>
    have hw := hp.within
    simp only [bad, within_append, Within, Span.stop] at hw
    obtain ⟨mid, ha, hlo, hb⟩ := hw
    have hpos : start ≤ pos := ha.le.trans hlo
    have hsame (x : ℕ) (hx : start ≤ x) (hout : ¬ (pos ≤ x ∧ x < pos + bytes.length)) :
        byteAt out' (x - start) = byteAt p.out (x - start) := pasted.outside _ (by omega)
    have hspan (o l x : ℕ) : Span.Holds ⟨o, l⟩ x ↔ o ≤ x ∧ x < o + l := by
      simp only [Span.Holds, Span.stop]
    -- the regions still recorded are the old ones without the bytes that were read
    have hcov (x : ℕ) : Covers (a ++ ⟨pos + bytes.length, len - bytes.length⟩ :: b) x ↔
        Covers p.bad x ∧ ¬ (pos ≤ x ∧ x < pos + bytes.length) := by
      simp only [bad, covers_append, covers_cons, hspan]
      constructor
      · rintro (h | h | h)
        · have := ha.holds h
          exact ⟨.inl h, by omega⟩
        · exact ⟨.inr (.inl (by omega)), by omega⟩
        · have := hb.holds h
          exact ⟨.inr (.inr h), by omega⟩
      · rintro ⟨h | h | h, hx⟩
        · exact .inl h
        · exact .inr (.inl (by omega))
        · exact .inr (.inr h)
    have hread (x : ℕ) (hx : pos ≤ x ∧ x < pos + bytes.length) : Covers p.bad x := by
      simp only [bad, covers_append, covers_cons, hspan]
      exact .inr (.inl (by omega))
    refine ⟨fun x hx hhi hc => ?_, fun x hc => ?_, fun x hx => ?_⟩
    · rw [hcov] at hc
      by_cases hin : pos ≤ x ∧ x < pos + bytes.length
      · exact pasted.sourced read hpos hin.1 hin.2 (hf.hole x (hread x hin))
      · simp only
        rw [hsame x hx hin]
        exact hf.held x hx hhi fun h => hc ⟨h, hin⟩
    · rw [hcov] at hc
      simp only
      rw [hsame x (hp.within.holds hc.1).1 hc.2]
      exact hf.hole x hc.1
    · have hend : ¬ (pos ≤ x ∧ x < pos + bytes.length) := by
        intro hin
        have := (hp.within.holds (hread x hin)).2
        simp only at hx
        omega
      simp only at hx ⊢
      rw [hsame x (by omega) hend]
      exact hf.blank x hx
  | regroup covers _ _ =>
    refine ⟨fun x hlo hhi hc => ?_, fun x hc => ?_, hf.blank⟩
    · exact hf.held x hlo hhi (by rwa [← covers])
    · exact hf.hole x (by rwa [← covers])

structure Balanced (start stop : ℕ) (p : Picture) : Prop where
  moved : start + p.moved + p.zeroed = p.frontier
  zeroed : p.zeroed = total p.bad
  wanted : p.wanted = stop - start

theorem Balanced.step (hb : Balanced start stop p) (hs : Step start stop Read p p') :
    Balanced start stop p' := by
  obtain ⟨hm, hz, ht⟩ := hb
  cases hs with
  | copy read fits pasted =>
    refine ⟨?_, hz, ht⟩
    simp only
    omega
  | lose fits =>
    refine ⟨?_, ?_, ht⟩
    · simp only
      omega
    · simp only [total_append, total_cons, total_nil]
      omega
  | salvage bad read fits pasted =>
    rw [bad, total_append, total_cons] at hz
    refine ⟨?_, ?_, ht⟩
    · simp only at hz ⊢
      omega
    · simp only [total_append, total_cons] at hz ⊢
      omega
  | regroup _ total_eq _ =>
    refine ⟨hm, ?_, ht⟩
    simp only [total_eq, hz]

end Invariants

section Fresh

variable {src : BlockSource} {opts : ImageOptions} {cancelled : ℕ → Bool} {disk : Disk} {s : State}

/-- The starting variables of a run that does not resume. -/
def freshState (disk : Disk) (start stop : ℕ) : State where
  out := setLen [] (stop - start)
  bad := []
  stats := { bytesTotal := stop - start }
  abs := start
  lastFlush := start
  map := disk.map

theorem first_le_stop (src : BlockSource) (opts : ImageOptions) : opts.first src ≤ opts.stop src :=
  min_le_right _ _

theorem freshState_shape (disk : Disk) {start stop : ℕ} (h : start ≤ stop) :
    Shape start stop ((freshState disk start stop).picture start []) where
  length := length_setLen _ _
  fits := h
  within := le_rfl

theorem imageRun_fresh (fresh : loadMap opts disk (opts.first src) (opts.stop src) = .ok none) :
    imageRun src opts cancelled disk =
      .ok (copyAll src opts cancelled (freshState disk (opts.first src) (opts.stop src))) := by
  rw [imageRun, fresh]
  rfl

theorem fresh_sound (fresh : loadMap opts disk (opts.first src) (opts.stop src) = .ok none)
    (ran : imageRun src opts cancelled disk = .ok s) :
    Sound (opts.first src) (opts.stop src) src.Delivers
      ((freshState disk (opts.first src) (opts.stop src)).picture (opts.first src) [])
      (s.picture s.abs []) := by
  rw [imageRun_fresh fresh] at ran
  cases ran
  exact (copyAll_sound opts cancelled (freshState_shape disk (first_le_stop src opts))).1

theorem fresh_filled (fresh : loadMap opts disk (opts.first src) (opts.stop src) = .ok none)
    (ran : imageRun src opts cancelled disk = .ok s) :
    Filled (opts.first src) src.Delivers (s.picture s.abs []) := by
  apply (fresh_sound fresh ran).inv (freshState_shape disk (first_le_stop src opts)) _
    fun _ _ hp hf hs => hf.step hp hs
  refine ⟨fun x hlo hhi _ => ?_, fun x hc => ?_, fun x _ => ?_⟩
  · simp only [State.picture] at hhi
    omega
  · simp [State.picture, freshState] at hc
  · exact byteAt_setLen_nil _ _

theorem fresh_balanced (fresh : loadMap opts disk (opts.first src) (opts.stop src) = .ok none)
    (ran : imageRun src opts cancelled disk = .ok s) :
    Balanced (opts.first src) (opts.stop src) (s.picture s.abs []) :=
  (fresh_sound fresh ran).inv (freshState_shape disk (first_le_stop src opts)) ⟨rfl, rfl, rfl⟩
    fun _ _ _ hb hs => hb.step hs

/-- The source answers out of `data`: a read fails, or delivers between one byte and as
many as were asked for, and those are the true ones. -/
def BlockSource.Serves (src : BlockSource) (data : List UInt8) : Prop :=
  src.size = data.length ∧ ∀ k off len bytes, src.readAt k off len = .ok bytes →
    0 < bytes.length ∧ off + bytes.length ≤ data.length ∧ bytes = window data off bytes.length

theorem BlockSource.Serves.sourced {data : List UInt8} (h : src.Serves data) {x : ℕ} {b : UInt8}
    (hs : Sourced src.Delivers x b) : b = byteAt data x := by
  obtain ⟨off, bytes, ⟨k, len, hr⟩, hlo, hhi, rfl⟩ := hs
  obtain ⟨-, -, hb⟩ := h.2 k off len bytes hr
  rw [hb, byteAt_window, if_pos (by omega)]
  congr 1
  omega

/-- The image `out` of `[start, abs)` is faithful to `data` but for the regions `bad`. -/
structure FaithfulTo (data : List UInt8) (start abs : ℕ) (bad : List Span) (out : List UInt8) :
    Prop where
  ordered : bad.Pairwise fun r t => r.stop ≤ t.offset
  inside : ∀ r ∈ bad, start ≤ r.offset ∧ r.stop ≤ abs
  sized : abs ≤ data.length ∧ abs - start ≤ out.length
  copied : ∀ p, start ≤ p → p < abs → ¬ Covers bad p → byteAt out (p - start) = byteAt data p
  holes : ∀ p, start ≤ p → p < abs → Covers bad p → byteAt out (p - start) = 0

theorem image_faithful {data : List UInt8} (serves : src.Serves data)
    (fresh : loadMap opts disk (opts.first src) (opts.stop src) = .ok none)
    (ran : imageRun src opts cancelled disk = .ok s) :
    ∃ stats map, image src opts cancelled disk = .ok (stats, ⟨some s.out, map⟩) ∧
      FaithfulTo data (opts.first src) s.abs stats.badRegions s.out := by
  have hsound := (fresh_sound fresh ran).shape
  have hfill := fresh_filled fresh ran
  have hbad : (s.picture s.abs []).bad = s.bad := List.append_nil _
  have hwithin : Within (opts.first src) s.abs (mergeRegions s.bad) :=
    coalesce_within (hbad ▸ hsound.within)
  have hstop : opts.stop src ≤ src.size := min_le_right _ _
  have hfit : s.abs ≤ opts.stop src := hsound.fits
  have hlen : s.out.length = opts.stop src - opts.first src := hsound.length
  have hsize := serves.1
  refine ⟨(finish opts (opts.stop src) s).1, _, by rw [image, ran]; rfl, ?_⟩
  refine ⟨hwithin.pairwise, fun r hr => hwithin.mem hr, by omega, ?_, ?_⟩
  · intro p hlo hhi hc
    exact serves.sourced (hfill.held p hlo hhi (by rw [hbad]; simpa [finish, mergeRegions] using hc))
  · intro p _ _ hc
    exact hfill.hole p (by rw [hbad]; simpa [finish, mergeRegions] using hc)

/-- A source over `data` whose reads deliver at most `count` bytes, and fail instead of
delivering none. -/
def BlockSource.oracle (data : List UInt8) (h : data.length < 2 ^ 64) (count : ℕ → ℕ → ℕ → ℕ) :
    BlockSource where
  size := data.length
  size_lt := h
  readAt k off len :=
    let bytes := window data off (min len (count k off len))
    if bytes = [] then .err else .ok bytes
  readAt_le k off len bytes hr := by
    simp only at hr
    split_ifs at hr
    cases hr
    rw [length_window]
    omega

theorem BlockSource.oracle_serves (data : List UInt8) (h : data.length < 2 ^ 64)
    (count : ℕ → ℕ → ℕ → ℕ) : (BlockSource.oracle data h count).Serves data := by
  refine ⟨rfl, fun k off len bytes hr => ?_⟩
  simp only [oracle] at hr
  split_ifs at hr with hne
  cases hr
  have hpos := List.length_pos_iff.mpr hne
  simp only [length_window] at hpos ⊢
  refine ⟨hpos, by omega, ?_⟩
  simp only [window]
  rw [List.take_eq_take_iff, List.length_drop]
  omega

/-- The read of the whole range fails, and so does the first read of the second byte. -/
def retriedSource : BlockSource :=
  .oracle [5, 0, 7] (by decide) fun k _ _ => if k = 0 ∨ k = 2 then 0 else 1

theorem image_faithful_retried :
    ∃ stats map, image retriedSource { sectorSize := 1, retries := 1 } (fun _ => false) {} =
        .ok (stats, ⟨some [5, 0, 7], map⟩) ∧
      FaithfulTo [5, 0, 7] 0 3 stats.badRegions [5, 0, 7] :=
  image_faithful (BlockSource.oracle_serves _ _ _) rfl (s := {
    out := [5, 0, 7], bad := [], abs := 3, reads := 5, polls := 2
    stats := { bytesTotal := 3, bytesCopied := 2, bytesSparse := 1, bytesRecoveredRetry := 1,
               retryPasses := 1 } }) (by decide)

section Completeness

/-- A read of a whole chunk below the end of the range delivers nothing. -/
def AnswersEmpty (src : BlockSource) (stop : ℕ) (t : State) : Prop :=
  t.abs < stop ∧ src.readAt t.reads t.abs (min (stop - t.abs) imageChunk) = .ok []

/-- Every byte of `[start, stop)` is in the image or in a reported region, and counted so. -/
structure Complete (src : BlockSource) (start stop : ℕ) (stats : ImageStats) (disk : Disk) :
    Prop where
  counted : stats.bytesCopied + stats.bytesSparse + stats.bytesZeroed = stats.bytesTotal
  zeroed : stats.bytesZeroed = total stats.badRegions
  present : ∃ out, disk.output = some out ∧ ∀ p, start ≤ p → p < stop →
    Covers stats.badRegions p ∨ Sourced src.Delivers p (byteAt out (p - start))

theorem copyLoop_abs_of_answersEmpty {start stop : ℕ} {s t : State}
    (ht : Reaches (copyBody src opts cancelled start stop) s t) (he : AnswersEmpty src stop t) :
    ((copyLoop src opts cancelled start stop).eval s).abs = t.abs := by
  rw [While.eval_of_reaches _ ht]
  by_cases hc : cancelled t.polls
  · rw [While.eval_done (r := { t with
      polls := t.polls + 1, stats := { t.stats with cancelled := true } })]
    simp only [copyLoop, copyBody, if_pos he.1, if_pos hc]
  · rw [While.eval_done (r := { t with polls := t.polls + 1, reads := t.reads + 1 })]
    simp only [copyLoop, copyBody, if_pos he.1, if_neg hc, he.2]

/-- Left alone, the copy loop ends at the end of the range or at an empty answer. -/
theorem copyLoop_exit {start stop : ℕ} {s : State}
    (hc : ((copyLoop src opts cancelled start stop).eval s).stats.cancelled = false) :
    stop ≤ ((copyLoop src opts cancelled start stop).eval s).abs ∨
      ∃ t, Reaches (copyBody src opts cancelled start stop) s t ∧ AnswersEmpty src stop t := by
  obtain ⟨t, ht, hd⟩ := (copyLoop src opts cancelled start stop).exists_reaches_done s
  generalize (copyLoop src opts cancelled start stop).eval s = r at hc hd
  simp only [copyLoop, copyBody] at hd
  split_ifs at hd with hlt hpoll
  · cases hd
    simp at hc
  · split at hd
    · exact .inr ⟨t, ht, hlt, by assumption⟩
    · cases hd
    · cases hd
  · cases hd
    exact .inl (by omega)

/-- A run that was not cancelled is complete exactly when no chunk came back empty. -/
theorem image_complete_iff {stats : ImageStats} {disk' : Disk}
    (fresh : loadMap opts disk (opts.first src) (opts.stop src) = .ok none)
    (ran : image src opts cancelled disk = .ok (stats, disk')) (hc : stats.cancelled = false) :
    Complete src (opts.first src) (opts.stop src) stats disk' ↔
      ∀ t, Reaches (copyBody src opts cancelled (opts.first src) (opts.stop src))
        (freshState disk (opts.first src) (opts.stop src)) t → ¬ AnswersEmpty src (opts.stop src) t := by
  have hrun : imageRun src opts cancelled disk = .ok (copyAll src opts cancelled
    (freshState disk (opts.first src) (opts.stop src))) := imageRun_fresh fresh
  have hsound := (fresh_sound fresh hrun).shape
  have hbal := fresh_balanced fresh hrun
  have hfill := fresh_filled fresh hrun
  have hshape := freshState_shape disk (first_le_stop src opts)
  set s₀ := freshState disk (opts.first src) (opts.stop src)
  set main := (copyLoop src opts cancelled (opts.first src) (opts.stop src)).eval s₀ with hmain
  rw [image, hrun] at ran
  simp only [Except.map, finish, Except.ok.injEq, Prod.mk.injEq] at ran
  obtain ⟨rfl, rfl⟩ := ran
  set s := copyAll src opts cancelled s₀ with hs
  have habs : s.abs = main.abs := (copyAll_sound opts cancelled hshape).2
  have hle := first_le_stop src opts
  have hfit : s.abs ≤ opts.stop src := hsound.fits
  have hmoved : opts.first src + (s.stats.bytesCopied + s.stats.bytesSparse) + s.stats.bytesZeroed =
      s.abs := hbal.moved
  have hwanted : s.stats.bytesTotal = opts.stop src - opts.first src := hbal.wanted
  have hbad : (s.picture s.abs []).bad = s.bad := List.append_nil _
  constructor
  · rintro ⟨hcount, -, -⟩ t ht he
    have hend : main.abs = t.abs := copyLoop_abs_of_answersEmpty ht he
    have hlt := he.1
    simp only at hcount
    omega
  · intro hno
    have hmc : main.stats.cancelled = false := by
      by_contra hcm
      have : s = main := by
        rw [hs, copyAll, if_neg (fun h => h.1 (by simpa using hcm))]
      rw [this] at hc
      exact hcm hc
    have hend : opts.stop src ≤ main.abs := by
      rcases copyLoop_exit hmc with h | ⟨t, ht, he⟩
      · exact h
      · exact absurd he (hno t ht)
    refine ⟨?_, ?_, s.out, rfl, fun p hlo hhi => ?_⟩
    · simp only
      omega
    · have hz : s.stats.bytesZeroed = total (s.picture s.abs []).bad := hbal.zeroed
      rw [hbad] at hz
      simpa only [mergeRegions, coalesce_total] using hz
    · simp only [mergeRegions, coalesce_covers]
      by_cases hcov : Covers s.bad p
      · exact .inl hcov
      · exact .inr (hfill.held p hlo (by simp only [State.picture]; omega) (by rwa [hbad]))

theorem image_complete_iff_retried :
    Complete retriedSource 0 3
        { bytesTotal := 3, bytesCopied := 2, bytesSparse := 1, bytesRecoveredRetry := 1,
          retryPasses := 1 } { output := some [5, 0, 7] } ↔
      ∀ t, Reaches (copyBody retriedSource { sectorSize := 1, retries := 1 } (fun _ => false) 0 3)
        (freshState {} 0 3) t → ¬ AnswersEmpty retriedSource 3 t :=
  @image_complete_iff retriedSource { sectorSize := 1, retries := 1 } (fun _ => false) {} _ _ rfl
    (by decide) rfl

/-- A file of two bytes that was cut to one after its size was taken. -/
def cutSource : BlockSource where
  size := 2
  size_lt := by decide
  readAt _ off len := .ok (window [7] off len)
  readAt_le _ off len bytes hr := by
    cases hr
    simp

/-- The second byte of the cut file is in no account of the run. -/
theorem cutSource_incomplete :
    ∃ stats disk', image cutSource {} (fun _ => false) {} = .ok (stats, disk') ∧
      stats.cancelled = false ∧ stats.badRegions = [] ∧
      stats.bytesCopied + stats.bytesSparse + stats.bytesZeroed = 1 ∧ stats.bytesTotal = 2 ∧
      ¬ Complete cutSource 0 2 stats disk' := by
  refine ⟨{ bytesTotal := 2, bytesCopied := 1 }, { output := some [7, 0] }, by decide, rfl, rfl,
    rfl, rfl, fun h => ?_⟩
  exact absurd h.counted (by decide)

end Completeness

end Fresh

end Unearth.Image
