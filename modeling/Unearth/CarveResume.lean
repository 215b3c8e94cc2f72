import Unearth.CarveLimit
import Unearth.ScanPair

/-!
# Cancelling and resuming a carve

What a carve writes depends on where it is, on the boundary, on the number of files so far
and, when copies are left out, on the set of their digests. All of this comes back from a
checkpoint, so that a carve that is cancelled and resumed, as often as one likes, writes
what an uninterrupted one writes.
-/

namespace Unearth
open Bytes Word Loop

/-- Variables that a carve goes on from in the same way. -/
structure Alike (dedup : Bool) (c d : Carving) : Prop where
  skipUntil : c.skipUntil = d.skipUntil
  folder : c.folder = d.folder
  log : c.log = d.log
  files : c.stats.filesRecovered = d.stats.filesRecovered
  bytes : c.stats.bytesRecovered = d.stats.bytesRecovered
  seen : dedup = true → ∀ h, h ∈ c.seen ↔ h ∈ d.seen

section Candidate

variable {b : Build} {fmt : Formats} {src : Source} {opts : CarveOptions} {scanEnd : ℕ} {c d : Carving}

theorem bytesRecovered_countConfidence (s : CarveStats) (conf : Confidence) :
    (s.countConfidence conf).bytesRecovered = s.bytesRecovered := by
  cases conf <;> rfl

theorem skipPast_alike (h : Alike opts.dedup c d) (sig : Signature) (fileStart len : ℕ) :
    ExecRel (Alike opts.dedup) (skipPast b opts sig fileStart len c)
      (skipPast b opts sig fileStart len d) := by
  unfold skipPast
  split_ifs
  · apply ExecRel.bind_same
    intro skipUntil
    exact .ok ⟨rfl, h.folder, h.log, h.files, h.bytes, h.seen⟩
  · exact .ok h

theorem writeFile_alike (h : Alike opts.dedup c d) (sig : Signature) (fileStart len : ℕ)
    (confidence : Confidence) :
    ExecRel (fun x y => Alike opts.dedup x.1 y.1 ∧ x.2 = y.2)
      (writeFile b fmt src opts sig fileStart len confidence c)
      (writeFile b fmt src opts sig fileStart len confidence d) := by
  unfold writeFile
  rw [h.folder, h.files, h.bytes]
  apply ExecRel.bind_same
  intro ext
  apply ExecRel.bind_same
  rintro ⟨path, folder⟩
  apply ExecRel.bind_same
  rintro ⟨remaining, content⟩
  dsimp only
  have hseen : (opts.dedup = true ∧ fmt.sha256 content ∈ c.seen) ↔
      (opts.dedup = true ∧ fmt.sha256 content ∈ d.seen) :=
    and_congr_right fun hd => h.seen hd _
  by_cases hdup : opts.dedup = true ∧ fmt.sha256 content ∈ c.seen
  · rw [if_pos hdup, if_pos (hseen.mp hdup)]
    exact .ok ⟨⟨h.skipUntil, rfl, h.log, h.files, h.bytes, h.seen⟩, rfl⟩
  · rw [if_neg hdup, if_neg fun hd => hdup (hseen.mpr hd)]
    apply ExecRel.bind_same
    intro bytes
    refine .ok ⟨⟨h.skipUntil, rfl, h.log, ?_, ?_, fun hd x => ?_⟩, rfl⟩
    · simp only [CarveStats.record, filesRecovered_countConfidence]
    · simp only [CarveStats.record, bytesRecovered_countConfidence]
    · simp only [hd, if_true, mem_insertDigest, h.seen hd x]

/-- A match changes variables that are alike in the same way. -/
theorem candidate_alike (h : Alike opts.dedup c d) (sig : Signature) (q : ℕ) :
    ExecRel (fun x y => Alike opts.dedup x.1 y.1 ∧ x.2 = y.2)
      (candidate b fmt src opts scanEnd sig q c) (candidate b fmt src opts scanEnd sig q d) := by
  have heligible : eligible opts sig q c.skipUntil = eligible opts sig q d.skipUntil := by
    rw [h.skipUntil]
  unfold candidate
  rw [heligible]
  cases eligible opts sig q d.skipUntil with
  | none => exact .ok ⟨h, rfl⟩
  | some fileStart =>
    apply ExecRel.bind_same
    rintro (_ | len)
    · exact .ok ⟨h, rfl⟩
    · dsimp only
      split_ifs
      · exact .ok ⟨h, rfl⟩
      · have hcount : Alike opts.dedup
            { c with stats := { c.stats with skippedLarge := tick c.stats.skippedLarge } }
            { d with stats := { d.stats with skippedLarge := tick d.stats.skippedLarge } } :=
          ⟨h.skipUntil, h.folder, h.log, h.files, h.bytes, h.seen⟩
        apply (skipPast_alike hcount sig fileStart len).bind
        intro c' d' h'
        exact .ok ⟨⟨h'.skipUntil, h'.folder, by rw [h'.log], h'.files, h'.bytes, h'.seen⟩, rfl⟩
      · apply ExecRel.bind_same
        intro validity
        split_ifs
        · exact .ok ⟨⟨h.skipUntil, h.folder, by rw [h.log], h.files, h.bytes, h.seen⟩, rfl⟩
        · apply (writeFile_alike h sig fileStart len _).bind
          rintro ⟨c₁, outcome⟩ ⟨d₁, outcome'⟩ ⟨h₁, rfl⟩
          apply (skipPast_alike h₁ sig fileStart len).bind
          intro c₂ d₂ h₂
          refine .ok ⟨⟨h₂.skipUntil, h₂.folder, by rw [h₂.log], h₂.files, h₂.bytes, h₂.seen⟩, ?_⟩
          rw [h₂.files]

theorem visit_alike (h : Alike opts.dedup c d) (sig : Signature) (q : ℕ) :
    Ctl.Rel (Alike opts.dedup) (ExecRel (Alike opts.dedup)) (visit b fmt src opts scanEnd q sig c)
      (visit b fmt src opts scanEnd q sig d) := by
  have hc := @candidate_alike b fmt src opts scanEnd c d h sig q
  unfold visit
  generalize candidate b fmt src opts scanEnd sig q c = x at hc ⊢
  generalize candidate b fmt src opts scanEnd sig q d = y at hc ⊢
  cases hc with
  | error f => exact .done (.error f)
  | @ok x y hxy =>
    obtain ⟨c', full⟩ := x
    obtain ⟨d', full'⟩ := y
    obtain ⟨h', rfl⟩ := hxy
    cases full with
    | false => exact .next h'
    | true => exact .done (.ok h')

end Candidate

section Chunk

variable {b : Build} {fmt : Formats} {src : Source} {opts : CarveOptions} {sc : Scanner}

theorem scanChunk_alike {scanEnd abs : ℕ} {c d : Carving} (h : Alike opts.dedup c d) :
    ScannedPair (fun _ => Alike opts.dedup) (Alike opts.dedup)
      (scanChunk b src sc scanEnd (visit b fmt src opts scanEnd) abs c)
      (scanChunk b src sc scanEnd (visit b fmt src opts scanEnd) abs d) :=
  scanChunk_pair (fun _ _ _ _ _ h => h) (fun q sig _ _ _ _ h => visit_alike h sig q) h

/-- A chunk that was read is advanced by, when the buffer holds more than the overlap. -/
theorem scanChunk_lt {scanEnd abs abs' : ℕ} {c c' : Carving} {v : Visit Carving Carving}
    (hsc : sc.overlap < sc.bufLen) (h : scanChunk b src sc scanEnd v abs c = .advance abs' c') :
    abs < abs' := by
  unfold scanChunk at h
  split at h
  · cases h
  · cases h
  · rename_i buf limit hne hread
    split at h
    · cases h
      obtain ⟨bytes, hb, hread⟩ := exec_bind_ok hread
      have hpos : bytes.length ≠ 0 := by
        intro hzero
        obtain rfl := List.eq_nil_of_length_eq_zero hzero
        cases hread
        exact hne rfl
      cases hread
      split_ifs <;> omega
    · cases h

end Chunk

section Runs

variable {b : Build} {fmt : Formats} {src : Source} {opts : CarveOptions} {sc : Scanner}
  {cancelled : ℕ → Bool}

def never : ℕ → Bool := fun _ => false

/-- States that a run goes on from in the same way. -/
structure SameState (dedup : Bool) (s t : CarveState) : Prop where
  abs : s.abs = t.abs
  carving : Alike dedup s.carving t.carving

theorem SameState.refl (dedup : Bool) (s : CarveState) : SameState dedup s s :=
  ⟨rfl, rfl, rfl, rfl, rfl, rfl, fun _ _ => .rfl⟩

theorem SameState.symm {dedup : Bool} {s t : CarveState} (h : SameState dedup s t) :
    SameState dedup t s := by
  obtain ⟨ha, h⟩ := h
  exact ⟨ha.symm, h.skipUntil.symm, h.folder.symm, h.log.symm, h.files.symm, h.bytes.symm,
    fun hd x => (h.seen hd x).symm⟩

theorem SameState.trans {dedup : Bool} {s t u : CarveState} (h : SameState dedup s t)
    (h' : SameState dedup t u) : SameState dedup s u := by
  obtain ⟨ha, h⟩ := h
  obtain ⟨ha', h'⟩ := h'
  exact ⟨ha.trans ha', h.skipUntil.trans h'.skipUntil, h.folder.trans h'.folder, h.log.trans h'.log,
    h.files.trans h'.files, h.bytes.trans h'.bytes, fun hd x => (h.seen hd x).trans (h'.seen hd x)⟩

theorem SameState.save {dedup : Bool} {s t : CarveState} (h : SameState dedup s t) :
    SameState dedup (s.save src opts) (t.save src opts) := by
  refine ⟨?_, ?_⟩
  · rw [save_abs, save_abs]
    exact h.abs
  · rw [save_carving, save_carving]
    exact h.carving

theorem carveBody_same {s t : CarveState} (h : SameState opts.dedup s t) :
    Ctl.Rel (SameState opts.dedup) (ExecRel (SameState opts.dedup))
      (carveBody b fmt src opts never sc s) (carveBody b fmt src opts never sc t) := by
  have hscan := @scanChunk_alike b fmt src opts sc (opts.stop src) s.abs _ _ h.carving
  unfold carveBody
  rw [← h.abs]
  simp only [never, Bool.false_eq_true, if_false]
  split_ifs
  · generalize scanChunk b src sc (opts.stop src) (visit b fmt src opts (opts.stop src)) s.abs
      s.carving = x at hscan ⊢
    generalize scanChunk b src sc (opts.stop src) (visit b fmt src opts (opts.stop src)) s.abs
      t.carving = y at hscan ⊢
    cases hscan with
    | advance abs h' =>
      refine .next ⟨by rw [advance_abs, advance_abs], ?_⟩
      rw [advance_carving, advance_carving]
      exact ⟨h'.skipUntil, h'.folder, h'.log, h'.files, h'.bytes, h'.seen⟩
    | empty => exact .done (.ok h.save)
    | exit h' =>
      cases h' with
      | error f => exact .done (.error f)
      | ok h' => exact .done (.ok (SameState.save ⟨rfl, h'⟩))
  · exact .done (.ok h.save)

/-- A step of a run that can be cancelled is a step of the one that cannot. -/
theorem carveBody_never {s s' : CarveState}
    (h : carveBody b fmt src opts cancelled sc s = .next s') :
    carveBody b fmt src opts never sc s = .next s' := by
  obtain ⟨habs, -, abs, c, hscan, rfl⟩ := carveBody_next h
  unfold carveBody
  simp only [never, if_pos habs, Bool.false_eq_true, if_false, hscan]

theorem carveBody_error {s : CarveState} {f : Fault}
    (h : carveBody b fmt src opts cancelled sc s = .done (.error f)) :
    carveBody b fmt src opts never sc s = .done (.error f) := by
  unfold carveBody at h
  split_ifs at h with habs hc
  · cases h
  · unfold carveBody
    simp only [never, if_pos habs, Bool.false_eq_true, if_false]
    exact h
  · cases h

theorem reaches_never {s s' : CarveState}
    (h : Reaches (carveBody b fmt src opts cancelled sc) s s') :
    Reaches (carveBody b fmt src opts never sc) s s' := by
  induction h with
  | refl => exact .refl
  | tail _ hb ih => exact ih.tail (carveBody_never hb)

/-- A run that is always advanced by its chunks comes to an end. -/
theorem exists_run (hsc : sc.overlap < sc.bufLen) (s : CarveState) :
    ∃ n r, run (carveBody b fmt src opts cancelled sc) n s = some r := by
  let w : While CarveState (Exec CarveState) := {
    body := carveBody b fmt src opts cancelled sc
    measure := fun s => opts.stop src - s.abs
    decreases := by
      intro s s' h
      obtain ⟨habs, -, abs, c, hscan, rfl⟩ := carveBody_next h
      have hlt := scanChunk_lt hsc hscan
      rw [advance_abs]
      omega }
  exact ⟨_, _, w.run_eval s⟩

end Runs

section Interruptions

variable (b : Build) (fmt : Formats) (src : Source) (active : List Signature) (opts : CarveOptions)
  (seed : List Digest)

def Attempt.Yields (a : Attempt) (disk : CarveDisk) (r : Exec CarveState) : Prop :=
  ∃ fuel, carve b fmt src a.active a.opts a.cancelled a.seed disk fuel = some r

/-- A run with the given types, options and seed, that resumes or does not. -/
def attempt (resume : Bool) (cancelled : ℕ → Bool) : Attempt :=
  ⟨active, { opts with resume }, cancelled, seed⟩

/-- What comes out of a row of runs that may be cancelled, each followed by one that resumes,
until one is not cancelled or fails. -/
inductive Interrupted : Bool → CarveDisk → Exec CarveState → Prop
  | last {resume : Bool} {disk : CarveDisk} {r : Exec CarveState}
      (h : (attempt active opts seed resume never).Yields b fmt src disk r) :
      Interrupted resume disk r
  | failed {resume : Bool} {disk : CarveDisk} {f : Fault} (cancelled : ℕ → Bool)
      (h : (attempt active opts seed resume cancelled).Yields b fmt src disk (.error f)) :
      Interrupted resume disk (.error f)
  | resumed {resume : Bool} {disk : CarveDisk} {t : CarveState} {r : Exec CarveState}
      (cancelled : ℕ → Bool)
      (h : (attempt active opts seed resume cancelled).Ends b fmt src disk t)
      (rest : Interrupted true t.disk r) : Interrupted resume disk r

variable {b fmt src active opts seed} {resume : Bool} {cancelled : ℕ → Bool} {disk : CarveDisk}

/-- A start from which a checkpoint can be kept. -/
structure Ready (seed : List Digest) (s : CarveState) (first : ℕ) : Prop where
  printable : s.carving.Printable
  seeded : ∀ h ∈ seed, h ∈ s.carving.seen
  first_le : first ≤ s.abs

theorem Ready.kept {a : Attempt} (h : Ready a.seed (a.start src disk) (a.opts.first src)) :
    a.Kept b fmt src disk
      (fun p c => c.Printable ∧ (∀ x ∈ a.seed, x ∈ c.seen) ∧ a.opts.first src ≤ p)
      fun p c => c.Printable ∧ (∀ x ∈ a.seed, x ∈ c.seen) ∧ a.opts.first src ≤ p := by
  have hstep : ∀ s q sig c c' full, a.Visits b fmt src disk s q sig c →
      (c.Printable ∧ (∀ x ∈ a.seed, x ∈ c.seen) ∧ a.opts.first src ≤ q) →
      a.judge b fmt src sig q c = .ok (c', full) →
      c'.Printable ∧ (∀ x ∈ a.seed, x ∈ c'.seen) ∧ a.opts.first src ≤ q + 1 := by
    intro s q sig c c' full hv ⟨hc, hs, hf⟩ hj
    refine ⟨hc.judge hv.lt hj, fun x hx => ?_, by omega⟩
    rcases candidate_cases hv.lt hj with ⟨rfl, -⟩ | ⟨_, _, _, _, _, _, _, -, -, -, -, -, hseen, rfl⟩
    · exact hs x hx
    · exact hseen (hs x hx)
  exact {
    mono := fun p q c hle h => ⟨h.1, h.2.1, h.2.2.trans hle⟩
    scanned := fun p c n h => ⟨⟨h.1.stats.scanned n, h.1.skipUntil_lt⟩, h.2⟩
    next := fun s q sig c c' hv h hj => hstep s q sig c c' false hv h hj
    full := fun s q sig c c' hv h hj => hstep s q sig c c' true hv h hj
    weaken := fun _ _ h => h
    start := ⟨h.printable, h.seeded, h.first_le⟩ }

/-- Without a limit, a run ends at the head of a chunk. -/
theorem Ends.at_head {a : Attempt} {t : CarveState} (hmax : a.opts.maxFiles = none)
    (h : a.Ends b fmt src disk t) :
    ∃ s, a.Reach b fmt src disk s ∧ t = s.save src a.opts := by
  obtain ⟨s, hs, ht | ⟨q, sig, c, c', hv, hj, -⟩⟩ := h.cases
  · exact ⟨s, hs, ht⟩
  · exfalso
    rcases candidate_cases hv.lt hj with ⟨-, hfull⟩ | ⟨_, _, _, stats, _, _, _, -, -, -, -, hfull, -, -⟩
    · cases hfull
    · have hany := (hfull.mp rfl).2
      rw [hmax] at hany
      cases hany

/-- A run that resumes starts where the one before was left. -/
theorem restart {s : CarveState} (hkeep : opts.checkpoint = true) (hstop : s.abs ≤ opts.stop src)
    (hs : s.carving.Printable ∧ (∀ x ∈ seed, x ∈ s.carving.seen) ∧ opts.first src ≤ s.abs)
    (cancelled : ℕ → Bool) :
    SameState opts.dedup
      ((attempt active opts seed true cancelled).start src (s.save src opts).disk) s ∧
      Ready seed ((attempt active opts seed true cancelled).start src (s.save src opts).disk)
        (opts.first src) := by
  obtain ⟨hprint, hseed, hfirst⟩ := hs
  obtain ⟨seen, hread, hseen⟩ := readCheckpoint_writeCheckpoint (opts.stop src) s.carving.seen
    opts.dedup (hstop.trans_lt (stop_lt opts)) hprint.skipUntil_lt hprint.stats
  have hresume : resumeFrom (attempt active opts seed true cancelled).opts (s.save src opts).disk =
      some ⟨s.abs, s.carving.skipUntil, seen, s.carving.stats.restored⟩ := by
    have hcp := @save_checkpoint src opts hkeep s
    unfold resumeFrom CarveState.disk
    rw [if_pos ⟨rfl, hkeep⟩, hcp, Option.map_some, hread]
  have hstart : (attempt active opts seed true cancelled).start src (s.save src opts).disk =
      ⟨s.abs, s.abs, 0, (s.save src opts).checkpoint, ⟨s.carving.stats.restored, s.carving.skipUntil,
        seen.foldl (fun acc h => insertDigest h acc) seed, s.carving.folder, s.carving.log⟩⟩ := by
    have habs : max (opts.first src) (min s.abs (opts.stop src)) = s.abs := by omega
    unfold Attempt.start startState
    rw [hresume]
    change CarveState.mk (max (opts.first src) (min s.abs (opts.stop src)))
      (max (opts.first src) (min s.abs (opts.stop src))) 0 _ _ = _
    rw [habs]
    simp only [CarveState.disk, save_carving]
    rfl
  rw [hstart]
  constructor
  · refine ⟨rfl, rfl, rfl, rfl, rfl, rfl, fun hd x => ?_⟩
    rw [mem_foldl_insertDigest, hseen x]
    constructor
    · rintro (hx | ⟨-, hx⟩)
      · exact hseed x hx
      · exact hx
    · intro hx
      exact .inr ⟨hd, hx⟩
  · refine ⟨⟨hprint.stats.restored, hprint.skipUntil_lt⟩, fun x hx => ?_, hfirst⟩
    exact (mem_foldl_insertDigest _ _).mpr (.inl hx)

theorem ExecRel.symm {α : Type} {R : α → α → Prop} (hR : ∀ a b, R a b → R b a) {x y : Exec α}
    (h : ExecRel R x y) : ExecRel R y x := by
  cases h with
  | ok h => exact .ok (hR _ _ h)
  | error f => exact .error f

theorem ExecRel.trans {α : Type} {R : α → α → Prop} (hR : ∀ a b c, R a b → R b c → R a c)
    {x y z : Exec α} (h : ExecRel R x y) (h' : ExecRel R y z) : ExecRel R x z := by
  cases h with
  | ok h => cases h' with | ok h' => exact .ok (hR _ _ _ h h')
  | error f => cases h' with | error f => exact .error f

theorem ExecRel.refl {α : Type} {R : α → α → Prop} (hR : ∀ a, R a a) (x : Exec α) :
    ExecRel R x x := by
  cases x with
  | ok a => exact .ok (hR a)
  | error f => exact .error f

theorem yields_iff {a : Attempt} {r : Exec CarveState} : a.Yields b fmt src disk r ↔
    (∃ f, Scanner.build b a.active SCAN_CHUNK = .error f ∧ r = .error f) ∨
    ∃ sc n, Scanner.build b a.active SCAN_CHUNK = .ok sc ∧
      run (a.body b fmt src sc) n (a.start src disk) = some r := by
  unfold Attempt.Yields carve
  cases Scanner.build b a.active SCAN_CHUNK with
  | error f =>
    constructor
    · rintro ⟨n, h⟩
      cases h
      exact .inl ⟨f, rfl, rfl⟩
    · rintro (⟨f', hf, rfl⟩ | ⟨sc, n, hb, -⟩)
      · cases hf
        exact ⟨0, rfl⟩
      · cases hb
  | ok sc =>
    constructor
    · rintro ⟨n, h⟩
      exact .inr ⟨sc, n, rfl, h⟩
    · rintro (⟨f, hf, -⟩ | ⟨sc', n, hb, h⟩)
      · cases hf
      · cases hb
        exact ⟨n, h⟩

theorem yields_unique {a : Attempt} {r r' : Exec CarveState} (h : a.Yields b fmt src disk r)
    (h' : a.Yields b fmt src disk r') : r = r' := by
  rcases yields_iff.mp h with ⟨f, hf, rfl⟩ | ⟨sc, n, hb, hr⟩
  · rcases yields_iff.mp h' with ⟨f', hf', rfl⟩ | ⟨sc, n, hb, -⟩
    · rw [hf] at hf'
      cases hf'
      rfl
    · rw [hf] at hb
      cases hb
  · rcases yields_iff.mp h' with ⟨f, hf, rfl⟩ | ⟨sc', m, hb', hr'⟩
    · rw [hf] at hb
      cases hb
    · rw [hb] at hb'
      cases hb'
      exact run_unique hr hr'

/-- A run that fails before it is cancelled fails in the same way when it is not. -/
theorem yields_error {f : Fault}
    (h : (attempt active opts seed resume cancelled).Yields b fmt src disk (.error f)) :
    (attempt active opts seed resume never).Yields b fmt src disk (.error f) := by
  rcases yields_iff.mp h with ⟨f', hf, he⟩ | ⟨sc, n, hb, hr⟩
  · exact yields_iff.mpr (.inl ⟨f', hf, he⟩)
  · obtain ⟨s, hs, hd⟩ := exists_reaches_of_run hr
    obtain ⟨m, hm⟩ := run_of_reaches (reaches_never hs) (run_done (carveBody_error hd) 0)
    exact yields_iff.mpr (.inr ⟨sc, m, hb, hm⟩)

/-- By induction on the runs: each of them only goes part of the way that the uninterrupted
run goes, and the next one starts in a state that is alike. -/
theorem Interrupted.same (hkeep : opts.checkpoint = true) (hmax : opts.maxFiles = none)
    {r r' : Exec CarveState} (h : Interrupted b fmt src active opts seed resume disk r)
    (hready : Ready seed ((attempt active opts seed resume never).start src disk) (opts.first src))
    (h' : (attempt active opts seed resume never).Yields b fmt src disk r') :
    ExecRel (SameState opts.dedup) r r' := by
  induction h generalizing r' with
  | last h =>
    rw [yields_unique h h']
    exact .refl (.refl _) r'
  | failed cancelled h =>
    rw [yields_unique (yields_error h) h']
    exact .refl (.refl _) r'
  | @resumed resume disk t r cancelled h rest ih =>
    obtain ⟨s, ⟨sc, hb, hs⟩, rfl⟩ := Ends.at_head hmax h
    have hreach : (attempt active opts seed resume cancelled).Reach b fmt src disk s := ⟨sc, hb, hs⟩
    have hkept := @Ready.kept b fmt src disk (attempt active opts seed resume cancelled) hready
    obtain ⟨hsame, hnext⟩ :=
      @restart src active opts seed s hkeep hreach.abs_le (hkept.reach hreach) never
    rcases yields_iff.mp h' with ⟨f, hf, -⟩ | ⟨sc', n, hb', hr⟩
    · cases hf.symm.trans hb
    · cases hb'.symm.trans hb
      obtain ⟨m, hm⟩ := run_of_reached (reaches_never hs) hr
      obtain ⟨k, hk, hrel⟩ := run_rel (fun _ _ => carveBody_same) hsame.symm hm
      have hrest := ih hnext (yields_iff.mpr (.inr ⟨sc, m, hb, hk⟩))
      have hback : ExecRel (SameState opts.dedup) k r' := hrel.symm fun _ _ h => h.symm
      exact hrest.trans (fun _ _ _ h h' => h.trans h') hback

theorem maxOf_le {l : List ℕ} {n : ℕ} (h : ∀ x ∈ l, x ≤ n) : maxOf l ≤ n := by
  induction l with
  | nil => exact Nat.zero_le n
  | cons x l ih =>
    exact max_le (h x List.mem_cons_self) (ih fun y hy => h y (List.mem_cons_of_mem _ hy))

theorem builtin_bounds : ∀ sig ∈ signatures, sig.reach ≤ 2 ^ 20 ∧ sig.magicOffset ≤ 2 ^ 20 := by
  decide +kernel

/-- The buffer of a scan for built-in types holds more than the overlap. -/
theorem build_builtin (hactive : ∀ sig ∈ active, sig ∈ signatures) :
    ∃ sc, Scanner.build b active SCAN_CHUNK = .ok sc ∧ sc.overlap < sc.bufLen := by
  have hreach : maxReach active ≤ 2 ^ 20 := by
    apply maxOf_le
    intro n hn
    obtain ⟨sig, hsig, rfl⟩ := List.mem_map.mp hn
    exact (builtin_bounds sig (hactive sig hsig)).1
  have hoffset : maxMagicOffset active ≤ 2 ^ 20 := by
    apply maxOf_le
    intro n hn
    obtain ⟨sig, hsig, rfl⟩ := List.mem_map.mp hn
    exact (builtin_bounds sig (hactive sig hsig)).2
  have hchunk : SCAN_CHUNK = 2 ^ 23 := rfl
  have hneed : bufferNeed active SCAN_CHUNK < 2 ^ 63 := by
    unfold bufferNeed
    omega
  obtain ⟨sc, hb, hsc⟩ := @Scanner.build_scans b _ _ hneed
  refine ⟨sc, hb, ?_⟩
  have := hsc.bufLen
  omega

/-- A fresh start, with whatever is in the output folder. -/
theorem ready_fresh (h : resume = false ∨ disk.checkpoint = none) :
    Ready seed ((attempt active opts seed resume never).start src disk) (opts.first src) := by
  have hnone : resumeFrom (attempt active opts seed resume never).opts disk = none := by
    unfold resumeFrom
    split_ifs with hr
    · rw [h.resolve_left fun hf => Bool.false_ne_true (hf.symm.trans hr.1)]
      rfl
    · rfl
  have hstart : (attempt active opts seed resume never).start src disk =
      ⟨opts.first src, opts.first src, 0, disk.checkpoint,
        { seen := seed, folder := disk.folder, log := disk.log }⟩ := by
    unfold Attempt.start startState
    rw [hnone]
    rfl
  rw [hstart]
  exact ⟨⟨.empty, Nat.two_pow_pos 64⟩, fun x hx => hx, le_rfl⟩

/-- Every run for built-in types ends, and a carve that is cancelled and resumed any number
of times writes the same files as one that is not, from the same offsets. -/
theorem cancel_resume_same (hactive : ∀ sig ∈ active, sig ∈ signatures)
    (hkeep : opts.checkpoint = true) (hmax : opts.maxFiles = none)
    (hfresh : resume = false ∨ disk.checkpoint = none) :
    (∀ resume cancelled disk, ∃ r, (attempt active opts seed resume cancelled).Yields b fmt src disk r) ∧
    ∀ r r', Interrupted b fmt src active opts seed resume disk r →
      (attempt active opts seed resume never).Yields b fmt src disk r' →
        ExecRel (fun t u => t.carving.folder = u.carving.folder ∧ t.carving.log = u.carving.log) r r' := by
  constructor
  · intro resume cancelled disk
    obtain ⟨sc, hb, hsc⟩ := @build_builtin b active hactive
    obtain ⟨n, r, hr⟩ := exists_run hsc ((attempt active opts seed resume cancelled).start src disk)
    exact ⟨r, yields_iff.mpr (.inr ⟨sc, n, hb, hr⟩)⟩
  · intro r r' h h'
    have hsame := h.same hkeep hmax (ready_fresh hfresh) h'
    cases hsame with
    | ok hs => exact .ok ⟨hs.carving.folder, hs.carving.log⟩
    | error f => exact .error f

end Interruptions

/-- A carve of an archive that is cancelled at its first chunk and then resumed. -/
theorem archive_resumed : ∃ t r r',
    (attempt [sevenZipSignature] keepOptions [] false (· == 0)).Ends .debug cellFormats archiveSource
      ⟨none, [], []⟩ t ∧
    (attempt [sevenZipSignature] keepOptions [] true never).Yields .debug cellFormats archiveSource
      t.disk r ∧
    (attempt [sevenZipSignature] keepOptions [] false never).Yields .debug cellFormats archiveSource
      ⟨none, [], []⟩ r' ∧
    ExecRel (fun t u => t.carving.folder = u.carving.folder ∧ t.carving.log = u.carving.log) r r' := by
  have htable : signatures[17]? = some sevenZipSignature := rfl
  have hactive : ∀ sig ∈ [sevenZipSignature], sig ∈ signatures := by
    intro sig hsig
    rw [List.mem_singleton.mp hsig]
    exact List.mem_of_getElem? htable
  obtain ⟨hends, hsame⟩ := @cancel_resume_same .debug cellFormats archiveSource [sevenZipSignature]
    keepOptions [] false ⟨none, [], []⟩ hactive rfl rfl (.inl rfl)
  obtain ⟨t, hrun⟩ : ∃ t, carve .debug cellFormats archiveSource [sevenZipSignature]
      { keepOptions with resume := false } (· == 0) [] ⟨none, [], []⟩ 1 = some (.ok t) := ⟨_, rfl⟩
  have ht : (attempt [sevenZipSignature] keepOptions [] false (· == 0)).Ends .debug cellFormats
      archiveSource ⟨none, [], []⟩ t := ⟨1, hrun⟩
  obtain ⟨r, hr⟩ := hends true never t.disk
  obtain ⟨r', hr'⟩ := hends false never ⟨none, [], []⟩
  exact ⟨t, r, r', ht, hr, hr', hsame r r' (.resumed (· == 0) ht (.last hr)) hr'⟩

end Unearth
