import Unearth.CarveRun

/-!
# What a checkpoint keeps of a tally

The tally of a run can be printed at every match, also after a row of runs that each
resumed from the one before. What is read back is the whole tally exactly when no file was
skipped for its size and every row is of a built-in type.
-/

namespace Unearth
open Lines Word Loop

/-- Variables that the text of a checkpoint can hold. -/
structure Carving.Printable (c : Carving) : Prop where
  stats : CarveStats.Printable c.stats
  skipUntil_lt : c.skipUntil < 2 ^ 64

namespace CarveStats

theorem tick_lt (n : ℕ) : tick n < 2 ^ 64 := wrapAdd_lt n 1

theorem Printable.empty : ({} : CarveStats).Printable where
  files_lt := by decide
  bytes_lt := by decide
  rejected_lt := by decide
  duplicates_lt := by decide
  verified_lt := by decide
  plausible_lt := by decide
  truncated_lt := by decide
  rows := fun _ hf => absurd hf List.not_mem_nil
  perType := fun _ => rfl

theorem Printable.scanned {s : CarveStats} (h : s.Printable) (n : ℕ) :
    ({ s with bytesScanned := n } : CarveStats).Printable := ⟨h.1, h.2, h.3, h.4, h.5, h.6, h.7, h.8, h.9⟩

theorem Printable.countConfidence {s : CarveStats} (h : s.Printable) (conf : Confidence) :
    (s.countConfidence conf).Printable := by
  cases conf with
  | verified => exact ⟨h.1, h.2, h.3, h.4, tick_lt _, h.6, h.7, h.8, h.9⟩
  | plausible_ => exact ⟨h.1, h.2, h.3, h.4, h.5, tick_lt _, h.7, h.8, h.9⟩
  | truncated => exact ⟨h.1, h.2, h.3, h.4, h.5, h.6, tick_lt _, h.8, h.9⟩

theorem Printable.record {s : CarveStats} (h : s.Printable) {f : CarvedFile} (hf : f.Printable) :
    (s.record f).Printable := by
  refine ⟨h.1, h.2, h.3, h.4, h.5, h.6, h.7, fun g hg => ?_, fun ext => ?_⟩
  · rcases List.mem_append.mp hg with hg | hg
    · exact h.rows g hg
    · rw [List.mem_singleton] at hg
      rwa [hg]
  · simp only [CarveStats.record, List.countP_append, h.perType ext, List.countP_singleton]
    by_cases he : ext = f.ext
    · simp [he]
    · simp [he, Ne.symm he]

theorem Printable.restored {s : CarveStats} (h : s.Printable) : s.restored.Printable :=
  ⟨h.1, h.2, h.3, h.4, h.5, h.6, h.7, fun f hf => h.rows f (List.mem_of_mem_filter hf), fun _ => rfl⟩

/-- A decision keeps a tally printable. -/
theorem Printable.tallied {b : Build} {fileStart : ℕ} {s s' : CarveStats} {outcome : Outcome}
    (h : s.Printable) (ht : Tallied b fileStart s outcome s') : s'.Printable := by
  cases ht with
  | skippedLarge => exact ⟨h.1, h.2, h.3, h.4, h.5, h.6, h.7, h.8, h.9⟩
  | rejected => exact ⟨h.1, h.2, tick_lt _, h.4, h.5, h.6, h.7, h.8, h.9⟩
  | duplicate => exact ⟨h.1, h.2, h.3, tick_lt _, h.5, h.6, h.7, h.8, h.9⟩
  | recovered f bytes hf hstart hbytes =>
    have hcount : ({ s with filesRecovered := tick s.filesRecovered, bytesRecovered := bytes } :
        CarveStats).Printable :=
      ⟨tick_lt _, plus_lt hbytes, h.3, h.4, h.5, h.6, h.7, h.8, h.9⟩
    exact (hcount.countConfidence _).record hf

end CarveStats

theorem Moved.lt {b : Build} {opts : CarveOptions} {sig : Signature} {fileStart len before after : ℕ}
    {outcome : Outcome} (h : Moved b opts sig fileStart len outcome before after)
    (hb : before < 2 ^ 64) : after < 2 ^ 64 := by
  unfold Moved at h
  split_ifs at h
  · rwa [h]
  · exact plus_lt h

section Sessions

variable {b : Build} {fmt : Formats} {src : Source} {a : Attempt} {disk : CarveDisk}

theorem Carving.Printable.judge {sig : Signature} {q : ℕ} {c c' : Carving} {full : Bool}
    (hq : q < 2 ^ 64) (h : c.Printable) (hj : a.judge b fmt src sig q c = .ok (c', full)) :
    c'.Printable := by
  rcases candidate_cases hq hj with ⟨rfl, -⟩ | ⟨_, _, _, _, _, _, _, -, -, ht, hm, -, -, rfl⟩
  · exact h
  · exact ⟨h.stats.tallied ht, hm.lt h.skipUntil_lt⟩

/-- A disk as a session leaves it: nothing yet, or a checkpoint of variables that it holds. -/
inductive Saved : CarveDisk → Carving → Prop
  | fresh (folder : Folder) : Saved ⟨none, folder, []⟩ {}
  | checkpoint (c : Carving) (h : c.Printable) (pos stop : ℕ) (hp : pos < 2 ^ 64) (dedup : Bool)
      (folder : Folder) :
      Saved ⟨some (writeCheckpoint pos stop c.skipUntil c.stats c.seen dedup), folder, c.log⟩ c

theorem Saved.printable {c : Carving} (h : Saved disk c) : c.Printable := by
  cases h with
  | fresh folder => exact ⟨.empty, Nat.two_pow_pos 64⟩
  | checkpoint c h pos stop hp dedup folder => exact h

theorem Saved.log {c : Carving} (h : Saved disk c) : disk.log = c.log := by
  cases h with
  | fresh folder => rfl
  | checkpoint c h pos stop hp dedup folder => rfl

/-- A run that resumes starts from what the checkpoint restores. -/
theorem Saved.resumes {c : Carving} (h : Saved disk c) (hres : a.Resumes disk) :
    ∃ seen, (a.start src disk).carving =
      ⟨c.stats.restored, c.skipUntil, seen, disk.folder, disk.log⟩ := by
  cases h with
  | fresh folder =>
    have hnone : resumeFrom a.opts ⟨none, folder, []⟩ = none := by
      unfold resumeFrom
      split_ifs <;> rfl
    refine ⟨a.seed, ?_⟩
    unfold Attempt.start startState
    rw [hnone]
    rfl
  | checkpoint c h pos stop hp dedup folder =>
    obtain ⟨seen, hread, -⟩ :=
      readCheckpoint_writeCheckpoint stop c.seen dedup hp h.skipUntil_lt h.stats
    have hr : a.opts.resume = true ∧ a.opts.checkpoint = true := hres.resolve_right (by simp)
    unfold Attempt.start startState resumeFrom
    rw [if_pos hr]
    simp only [Option.map_some, hread]
    exact ⟨_, rfl⟩

theorem Saved.start {c : Carving} (h : Saved disk c) (a : Attempt) :
    (a.start src disk).carving.Printable := by
  by_cases hres : a.Resumes disk
  · obtain ⟨seen, hs⟩ := @Saved.resumes src a disk c h hres
    rw [hs]
    exact ⟨h.printable.stats.restored, h.printable.skipUntil_lt⟩
  · have hnone : resumeFrom a.opts disk = none := if_neg fun hr => hres (.inl hr)
    unfold Attempt.start startState
    rw [hnone]
    exact ⟨.empty, Nat.two_pow_pos 64⟩

theorem Saved.kept {c : Carving} (h : Saved disk c) (a : Attempt) :
    a.Kept b fmt src disk (fun _ c => c.Printable) fun _ c => c.Printable where
  mono _ _ _ _ hc := hc
  scanned _ _ n hc := ⟨hc.stats.scanned n, hc.skipUntil_lt⟩
  next _ _ _ _ _ hv hc hj := hc.judge hv.lt hj
  full _ _ _ _ _ hv hc hj := hc.judge hv.lt hj
  weaken _ _ hc := hc
  start := h.start a

theorem Saved.next {c : Carving} (h : Saved disk c) {t : CarveState}
    (hkeep : a.opts.checkpoint = true) (ht : a.Leaves b fmt src disk t) (hs : t.save src a.opts = t)
    (folder : Folder) : Saved ⟨t.checkpoint, folder, t.carving.log⟩ t.carving := by
  obtain ⟨p, -, hc⟩ := (h.kept a).leaves ht
  have hcp := @save_checkpoint src _ hkeep t
  rw [hs] at hcp
  rw [hcp]
  exact .checkpoint t.carving hc t.abs _ (ht.abs_le.trans_lt (stop_lt _)) _ folder

variable {Fit : Attempt → Prop} {P : Attempt → CarveDisk → ℕ → Signature → Carving → Prop}

theorem Session.saved {c : Carving} (h : Session b fmt src Fit P disk c) : Saved disk c := by
  induction h with
  | fresh folder => exact .fresh folder
  | next h a hfit hkeep hresume hP ht hs folder ih => exact ih.next hkeep ht hs folder

variable (b fmt src) in
/-- The variables of a run of a session, at a match or after one. -/
def Reachable (c : Carving) : Prop :=
  ∃ (disk : CarveDisk) (c₀ : Carving) (a : Attempt),
    Session b fmt src (fun _ => True) (fun _ _ _ _ _ => True) disk c₀ ∧
    ((∃ s q sig, a.Visits b fmt src disk s q sig c) ∨
      ∃ t : CarveState, a.Leaves b fmt src disk t ∧ t.carving = c)

theorem Reachable.ended {folder : Folder} {t : CarveState}
    (h : a.Ends b fmt src ⟨none, folder, []⟩ t) : Reachable b fmt src t.carving :=
  ⟨_, {}, a, .fresh folder, .inr ⟨t, .inr h, rfl⟩⟩

theorem Reachable.printable {c : Carving} (h : Reachable b fmt src c) : c.Printable := by
  obtain ⟨disk, c₀, a, hs, ⟨s, q, sig, hv⟩ | ⟨t, ht, rfl⟩⟩ := h
  · exact (hs.saved.kept a).visits hv
  · obtain ⟨p, -, hc⟩ := (hs.saved.kept a).leaves ht
    exact hc

end Sessions

/-- The checkpoint gives back the position, the boundary, the digests and the tally. -/
structure Restores (pos stop skipUntil : ℕ) (stats : CarveStats) (seen : List Digest)
    (dedup : Bool) : Prop where
  position : (readCheckpoint (writeCheckpoint pos stop skipUntil stats seen dedup)).pos = pos
  boundary : (readCheckpoint (writeCheckpoint pos stop skipUntil stats seen dedup)).skipUntil =
    skipUntil
  digests : dedup = true → ∀ d,
    d ∈ (readCheckpoint (writeCheckpoint pos stop skipUntil stats seen dedup)).seen ↔ d ∈ seen
  tally : { (readCheckpoint (writeCheckpoint pos stop skipUntil stats seen dedup)).stats with
    bytesScanned := stats.bytesScanned } = stats

/-- What is read back has neither skipped files nor rows of unknown types. -/
theorem Restores.kept {pos stop skipUntil : ℕ} {stats : CarveStats} {seen : List Digest} {dedup : Bool}
    (h : Restores pos stop skipUntil stats seen dedup) (hprint : stats.Printable) (hp : pos < 2 ^ 64)
    (hs : skipUntil < 2 ^ 64) : stats.skippedLarge = 0 ∧ ∀ f ∈ stats.files, builtIn f.ext = true := by
  obtain ⟨seen', hread, -⟩ := readCheckpoint_writeCheckpoint stop seen dedup hp hs hprint
  have hstats := h.tally
  rw [hread] at hstats
  constructor
  · exact (congrArg CarveStats.skippedLarge hstats).symm
  · have hfiles : stats.files.filter (builtIn ·.ext) = stats.files :=
      congrArg CarveStats.files hstats
    exact List.filter_eq_self.mp hfiles

/-- A checkpoint restores the run it was written from, exactly when no file was skipped for
its size and every row is of a built-in type. -/
theorem restores_iff {b : Build} {fmt : Formats} {src : Source} {c : Carving}
    (hc : Reachable b fmt src c) {pos skipUntil : ℕ} (hp : pos < 2 ^ 64) (hs : skipUntil < 2 ^ 64)
    (stop : ℕ) (seen : List Digest) (dedup : Bool) :
    Restores pos stop skipUntil c.stats seen dedup ↔
      c.stats.skippedLarge = 0 ∧ ∀ f ∈ c.stats.files, builtIn f.ext = true := by
  have hprint := hc.printable.stats
  constructor
  · intro h
    exact h.kept hprint hp hs
  · rintro ⟨hlarge, hrows⟩
    obtain ⟨seen', hread, hseen⟩ := readCheckpoint_writeCheckpoint stop seen dedup hp hs hprint
    have hfiles : c.stats.files.filter (builtIn ·.ext) = c.stats.files := List.filter_eq_self.mpr hrows
    have htypes : c.stats.perType = fun ext => c.stats.files.countP (·.ext = ext) :=
      funext hprint.perType
    refine ⟨by rw [hread], by rw [hread], fun hd d => ?_, ?_⟩
    · rw [hread, hseen d]
      exact and_iff_right hd
    · rw [hread]
      simp only [CarveStats.restored, hfiles, ← htypes, ← hlarge]

/-- A carve of everything, with a checkpoint that it resumes from. -/
def keepOptions : CarveOptions where
  start := 0
  end_ := none
  minSize := 1
  maxSize := none
  maxFiles := none
  allowNested := false
  validate := false
  dedup := false
  checkpoint := true
  resume := true
  organize := false
  dryRun := false
  align := 1

/-- A carve of 7z archives. -/
def archiveAttempt : Attempt := { active := [sevenZipSignature], opts := keepOptions }

theorem archive_restores : sevenZipSignature ∈ signatures ∧ ∀ fmt : Formats,
    ∃ t, archiveAttempt.Ends .release fmt archiveSource ⟨none, [], []⟩ t ∧
      t.carving.stats.files.map CarvedFile.ext = ["7z".toList] ∧
      Restores 41 41 41 t.carving.stats [] true := by
  have htable : signatures[17]? = some sevenZipSignature := rfl
  refine ⟨List.mem_of_getElem? htable, fun fmt => ?_⟩
  obtain ⟨t, hrun, hlarge, hext⟩ : ∃ t, carve .release fmt archiveSource archiveAttempt.active
      archiveAttempt.opts archiveAttempt.cancelled archiveAttempt.seed ⟨none, [], []⟩ 2 =
        some (.ok t) ∧ t.carving.stats.skippedLarge = 0 ∧
      t.carving.stats.files.map CarvedFile.ext = ["7z".toList] := ⟨_, rfl, rfl, rfl⟩
  have hends : archiveAttempt.Ends .release fmt archiveSource ⟨none, [], []⟩ t := ⟨2, hrun⟩
  have hc := Reachable.ended hends
  refine ⟨t, hends, hext, ?_⟩
  refine (restores_iff hc (by decide) (by decide) 41 [] true).mpr ⟨hlarge, fun f hf => ?_⟩
  have hf : f.ext ∈ t.carving.stats.files.map CarvedFile.ext := List.mem_map_of_mem hf
  rw [hext, List.mem_singleton] at hf
  rw [hf]
  rfl

/-- A type described at run time, of four bytes. -/
def cellSignature : Signature := .mk "cell".toList (ascii "CELL") 0 none (.fixed 4) 4

def cellSource : Source where
  data := ascii "CELL"
  size_lt := by decide

def cellAttempt : Attempt := { active := [cellSignature], opts := keepOptions }

/-- No type that is described at run time has a check of its header. -/
def unchecked (walk : Walker) (sha256 : List UInt8 → Digest) : Formats :=
  { walk, validate := fun _ _ => .unknown, sha256 }

/-- A carve of 7z archives of at most eight bytes. -/
def smallAttempt : Attempt :=
  { active := [sevenZipSignature], opts := { keepOptions with maxSize := some 8 } }

/-- The row of a type described at run time does not come back, and neither does the count
of the files that were skipped. -/
theorem checkpoint_loses : sevenZipSignature ∈ signatures ∧
    (∀ walk sha256, ∃ t,
      cellAttempt.Ends .release (unchecked walk sha256) cellSource ⟨none, [], []⟩ t ∧
      t.carving.stats.files.map CarvedFile.ext = ["cell".toList] ∧
      ¬ Restores 4 4 4 t.carving.stats [] true) ∧
    ∀ fmt, ∃ t, smallAttempt.Ends .release fmt archiveSource ⟨none, [], []⟩ t ∧
      t.carving.stats.skippedLarge = 1 ∧ ¬ Restores 41 41 41 t.carving.stats [] true := by
  have htable : signatures[17]? = some sevenZipSignature := rfl
  refine ⟨List.mem_of_getElem? htable, fun walk sha256 => ?_, fun fmt => ?_⟩
  · obtain ⟨t, hrun, hext⟩ : ∃ t, carve .release (unchecked walk sha256) cellSource
        cellAttempt.active cellAttempt.opts cellAttempt.cancelled cellAttempt.seed ⟨none, [], []⟩ 2 =
          some (.ok t) ∧ t.carving.stats.files.map CarvedFile.ext = ["cell".toList] :=
      ⟨_, rfl, rfl⟩
    have hends : cellAttempt.Ends .release (unchecked walk sha256) cellSource ⟨none, [], []⟩ t :=
      ⟨2, hrun⟩
    have hc := (Reachable.ended hends).printable.stats
    refine ⟨t, hends, hext, fun h => ?_⟩
    have hmem : "cell".toList ∈ t.carving.stats.files.map CarvedFile.ext := by simp [hext]
    obtain ⟨f, hf, hfe⟩ := List.mem_map.mp hmem
    have hb := (h.kept hc (by decide) (by decide)).2 f hf
    rw [hfe] at hb
    cases hb
  · obtain ⟨t, hrun, hlarge⟩ : ∃ t, carve .release fmt archiveSource smallAttempt.active
        smallAttempt.opts smallAttempt.cancelled smallAttempt.seed ⟨none, [], []⟩ 2 =
          some (.ok t) ∧ t.carving.stats.skippedLarge = 1 := ⟨_, rfl, rfl⟩
    have hends : smallAttempt.Ends .release fmt archiveSource ⟨none, [], []⟩ t := ⟨2, hrun⟩
    have hc := (Reachable.ended hends).printable.stats
    refine ⟨t, hends, hlarge, fun h => ?_⟩
    have hzero := (h.kept hc (by decide) (by decide)).1
    omega

end Unearth
