import Unearth.CarveTally

/-!
# The files of a run do not overlap

Without nesting, the boundary behind which carving goes on never falls back, and the files
that are decided lie behind each other. This needs that the end of a file is a word, which
a build that does not check its sums takes for granted.
-/

namespace Unearth
open Word Loop

/-- The files that were not rejected lie behind each other, in the order of the decisions. -/
def Ascending (log : List Decision) : Prop :=
  (log.filter (·.outcome ≠ .rejected)).Pairwise fun d e => d.fileStart + d.len ≤ e.fileStart

/-- A run without nesting, and without types that are whole volumes. -/
def Attempt.Flat (a : Attempt) : Prop :=
  a.opts.allowNested = false ∧ ∀ sig ∈ a.active, sig.isVolume = false

section Disjoint

variable (b : Build) (fmt : Formats) (src : Source)

/-- The end of a candidate is a word, unless it is rejected or the build checks its sums. -/
def EndFits (a : Attempt) (_ : CarveDisk) (q : ℕ) (sig : Signature) (c : Carving) : Prop :=
  b = .debug ∨ ∀ fileStart len outcome,
    Weighs b fmt src a.opts (a.opts.stop src) sig q c fileStart len →
      Judged fmt src a.opts sig c fileStart len outcome → outcome ≠ .rejected →
        fileStart + len < 2 ^ 64

variable {b fmt src} {a : Attempt} {disk : CarveDisk}

theorem Ascending.append {log : List Decision} (h : Ascending log) {d : Decision}
    (hd : ∀ e ∈ log, e.outcome ≠ .rejected → e.fileStart + e.len ≤ d.fileStart) :
    Ascending (log ++ [d]) := by
  unfold Ascending at *
  rw [List.filter_append, List.pairwise_append]
  refine ⟨h, ?_, ?_⟩
  · by_cases hr : d.outcome = .rejected
    · simp [hr]
    · simp [hr]
  · intro e he d' hd'
    obtain ⟨he, hne⟩ := List.mem_filter.mp he
    obtain rfl := List.mem_singleton.mp (List.mem_of_mem_filter hd')
    exact hd e he (by simpa using hne)

theorem Ascending.rejected {log : List Decision} (h : Ascending log) {d : Decision}
    (hd : d.outcome = .rejected) : Ascending (log ++ [d]) := by
  unfold Ascending at *
  simpa [List.filter_append, hd] using h

/-- The boundary is behind every file that was decided, and behind `k`. -/
structure Behind (k : ℕ) (c : Carving) : Prop where
  ascending : Ascending c.log
  ends : ∀ d ∈ c.log, d.outcome ≠ .rejected → d.fileStart + d.len ≤ c.skipUntil
  le : k ≤ c.skipUntil

theorem eligible_le {opts : CarveOptions} (hn : opts.allowNested = false) {sig : Signature}
    {q skipUntil fileStart : ℕ} (h : eligible opts sig q skipUntil = some fileStart) :
    skipUntil ≤ fileStart := by
  unfold eligible at h
  dsimp only at h
  split_ifs at h with hm he
  cases h
  simpa [hn] using he.2

/-- A decision moves the boundary behind the file, so that the next one lies behind it. -/
theorem Behind.judge {k : ℕ} {sig : Signature} {q : ℕ} {c c' : Carving} {full : Bool}
    (hq : q < 2 ^ 64) (hn : a.opts.allowNested = false) (hv : sig.isVolume = false)
    (hfit : EndFits b fmt src a disk q sig c) (h : Behind k c)
    (hj : a.judge b fmt src sig q c = .ok (c', full)) :
    Behind k c' ∧ c.skipUntil ≤ c'.skipUntil := by
  rcases candidate_cases hq hj with ⟨rfl, -⟩ | ⟨fileStart, len, outcome, stats, skipUntil, folder,
    seen, hw, hjudged, -, hm, -, -, rfl⟩
  · exact ⟨h, le_rfl⟩
  · have hstart : c.skipUntil ≤ fileStart := eligible_le hn hw.1
    by_cases ho : outcome = .rejected
    · rw [Moved, if_pos (.inl ho)] at hm
      subst hm
      refine ⟨⟨h.ascending.rejected ho, fun d hd hne => ?_, h.le⟩, le_rfl⟩
      rcases List.mem_append.mp hd with hd | hd
      · exact h.ends d hd hne
      · rw [List.mem_singleton] at hd
        exact absurd (by rw [hd]; exact ho) hne
    · rw [Moved, if_neg (by simp [ho, hn, hv])] at hm
      have hend : fileStart + len < 2 ^ 64 := by
        rcases hfit with rfl | hfit
        · by_contra hover
          rw [plus_debug (not_lt.mp hover)] at hm
          cases hm
        · exact hfit fileStart len outcome hw hjudged ho
      rw [plus_eq hend] at hm
      cases hm
      have hle := h.le
      refine ⟨⟨h.ascending.append fun e he hne => (h.ends e he hne).trans hstart,
        fun d hd hne => ?_, ?_⟩, ?_⟩
      · rcases List.mem_append.mp hd with hd | hd
        · have := h.ends d hd hne
          simp only
          omega
        · rw [List.mem_singleton] at hd
          rw [hd]
      · simp only
        omega
      · simp only
        omega

/-- A run that resumes starts with what was left behind. -/
theorem Behind.start {k : ℕ} {c : Carving} (hs : Saved disk c) (h : Behind k c)
    (hresume : a.Resumes disk) : Behind c.skipUntil (a.start src disk).carving := by
  obtain ⟨seen, hstart⟩ := @Saved.resumes src _ _ _ hs hresume
  rw [hstart, hs.log]
  exact ⟨h.ascending, h.ends, le_rfl⟩

theorem Behind.kept {k : ℕ} (hstart : Behind k (a.start src disk).carving) (hflat : a.Flat)
    (hfit : ∀ s q sig c, a.Visits b fmt src disk s q sig c → EndFits b fmt src a disk q sig c) :
    a.Kept b fmt src disk (fun _ c => Behind k c) fun _ c => Behind k c where
  mono _ _ _ _ h := h
  scanned _ _ _ h := ⟨h.ascending, h.ends, h.le⟩
  next s q sig c _ hv h hj :=
    (h.judge hv.lt hflat.1 (hflat.2 sig hv.active) (hfit s q sig c hv) hj).1
  full s q sig c _ hv h hj :=
    (h.judge hv.lt hflat.1 (hflat.2 sig hv.active) (hfit s q sig c hv) hj).1
  weaken _ _ h := h
  start := hstart

theorem Session.behind {c : Carving}
    (h : Session b fmt src Attempt.Flat (EndFits b fmt src) disk c) : Behind 0 c := by
  induction h with
  | fresh folder => exact ⟨List.Pairwise.nil, by simp, le_rfl⟩
  | next h a hflat hkeep hresume hfit ht hs folder ih =>
    obtain ⟨p, -, hb⟩ := ((Behind.start h.saved ih hresume).kept hflat hfit).leaves ht
    exact ⟨hb.ascending, hb.ends, Nat.zero_le _⟩

/-- In every run of a session without nesting, the boundary never falls back and the files
that were not rejected are disjoint and ascending. -/
theorem carved_disjoint {c₀ : Carving}
    (h : Session b fmt src Attempt.Flat (EndFits b fmt src) disk c₀) (hflat : a.Flat)
    (hresume : a.Resumes disk)
    (hfit : ∀ s q sig c, a.Visits b fmt src disk s q sig c → EndFits b fmt src a disk q sig c) :
    (∀ s q sig c, a.Visits b fmt src disk s q sig c → Ascending c.log ∧ c₀.skipUntil ≤ c.skipUntil ∧
      ∀ c' full, a.judge b fmt src sig q c = .ok (c', full) → c.skipUntil ≤ c'.skipUntil) ∧
    ∀ t, a.Leaves b fmt src disk t → Ascending t.carving.log ∧ c₀.skipUntil ≤ t.carving.skipUntil := by
  have hkept := (Behind.start h.saved h.behind hresume).kept hflat hfit
  constructor
  · intro s q sig c hv
    have hb := hkept.visits hv
    refine ⟨hb.ascending, hb.le, fun c' full hj => ?_⟩
    exact (hb.judge hv.lt hflat.1 (hflat.2 sig hv.active) (hfit s q sig c hv) hj).2
  · intro t ht
    obtain ⟨p, -, hb⟩ := hkept.leaves ht
    exact ⟨hb.ascending, hb.le⟩

end Disjoint

def twoCellSource : Source where
  data := ascii "CELLCELL"
  size_lt := by decide

/-- A carve of cells of at most three bytes. -/
def smallCellAttempt : Attempt :=
  { active := [cellSignature], opts := { keepOptions with maxSize := some 3 } }

theorem eligible_start_le {opts : CarveOptions} {sig : Signature} {q skipUntil fileStart : ℕ}
    (h : eligible opts sig q skipUntil = some fileStart) : fileStart ≤ q := by
  unfold eligible at h
  dsimp only at h
  split_ifs at h
  cases h
  exact Nat.sub_le _ _

/-- A cell has four bytes, wherever it is. -/
theorem cell_endFits {b : Build} {fmt : Formats} {src : Source} {a : Attempt} {disk : CarveDisk}
    (ha : a.active = [cellSignature]) {s : CarveState} {q : ℕ} {sig : Signature} {c : Carving}
    (hv : a.Visits b fmt src disk s q sig c) : EndFits b fmt src a disk q sig c := by
  refine .inr fun fileStart len outcome hw hjudged hne => ?_
  have hactive := hv.active
  rw [ha] at hactive
  obtain rfl := List.mem_singleton.mp hactive
  have hsize : src.size < 2 ^ 63 := src.size_lt
  have hq : q < src.size := hv.bounds.2.trans_le (stop_le _)
  have hstart := eligible_start_le hw.1
  obtain ⟨limit, -, hl⟩ := exec_bind_ok hw.2.1
  have hl : fixedLength fileStart (min limit (a.opts.stop src)) 4 = some len := Except.ok.inj hl
  have hlen : len = 4 := by
    unfold fixedLength at hl
    split at hl
    · cases hl
    · exact (Option.some.inj hl).symm
  omega

theorem cells_disjoint : cellSignature.isVolume = false ∧ ∀ fmt, ∃ t,
    smallCellAttempt.Ends .release fmt twoCellSource ⟨none, [], []⟩ t ∧
      t.carving.log = [⟨0, 0, 4, .skippedLarge⟩, ⟨4, 4, 4, .skippedLarge⟩] ∧ Ascending t.carving.log := by
  refine ⟨rfl, fun fmt => ?_⟩
  obtain ⟨t, hrun, hlog⟩ : ∃ t, carve .release fmt twoCellSource smallCellAttempt.active
      smallCellAttempt.opts smallCellAttempt.cancelled smallCellAttempt.seed ⟨none, [], []⟩ 2 =
        some (.ok t) ∧ t.carving.log = [⟨0, 0, 4, .skippedLarge⟩, ⟨4, 4, 4, .skippedLarge⟩] :=
    ⟨_, rfl, rfl⟩
  have hends : smallCellAttempt.Ends .release fmt twoCellSource ⟨none, [], []⟩ t := ⟨2, hrun⟩
  have hflat : smallCellAttempt.Flat := by
    refine ⟨rfl, fun sig hsig => ?_⟩
    rw [List.mem_singleton.mp hsig]
    rfl
  refine ⟨t, hends, hlog, ?_⟩
  exact ((carved_disjoint (.fresh []) hflat (.inr rfl) fun _ _ _ _ hv => cell_endFits rfl hv).2 t
    (.inr hends)).1

/-- An archive that is said to go on for 2^64 - 1 bytes, and another one behind its header. -/
def overlapSource : Source where
  data := [0, 0x37, 0x7A, 0xBC, 0xAF, 0x27, 0x1C, 0, 4, 0, 0, 0, 0, 0xDF, 0xFF, 0xFF, 0xFF, 0xFF,
    0xFF, 0xFF, 0xFF] ++ List.replicate 12 0 ++
    [0x37, 0x7A, 0xBC, 0xAF, 0x27, 0x1C, 0, 4, 0, 0, 0, 0, 1] ++ List.replicate 20 0
  size_lt := by decide

/-- A carve of 7z archives of at most 64 bytes. -/
def mediumAttempt : Attempt :=
  { active := [sevenZipSignature], opts := { keepOptions with maxSize := some 64 } }

/-- The boundary behind the first archive is 0, so that the second one is carved out of it. -/
theorem archives_overlap : mediumAttempt.Flat ∧ sevenZipSignature ∈ signatures ∧ ∀ fmt, ∃ t,
    mediumAttempt.Ends .release fmt overlapSource ⟨none, [], []⟩ t ∧
      t.carving.log = [⟨1, 1, 2 ^ 64 - 1, .skippedLarge⟩, ⟨33, 33, 33, .recovered⟩] ∧
      ¬ Ascending t.carving.log := by
  have htable : signatures[17]? = some sevenZipSignature := rfl
  refine ⟨⟨rfl, fun sig hsig => ?_⟩, List.mem_of_getElem? htable, fun fmt => ?_⟩
  · rw [List.mem_singleton.mp hsig]
    rfl
  · obtain ⟨t, hrun, hlog⟩ : ∃ t, carve .release fmt overlapSource mediumAttempt.active
        mediumAttempt.opts mediumAttempt.cancelled mediumAttempt.seed ⟨none, [], []⟩ 2 =
          some (.ok t) ∧
        t.carving.log = [⟨1, 1, 2 ^ 64 - 1, .skippedLarge⟩, ⟨33, 33, 33, .recovered⟩] := ⟨_, rfl, rfl⟩
    refine ⟨t, ⟨2, hrun⟩, hlog, ?_⟩
    rw [hlog]
    unfold Ascending
    decide

end Unearth
