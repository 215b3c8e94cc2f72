import Unearth.CarveTally

/-!
# The rows of a run

What a match adds to the rows and to the digests of a run, and what the rows of a run have
in common: with `dedup` their digests are distinct, and none of them is one of the digests
that the run was seeded with.
-/

namespace Unearth
open Lines Bytes Word Loop

/-- The row of a file that is written, from the bytes that were copied. -/
structure Written (fmt : Formats) (src : Source) (opts : CarveOptions) (sig : Signature)
    (fileStart len : ℕ) (seen : List Digest) (row : CarvedFile) : Prop where
  ext : effectiveExt src sig fileStart len = .ok row.ext
  offset : row.offset = fileStart
  copied : ∃ remaining content, copyRange src fileStart len = .ok (remaining, content) ∧
    row.size = len - remaining ∧ row.sha256 = fmt.sha256 content
  fresh : opts.dedup = true → row.sha256 ∉ seen

/-- A file of the scan: it is wanted for its length and its header passes. -/
def Accepted (b : Build) (fmt : Formats) (src : Source) (opts : CarveOptions) (scanEnd : ℕ)
    (sig : Signature) (magicAbs : ℕ) (c : Carving) (fileStart len : ℕ) : Prop :=
  Weighs b fmt src opts scanEnd sig magicAbs c fileStart len ∧ ¬ TooLarge opts len ∧
    Passes fmt src opts sig fileStart len true

section Candidate

variable {b : Build} {fmt : Formats} {src : Source} {opts : CarveOptions} {scanEnd : ℕ}

theorem files_countConfidence (s : CarveStats) (conf : Confidence) :
    (s.countConfidence conf).files = s.files := by
  cases conf <;> rfl

theorem writeFile_rows {sig : Signature} {fileStart len : ℕ} {confidence : Confidence}
    {c c' : Carving} {outcome : Outcome}
    (h : writeFile b fmt src opts sig fileStart len confidence c = .ok (c', outcome)) :
    (c'.stats.files = c.stats.files ∧ c'.seen = c.seen) ∨
    ∃ row, Written fmt src opts sig fileStart len c.seen row ∧ c'.stats.files = c.stats.files ++ [row] ∧
      c'.seen = if opts.dedup then insertDigest row.sha256 c.seen else c.seen := by
  obtain ⟨ext, hext, h⟩ := exec_bind_ok h
  obtain ⟨⟨path, folder⟩, -, h⟩ := exec_bind_ok h
  obtain ⟨⟨remaining, content⟩, hcopy, h⟩ := exec_bind_ok h
  dsimp only at h
  by_cases hdup : opts.dedup = true ∧ fmt.sha256 content ∈ c.seen
  · rw [if_pos hdup] at h
    cases h
    exact .inl ⟨rfl, rfl⟩
  · rw [if_neg hdup] at h
    obtain ⟨bytes, -, h⟩ := exec_bind_ok h
    cases h
    right
    let row : CarvedFile :=
      { name := manifestName path, ext, offset := fileStart, size := len - remaining,
        sha256 := fmt.sha256 content,
        confidence := if 0 < remaining then .truncated else confidence }
    refine ⟨row, ⟨hext, rfl, ⟨remaining, content, hcopy, rfl, rfl⟩, fun hd hm => hdup ⟨hd, hm⟩⟩, ?_, rfl⟩
    exact congrArg (· ++ [row]) (files_countConfidence _ _)

theorem skipPast_rows {sig : Signature} {fileStart len : ℕ} {c c' : Carving}
    (h : skipPast b opts sig fileStart len c = .ok c') :
    c'.stats = c.stats ∧ c'.seen = c.seen ∧ c'.folder = c.folder := by
  unfold skipPast at h
  split_ifs at h
  · obtain ⟨skipUntil, -, h⟩ := exec_bind_ok h
    cases h
    exact ⟨rfl, rfl, rfl⟩
  · cases h
    exact ⟨rfl, rfl, rfl⟩

/-- A match leaves the rows and the digests, or it adds the row of a file. -/
theorem candidate_rows {sig : Signature} {magicAbs : ℕ} {c c' : Carving} {full : Bool}
    (h : candidate b fmt src opts scanEnd sig magicAbs c = .ok (c', full)) :
    (c'.stats.files = c.stats.files ∧ c'.seen = c.seen) ∨
    ∃ fileStart len row, Accepted b fmt src opts scanEnd sig magicAbs c fileStart len ∧
      Written fmt src opts sig fileStart len c.seen row ∧ c'.stats.files = c.stats.files ++ [row] ∧
      c'.seen = if opts.dedup then insertDigest row.sha256 c.seen else c.seen := by
  unfold candidate at h
  cases he : eligible opts sig magicAbs c.skipUntil with
  | none =>
    rw [he] at h
    cases h
    exact .inl ⟨rfl, rfl⟩
  | some fileStart =>
    rw [he] at h
    dsimp only at h
    obtain ⟨o, hlen, h⟩ := exec_bind_ok h
    cases o with
    | none =>
      cases h
      exact .inl ⟨rfl, rfl⟩
    | some len =>
      dsimp only at h
      split_ifs at h with hmin hlarge
      · cases h
        exact .inl ⟨rfl, rfl⟩
      · obtain ⟨c₁, hskip, h⟩ := exec_bind_ok h
        cases h
        obtain ⟨hstats, hseen, -⟩ := skipPast_rows hskip
        left
        simp only [hstats, hseen, and_self]
      · obtain ⟨validity, hv, h⟩ := exec_bind_ok h
        split_ifs at h with hreject
        · cases h
          exact .inl ⟨rfl, rfl⟩
        · obtain ⟨⟨c₁, outcome⟩, hwrite, h⟩ := exec_bind_ok h
          obtain ⟨c₂, hskip, h⟩ := exec_bind_ok h
          cases h
          obtain ⟨hstats, hseen, -⟩ := skipPast_rows hskip
          simp only [hstats, hseen]
          rcases writeFile_rows hwrite with hsame | ⟨row, hrow, hfiles, hdigests⟩
          · exact .inl hsame
          · have hpass : Passes fmt src opts sig fileStart len true :=
              ⟨validity, hv, by rw [Bool.eq_false_iff.mpr hreject]; rfl⟩
            exact .inr ⟨fileStart, len, row, ⟨⟨he, hlen, not_lt.mp hmin⟩, hlarge, hpass⟩, hrow, hfiles,
              hdigests⟩

end Candidate

section Distinct

variable {b : Build} {fmt : Formats} {src : Source} {a : Attempt} {disk : CarveDisk}

/-- The digests of the rows are distinct and new, and all of them are remembered. -/
structure Distinct (seed : List Digest) (c : Carving) : Prop where
  nodup : (c.stats.files.map CarvedFile.sha256).Nodup
  fresh : ∀ f ∈ c.stats.files, f.sha256 ∉ seed
  seen : ∀ d, d ∈ c.seen ↔ d ∈ seed ∨ d ∈ c.stats.files.map CarvedFile.sha256

theorem Distinct.judge {seed : List Digest} {sig : Signature} {q : ℕ} {c c' : Carving} {full : Bool}
    (h : Distinct seed c) (hdedup : a.opts.dedup = true)
    (hj : a.judge b fmt src sig q c = .ok (c', full)) : Distinct seed c' := by
  rcases candidate_rows hj with ⟨hfiles, hseen⟩ | ⟨fileStart, len, row, -, hrow, hfiles, hseen⟩
  · exact ⟨by rw [hfiles]; exact h.nodup, by rw [hfiles]; exact h.fresh, by rw [hfiles, hseen]; exact h.seen⟩
  · have hnew : row.sha256 ∉ seed ∧ row.sha256 ∉ c.stats.files.map CarvedFile.sha256 :=
      not_or.mp fun hold => hrow.fresh hdedup ((h.seen _).mpr hold)
    rw [if_pos hdedup] at hseen
    constructor
    · rw [hfiles, List.map_append, List.map_singleton, List.nodup_append]
      refine ⟨h.nodup, List.nodup_singleton _, ?_⟩
      intro d hd e he heq
      obtain rfl := List.mem_singleton.mp he
      exact hnew.2 (heq ▸ hd)
    · intro f hf
      rw [hfiles] at hf
      rcases List.mem_append.mp hf with hf | hf
      · exact h.fresh f hf
      · obtain rfl := List.mem_singleton.mp hf
        exact hnew.1
    · intro d
      rw [hseen, mem_insertDigest, h.seen, hfiles, List.map_append, List.mem_append,
        List.map_singleton, List.mem_singleton]
      tauto

/-- A run that does not go on from a checkpoint. -/
def Attempt.Fresh (a : Attempt) (disk : CarveDisk) : Prop :=
  a.opts.resume = false ∨ a.opts.checkpoint = false ∨ disk.checkpoint = none

theorem Attempt.Fresh.start (h : a.Fresh disk) :
    a.start src disk = ⟨a.opts.first src, a.opts.first src, 0, disk.checkpoint,
      { seen := a.seed, folder := disk.folder, log := disk.log }⟩ := by
  have hnone : resumeFrom a.opts disk = none := by
    unfold resumeFrom
    rcases h with h | h | h
    · simp [h]
    · simp [h]
    · simp [h]
  unfold Attempt.start startState
  rw [hnone]

theorem Distinct.kept (hdedup : a.opts.dedup = true) (hfresh : a.Fresh disk) :
    a.Kept b fmt src disk (fun _ c => Distinct a.seed c) fun _ c => Distinct a.seed c where
  mono _ _ _ _ h := h
  scanned _ _ _ h := ⟨h.nodup, h.fresh, h.seen⟩
  next _ _ _ _ _ _ h hj := h.judge hdedup hj
  full _ _ _ _ _ _ h hj := h.judge hdedup hj
  weaken _ _ h := h
  start := by
    rw [hfresh.start]
    exact ⟨List.nodup_nil, fun f hf => absurd hf List.not_mem_nil, fun d => by simp⟩

theorem Attempt.Ends.distinct {t : CarveState} (hdedup : a.opts.dedup = true) (hfresh : a.Fresh disk)
    (h : a.Ends b fmt src disk t) : Distinct a.seed t.carving := by
  obtain ⟨p, -, hp⟩ := (Distinct.kept hdedup hfresh).ends h
  exact hp

end Distinct

end Unearth
