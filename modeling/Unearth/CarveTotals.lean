import Unearth.CarveRange
import Unearth.Slices

/-!
# The totals of a carve

Every file that a run recovers is counted four times: among the files, under its grade,
under its type and by its bytes. The sums agree as long as no counter is full and no row is
lost in a checkpoint. What the runs over several regions add up to leaves the grades out.
-/

namespace Unearth
open Lines Word Loop

/-- The totals of a tally are those of its rows. -/
structure Totals (s : CarveStats) : Prop where
  rows : s.filesRecovered = s.files.length
  grades : s.filesRecovered = s.verified + s.plausible_ + s.truncated
  types : s.filesRecovered = finsum s.perType
  bytes : s.bytesRecovered = (s.files.map CarvedFile.size).sum
  counted : ∀ ext, s.perType ext = s.files.countP (·.ext = ext)

section Sums

theorem countP_ext (files : List CarvedFile) (ext : Text) :
    files.countP (·.ext = ext) = (files.map CarvedFile.ext).count ext := by
  rw [List.count_eq_countP, List.countP_map]
  refine List.countP_congr fun f _ => ?_
  simp

/-- Every row is of one type. -/
theorem finsum_perType {s : CarveStats} (h : ∀ ext, s.perType ext = s.files.countP (·.ext = ext)) :
    finsum s.perType = s.files.length := by
  have hcount : s.perType = fun ext => (s.files.map CarvedFile.ext).count ext :=
    funext fun ext => (h ext).trans (countP_ext s.files ext)
  have hsupport : Function.support s.perType ⊆ (s.files.map CarvedFile.ext).toFinset := by
    intro ext hext
    rw [hcount] at hext
    simpa [List.count_eq_zero] using hext
  rw [finsum_eq_sum_of_support_subset _ hsupport, hcount]
  convert List.sum_toFinset_count_eq_length (s.files.map CarvedFile.ext) using 1
  · refine Finset.sum_congr rfl fun ext _ => ?_
    convert rfl
  · exact (List.length_map _).symm

theorem Totals.of {s : CarveStats} (hrows : s.filesRecovered = s.files.length)
    (hgrades : s.filesRecovered = s.verified + s.plausible_ + s.truncated)
    (hbytes : s.bytesRecovered = (s.files.map CarvedFile.size).sum)
    (hcounted : ∀ ext, s.perType ext = s.files.countP (·.ext = ext)) : Totals s :=
  ⟨hrows, hgrades, hrows.trans (finsum_perType hcounted).symm, hbytes, hcounted⟩

theorem Totals.empty : Totals {} := .of rfl rfl rfl fun _ => rfl

/-- The totals look at no other counter. -/
theorem Totals.of_same {s s' : CarveStats} (h : Totals s) (hrows : s'.filesRecovered = s.filesRecovered)
    (hverified : s'.verified = s.verified) (hmiddle : s'.plausible_ = s.plausible_)
    (htruncated : s'.truncated = s.truncated) (hbytes : s'.bytesRecovered = s.bytesRecovered)
    (htypes : s'.perType = s.perType) (hfiles : s'.files = s.files) : Totals s' := by
  refine .of ?_ ?_ ?_ fun ext => ?_
  · rw [hrows, hfiles, h.rows]
  · rw [hrows, hverified, hmiddle, htruncated, h.grades]
  · rw [hbytes, hfiles, h.bytes]
  · rw [htypes, hfiles, h.counted]

theorem Totals.scanned {s : CarveStats} (h : Totals s) (n : ℕ) : Totals { s with bytesScanned := n } :=
  h.of_same rfl rfl rfl rfl rfl rfl rfl

theorem tick_eq {n : ℕ} (h : n + 1 < 2 ^ 64) : tick n = n + 1 := Nat.mod_eq_of_lt h

/-- One more file, when neither the count of the files nor that of the bytes is full. -/
theorem Totals.recovered {b : Build} {s : CarveStats} {f : CarvedFile} {bytes : ℕ} (h : Totals s)
    (hfiles : s.filesRecovered + 1 < 2 ^ 64) (hsize : s.bytesRecovered + f.size < 2 ^ 64)
    (hbytes : plus b s.bytesRecovered f.size = .ok bytes) :
    Totals ((({ s with filesRecovered := tick s.filesRecovered, bytesRecovered := bytes } :
      CarveStats).countConfidence f.confidence).record f) := by
  rw [plus_eq hsize] at hbytes
  obtain rfl := Except.ok.inj hbytes
  have hgrades := h.grades
  have hcounted : ∀ ext, (if ext = f.ext then s.perType ext + 1 else s.perType ext) =
      (s.files ++ [f]).countP (·.ext = ext) := by
    intro ext
    rw [List.countP_append, List.countP_singleton, h.counted ext]
    by_cases he : ext = f.ext
    · simp [he]
    · simp [he, Ne.symm he]
  have hrows : tick s.filesRecovered = (s.files ++ [f]).length := by
    rw [tick_eq hfiles, h.rows, List.length_append, List.length_singleton]
  have hsum : s.bytesRecovered + f.size = ((s.files ++ [f]).map CarvedFile.size).sum := by
    rw [h.bytes, List.map_append, List.sum_append]
    rfl
  cases hconf : f.confidence with
  | verified =>
    refine .of hrows ?_ hsum hcounted
    change tick s.filesRecovered = tick s.verified + s.plausible_ + s.truncated
    rw [tick_eq hfiles, tick_eq (by omega)]
    omega
  | plausible_ =>
    refine .of hrows ?_ hsum hcounted
    change tick s.filesRecovered = s.verified + tick s.plausible_ + s.truncated
    rw [tick_eq hfiles, tick_eq (by omega)]
    omega
  | truncated =>
    refine .of hrows ?_ hsum hcounted
    change tick s.filesRecovered = s.verified + s.plausible_ + tick s.truncated
    rw [tick_eq hfiles, tick_eq (by omega)]
    omega

/-- A checkpoint whose rows all come back keeps the totals. -/
theorem Totals.restored {s : CarveStats} (h : Totals s) (hrows : ∀ f ∈ s.files, builtIn f.ext = true) :
    Totals s.restored := by
  have hfiles : s.files.filter (builtIn ·.ext) = s.files := List.filter_eq_self.mpr hrows
  unfold CarveStats.restored
  rw [hfiles]
  exact .of h.rows h.grades h.bytes fun _ => rfl

end Sums

section Runs

variable {b : Build} {fmt : Formats} {src : Source} {a : Attempt} {disk : CarveDisk}

/-- A file that is accepted at a match fits into the counters. -/
def CountFits (b : Build) (fmt : Formats) (src : Source) (a : Attempt) (q : ℕ) (sig : Signature)
    (c : Carving) : Prop :=
  ∀ fileStart len, Accepted b fmt src a.opts (a.opts.stop src) sig q c fileStart len →
    c.stats.filesRecovered + 1 < 2 ^ 64 ∧ c.stats.bytesRecovered + len < 2 ^ 64

/-- A file that is accepted at a match goes under an extension of the built-in table. -/
def TypeKept (b : Build) (fmt : Formats) (src : Source) (a : Attempt) (q : ℕ) (sig : Signature)
    (c : Carving) : Prop :=
  ∀ fileStart len, Accepted b fmt src a.opts (a.opts.stop src) sig q c fileStart len →
    ∀ ext, effectiveExt src sig fileStart len = .ok ext → builtIn ext = true

theorem Totals.judge {sig : Signature} {q : ℕ} {c c' : Carving} {full : Bool} (h : Totals c.stats)
    (hq : q < 2 ^ 64) (hfit : CountFits b fmt src a q sig c)
    (hj : a.judge b fmt src sig q c = .ok (c', full)) : Totals c'.stats := by
  rcases candidate_cases hq hj with ⟨rfl, -⟩ | ⟨_, _, outcome, stats, _, _, _, -, -, ht, -, -, -, rfl⟩
  · exact h
  · cases ht with
    | skippedLarge => exact h.of_same rfl rfl rfl rfl rfl rfl rfl
    | rejected => exact h.of_same rfl rfl rfl rfl rfl rfl rfl
    | duplicate => exact h.of_same rfl rfl rfl rfl rfl rfl rfl
    | recovered f bytes hf hstart hbytes =>
      rcases candidate_rows hj with ⟨hfiles, -⟩ | ⟨fileStart, len, row, haccepted, hrow, hfiles, -⟩
      · simp [CarveStats.record, files_countConfidence] at hfiles
      · have hlast : f = row := by
          simpa [CarveStats.record, files_countConfidence] using hfiles
        obtain ⟨remaining, content, -, hsize, -⟩ := hrow.copied
        obtain ⟨hcount, hlen⟩ := hfit fileStart len haccepted
        exact h.recovered hcount (by rw [hlast, hsize]; omega) hbytes

theorem Totals.kept (hstart : Totals (a.start src disk).carving.stats)
    (hfit : ∀ s q sig c, a.Visits b fmt src disk s q sig c → CountFits b fmt src a q sig c) :
    a.Kept b fmt src disk (fun _ c => Totals c.stats) fun _ c => Totals c.stats where
  mono _ _ _ _ h := h
  scanned _ _ n h := h.scanned n
  next s q sig c _ hv h hj := h.judge hv.lt (hfit s q sig c hv) hj
  full s q sig c _ hv h hj := h.judge hv.lt (hfit s q sig c hv) hj
  weaken _ _ h := h
  start := hstart

theorem types_judge {sig : Signature} {q : ℕ} {c c' : Carving} {full : Bool}
    (h : ∀ f ∈ c.stats.files, builtIn f.ext = true) (hkept : TypeKept b fmt src a q sig c)
    (hj : a.judge b fmt src sig q c = .ok (c', full)) : ∀ f ∈ c'.stats.files, builtIn f.ext = true := by
  intro f hf
  rcases candidate_rows hj with ⟨hfiles, -⟩ | ⟨fileStart, len, row, haccepted, hrow, hfiles, -⟩
  · exact h f (hfiles ▸ hf)
  · rw [hfiles] at hf
    rcases List.mem_append.mp hf with hf | hf
    · exact h f hf
    · obtain rfl := List.mem_singleton.mp hf
      exact hkept fileStart len haccepted _ hrow.ext

theorem types_kept (hstart : ∀ f ∈ (a.start src disk).carving.stats.files, builtIn f.ext = true)
    (hkept : ∀ s q sig c, a.Visits b fmt src disk s q sig c → TypeKept b fmt src a q sig c) :
    a.Kept b fmt src disk (fun _ c => ∀ f ∈ c.stats.files, builtIn f.ext = true)
      fun _ c => ∀ f ∈ c.stats.files, builtIn f.ext = true where
  mono _ _ _ _ h := h
  scanned _ _ _ h := h
  next s q sig c _ hv h hj := types_judge h (hkept s q sig c hv) hj
  full s q sig c _ hv h hj := types_judge h (hkept s q sig c hv) hj
  weaken _ _ h := h
  start := hstart

/-- What a run starts with: nothing, or what the checkpoint before it restores. -/
theorem Saved.start_cases {c : Carving} (h : Saved disk c) (a : Attempt) :
    (a.start src disk).carving.stats = {} ∨ (a.start src disk).carving.stats = c.stats.restored := by
  by_cases hres : a.Resumes disk
  · obtain ⟨seen, hs⟩ := @Saved.resumes src a disk c h hres
    exact .inr (congrArg Carving.stats hs)
  · have hnone : resumeFrom a.opts disk = none := if_neg fun hr => hres (.inl hr)
    left
    unfold Attempt.start startState
    rw [hnone]

/-- The matches of the runs that others go on from. -/
def Countable (b : Build) (fmt : Formats) (src : Source) (a : Attempt) (_ : CarveDisk) (q : ℕ)
    (sig : Signature) (c : Carving) : Prop :=
  CountFits b fmt src a q sig c ∧ TypeKept b fmt src a q sig c

theorem Session.totals {c : Carving}
    (h : Session b fmt src (fun _ => True) (Countable b fmt src) disk c) :
    Totals c.stats ∧ ∀ f ∈ c.stats.files, builtIn f.ext = true := by
  induction h with
  | fresh folder => exact ⟨.empty, fun f hf => absurd hf List.not_mem_nil⟩
  | @next disk c h a _ _ _ hP t ht _ _ ih =>
    obtain ⟨htotals, htypes⟩ := ih
    have hstart : Totals (a.start src disk).carving.stats ∧
        ∀ f ∈ (a.start src disk).carving.stats.files, builtIn f.ext = true := by
      rcases @Saved.start_cases src disk c h.saved a with hs | hs
      · rw [hs]
        exact ⟨.empty, fun f hf => absurd hf List.not_mem_nil⟩
      · rw [hs]
        exact ⟨htotals.restored htypes, fun f hf => htypes f (List.mem_of_mem_filter hf)⟩
    obtain ⟨p, -, hsum⟩ := (Totals.kept hstart.1 fun s q sig c hv => (hP s q sig c hv).1).leaves ht
    obtain ⟨p, -, hext⟩ := (types_kept hstart.2 fun s q sig c hv => (hP s q sig c hv).2).leaves ht
    exact ⟨hsum, hext⟩

end Runs

section Merged

variable {b : Build} {fmt : Formats} {src : Source} {active : List Signature} {opts : CarveOptions}
  {fuel : ℕ} {a : Attempt} {disk : CarveDisk}

/-- No file that the run accepts at a match is a new one. -/
def Attempt.Barren (b : Build) (fmt : Formats) (src : Source) (a : Attempt) (disk : CarveDisk) : Prop :=
  ∀ s q sig c, a.Visits b fmt src disk s q sig c → ∀ fileStart len,
    Accepted b fmt src a.opts (a.opts.stop src) sig q c fileStart len →
      Copied fmt src a.opts fileStart len c.seen

theorem Written.not_copied {sig : Signature} {fileStart len : ℕ} {seen : List Digest} {row : CarvedFile}
    (h : Written fmt src opts sig fileStart len seen row) : ¬ Copied fmt src opts fileStart len seen := by
  rintro ⟨hdedup, remaining, content, hcopy, hm⟩
  obtain ⟨remaining', content', hcopy', -, hdigest⟩ := h.copied
  rw [hcopy] at hcopy'
  cases hcopy'
  exact h.fresh hdedup (hdigest ▸ hm)

theorem Attempt.Barren.kept (h : a.Barren b fmt src disk)
    (hstart : (a.start src disk).carving.stats.files = []) :
    a.Kept b fmt src disk (fun _ c => c.stats.files = []) fun _ c => c.stats.files = [] := by
  have hjudge : ∀ s q sig c c' full, a.Visits b fmt src disk s q sig c → c.stats.files = [] →
      a.judge b fmt src sig q c = .ok (c', full) → c'.stats.files = [] := by
    intro s q sig c c' full hv hc hj
    rcases candidate_rows hj with ⟨hfiles, -⟩ | ⟨fileStart, len, row, haccepted, hrow, -, -⟩
    · exact hfiles.trans hc
    · exact absurd (h s q sig c hv fileStart len haccepted) hrow.not_copied
  exact
    { mono := fun _ _ _ _ hc => hc
      scanned := fun _ _ _ hc => hc
      next := fun s q sig c c' hv hc hj => hjudge s q sig c c' false hv hc hj
      full := fun s q sig c c' hv hc hj => hjudge s q sig c c' true hv hc hj
      weaken := fun _ _ hc => hc
      start := hstart }

/-- A tally without rows counts no file. -/
def RowsCounted (s : CarveStats) : Prop := s.files = [] → Totals s

theorem RowsCounted.kept (hstart : RowsCounted (a.start src disk).carving.stats) :
    a.Kept b fmt src disk (fun _ c => RowsCounted c.stats) fun _ c => RowsCounted c.stats := by
  have hjudge : ∀ s q sig c c' full, a.Visits b fmt src disk s q sig c → RowsCounted c.stats →
      a.judge b fmt src sig q c = .ok (c', full) → RowsCounted c'.stats := by
    intro s q sig c c' full hv hc hj hnil
    rcases candidate_cases hv.lt hj with ⟨rfl, -⟩ | ⟨_, _, _, stats, _, _, _, -, -, ht, -, -, -, rfl⟩
    · exact hc hnil
    · cases ht with
      | skippedLarge => exact (hc hnil).of_same rfl rfl rfl rfl rfl rfl rfl
      | rejected => exact (hc hnil).of_same rfl rfl rfl rfl rfl rfl rfl
      | duplicate => exact (hc hnil).of_same rfl rfl rfl rfl rfl rfl rfl
      | recovered f bytes hf hstart hbytes =>
        simp [CarveStats.record, files_countConfidence] at hnil
  exact
    { mono := fun _ _ _ _ hc => hc
      scanned := fun _ _ n hc hnil => (hc hnil).scanned n
      next := fun s q sig c c' hv hc hj => hjudge s q sig c c' false hv hc hj
      full := fun s q sig c c' hv hc hj => hjudge s q sig c c' true hv hc hj
      weaken := fun _ _ hc => hc
      start := hstart }

theorem mergeCarveStats_grades {into found merged : CarveStats}
    (h : mergeCarveStats b into found = .ok merged) :
    merged.verified = into.verified ∧ merged.plausible_ = into.plausible_ ∧
      merged.truncated = into.truncated := by
  obtain ⟨_, -, h⟩ := exec_bind_ok h
  obtain ⟨_, -, h⟩ := exec_bind_ok h
  obtain ⟨_, -, h⟩ := exec_bind_ok h
  obtain ⟨_, -, h⟩ := exec_bind_ok h
  obtain ⟨_, -, h⟩ := exec_bind_ok h
  cases h
  exact ⟨rfl, rfl, rfl⟩

theorem Totals.of_nil {s : CarveStats} (h : Totals s) (hnil : s.files = []) :
    s.filesRecovered = 0 ∧ s.bytesRecovered = 0 ∧ s.perType = fun _ => 0 := by
  refine ⟨?_, ?_, funext fun ext => ?_⟩
  · rw [h.rows, hnil, List.length_nil]
  · rw [h.bytes, hnil, List.map_nil, List.sum_nil]
  · rw [h.counted, hnil, List.countP_nil]

theorem mergeCarveStats_counted {into found merged : CarveStats}
    (h : mergeCarveStats b into found = .ok merged) (hinto : RowsCounted into)
    (hfound : RowsCounted found) : RowsCounted merged := by
  intro hnil
  have hfiles := mergeCarveStats_files h
  rw [hnil] at hfiles
  obtain ⟨hinil, hfnil⟩ := List.append_eq_nil_iff.mp hfiles.symm
  have hgrades := (hinto hinil).grades
  obtain ⟨hirows, hibytes, hitypes⟩ := (hinto hinil).of_nil hinil
  obtain ⟨hfrows, hfbytes, hftypes⟩ := (hfound hfnil).of_nil hfnil
  have hzero : plus b 0 0 = .ok 0 := plus_eq (by decide)
  unfold mergeCarveStats at h
  rw [hirows, hfrows, hibytes, hfbytes, hzero, exec_ok_bind, exec_ok_bind] at h
  obtain ⟨_, -, h⟩ := exec_bind_ok h
  obtain ⟨_, -, h⟩ := exec_bind_ok h
  obtain ⟨_, -, h⟩ := exec_bind_ok h
  cases h
  refine .of ?_ ?_ ?_ fun ext => ?_
  · rw [hnil, List.length_nil]
  · rw [← hgrades, hirows]
  · rw [hnil, List.map_nil, List.sum_nil]
  · rw [hnil, List.countP_nil]
    simp only [hitypes, hftypes, Nat.add_zero]

/-- What the runs over several regions have added up to: no file has a grade. -/
structure Ungraded (s : CarveStats) : Prop where
  grades : s.verified + s.plausible_ + s.truncated = 0
  counted : RowsCounted s

theorem Ungraded.totals_iff {s : CarveStats} (h : Ungraded s) : Totals s ↔ s.files = [] := by
  constructor
  · intro ht
    have hrows := ht.rows
    rw [ht.grades, h.grades] at hrows
    exact List.eq_nil_of_length_eq_zero hrows.symm
  · exact h.counted

theorem Ungraded.region {s s' : Regions} {region : ℕ × ℕ} (h : Ungraded s.merged)
    (hs : (scanRegion b fmt src active opts fuel s region).run = some (.ok s')) : Ungraded s'.merged := by
  obtain ⟨stop, r, t, -, rfl, ht, hmerged, -, -⟩ := scanRegion_ok hs
  obtain ⟨hv, hp, ht'⟩ := mergeCarveStats_grades hmerged
  refine ⟨by rw [hv, hp, ht', h.grades], mergeCarveStats_counted hmerged h.counted ?_⟩
  have hstart : RowsCounted ((regionRun active opts s region.1 stop
      (opts.maxFiles.map (· - s.merged.filesRecovered))).attempt.start src
      (regionRun active opts s region.1 stop
        (opts.maxFiles.map (· - s.merged.filesRecovered))).disk).carving.stats := by
    rw [(regionRun_fresh s _ _ _).start]
    exact fun _ => .empty
  obtain ⟨p, -, hcounted⟩ := (RowsCounted.kept hstart).ends ht
  exact hcounted

/-- Without a new file in a region there are no rows. -/
def Barren (b : Build) (fmt : Formats) (src : Source) (s : Regions) : Prop :=
  (∀ r ∈ s.runs, r.attempt.Barren b fmt src r.disk) → s.merged.files = []

theorem Barren.region {s s' : Regions} {region : ℕ × ℕ} (h : Barren b fmt src s)
    (hs : (scanRegion b fmt src active opts fuel s region).run = some (.ok s')) : Barren b fmt src s' := by
  obtain ⟨stop, r, t, -, rfl, ht, hmerged, hruns, -⟩ := scanRegion_ok hs
  intro hall
  rw [hruns] at hall
  have hbarren := hall _ (List.mem_append_right _ (List.mem_singleton_self _))
  have hrows := hbarren.kept (by rw [(regionRun_fresh s _ _ _).start])
  obtain ⟨p, -, hnil⟩ := hrows.ends ht
  rw [mergeCarveStats_files hmerged, h fun r hr => hall r (List.mem_append_left _ hr), hnil,
    List.nil_append]

end Merged

/-- The totals of a scan add up: in a row of runs, as long as the counters are not full and no type
is lost in a checkpoint; over the regions of the free space, as long as nothing is found. -/
theorem totals_add_up (b : Build) (fmt : Formats) (src : Source) :
    (∀ (disk : CarveDisk) (c : Carving) (a : Attempt) (t : CarveState), Session b fmt src (fun _ => True) (Countable b fmt src) disk c →
      (∀ s q sig c, a.Visits b fmt src disk s q sig c → CountFits b fmt src a q sig c) →
      a.Leaves b fmt src disk t → Totals t.carving.stats) ∧
    (∀ (active : List Signature) (opts : CarveOptions) (fuel : ℕ) (disk : CarveDisk) (s : Regions),
      (scanUnallocated b fmt src active opts fuel none disk).run = some (.ok s) →
      (∀ r ∈ s.runs, ∀ t q sig c, r.attempt.Visits b fmt src r.disk t q sig c →
        CountFits b fmt src r.attempt q sig c) → Totals s.merged) ∧
    ∀ (active : List Signature) (opts : CarveOptions) (fuel : ℕ) (regions : List (ℕ × ℕ))
      (disk : CarveDisk) (s : Regions),
      (scanUnallocated b fmt src active opts fuel (some regions) disk).run = some (.ok s) →
      ((∀ r ∈ s.runs, r.attempt.Barren b fmt src r.disk) → Totals s.merged) ∧
        (Totals s.merged ↔ s.merged.files = []) := by
  refine ⟨?_, ?_, ?_⟩
  · intro disk c a t h hfit ht
    have hstart : Totals (a.start src disk).carving.stats := by
      obtain ⟨htotals, htypes⟩ := h.totals
      rcases @Saved.start_cases src disk c h.saved a with hs | hs
      · rw [hs]
        exact .empty
      · rw [hs]
        exact htotals.restored htypes
    obtain ⟨p, -, hsum⟩ := (Totals.kept hstart hfit).leaves ht
    exact hsum
  · intro active opts fuel disk s h hfit
    unfold scanUnallocated at h
    split_ifs at h with hresume
    · cases h
    · obtain ⟨t, ht, h⟩ := fuelled_bind_ok h
      cases h
      have hfresh : Attempt.Fresh { active, opts } disk := .inl (Bool.not_eq_true _ ▸ hresume)
      have hstart : Totals (Attempt.start src { active, opts } disk).carving.stats := by
        rw [hfresh.start]
        exact .empty
      have hkept := Totals.kept hstart (hfit _ (List.mem_singleton_self _))
      obtain ⟨p, -, hsum⟩ := hkept.ends (RegionRun.ends ht)
      exact hsum
  · intro active opts fuel regions disk s h
    unfold scanUnallocated at h
    split_ifs at h with hresume
    · cases h
    · have hungraded : Ungraded s.merged := scanRegions_inv (I := fun s => Ungraded s.merged)
        (fun s region s' _ hs h => hs.region h) ⟨rfl, fun _ => .empty⟩ h
      have hbarren : Barren b fmt src s := scanRegions_inv (I := Barren b fmt src)
        (fun s region s' _ hs h => hs.region h) (fun _ => rfl) h
      exact ⟨fun hall => hungraded.counted (hbarren hall), hungraded.totals_iff⟩

/-- The matches of the cell that a run comes to. -/
theorem cell_counts {fmt : Formats} {s : CarveState} {q : ℕ} {sig : Signature} {c : Carving}
    (hv : cellAttempt.Visits .release fmt cellSource ⟨none, [], []⟩ s q sig c) :
    CountFits .release fmt cellSource cellAttempt q sig c := by
  have hlen : ∀ s q sig c fileStart len,
      cellAttempt.Visits .release fmt cellSource ⟨none, [], []⟩ s q sig c →
      Accepted .release fmt cellSource cellAttempt.opts (cellAttempt.opts.stop cellSource) sig q c
        fileStart len → len = 4 := by
    intro s q sig c fileStart len hv haccepted
    obtain rfl := List.mem_singleton.mp hv.active
    obtain ⟨limit, -, hlength⟩ := exec_bind_ok haccepted.1.2.1
    have hlength := Except.ok.inj hlength
    unfold fixedLength at hlength
    split at hlength
    · cases hlength
    · exact (Option.some.inj hlength).symm
  have hkept : cellAttempt.Kept .release fmt cellSource ⟨none, [], []⟩
      (fun p c => Totals c.stats ∧ c.stats.files.length ≤ p ∧ c.stats.bytesRecovered ≤ 4 * p)
      fun _ _ => True := by
    refine
      { mono := fun p q c hpq h => ⟨h.1, by omega, by omega⟩
        scanned := fun p c n h => ⟨h.1.scanned n, h.2.1, h.2.2⟩
        next := fun s q sig c c' hv h hj => ?_
        full := fun _ _ _ _ _ _ _ _ => trivial
        weaken := fun _ _ _ => trivial
        start := ⟨.empty, Nat.zero_le _, Nat.zero_le _⟩ }
    obtain ⟨htotals, hfiles, hbytes⟩ := h
    have hq : q < 4 := hv.bounds.2
    have hfit : CountFits .release fmt cellSource cellAttempt q sig c := by
      intro fileStart len haccepted
      rw [hlen s q sig c fileStart len hv haccepted, htotals.rows]
      omega
    have htotals' := htotals.judge hv.lt hfit hj
    rcases candidate_rows hj with ⟨hsame, -⟩ | ⟨fileStart, len, row, haccepted, hrow, hadd, -⟩
    · rw [htotals.bytes] at hbytes
      refine ⟨htotals', by rw [hsame]; omega, ?_⟩
      rw [htotals'.bytes, hsame]
      omega
    · obtain ⟨remaining, content, -, hsize, -⟩ := hrow.copied
      rw [hlen s q sig c fileStart len hv haccepted] at hsize
      rw [htotals.bytes] at hbytes
      refine ⟨htotals', ?_, ?_⟩
      · rw [hadd, List.length_append, List.length_singleton]
        omega
      · rw [htotals'.bytes, hadd, List.map_append, List.sum_append, List.map_singleton, List.sum_singleton]
        omega
  obtain ⟨htotals, hfiles, hbytes⟩ := hkept.visits hv
  have hq : q < 4 := hv.bounds.2
  intro fileStart len haccepted
  rw [hlen s q sig c fileStart len hv haccepted, htotals.rows]
  omega

theorem cell_totals : ∀ walk sha256, ∃ t,
    cellAttempt.Ends .release (unchecked walk sha256) cellSource ⟨none, [], []⟩ t ∧
      t.carving.stats.files.map CarvedFile.size = [4] ∧ Totals t.carving.stats := by
  intro walk sha256
  obtain ⟨t, hrun, hsize⟩ : ∃ t, carve .release (unchecked walk sha256) cellSource
      cellAttempt.active cellAttempt.opts cellAttempt.cancelled cellAttempt.seed ⟨none, [], []⟩ 2 =
        some (.ok t) ∧ t.carving.stats.files.map CarvedFile.size = [4] := ⟨_, rfl, rfl⟩
  have hends : cellAttempt.Ends .release (unchecked walk sha256) cellSource ⟨none, [], []⟩ t :=
    ⟨2, hrun⟩
  exact ⟨t, hends, hsize,
    (totals_add_up _ _ _).1 _ _ _ _ (.fresh []) (fun _ _ _ _ hv => cell_counts hv) (.inr hends)⟩

/-- The sums that the totals of a tally are compared with. -/
def CarveStats.sums (s : CarveStats) : ℕ × ℕ × ℕ :=
  (s.filesRecovered, s.files.length, s.verified + s.plausible_ + s.truncated)

/-- The same for the run that goes on from the checkpoint of the one before. -/
def resumedSums (fmt : Formats) : Option (ℕ × ℕ × ℕ) := do
  let first ← carve .release fmt cellSource [cellSignature] keepOptions (fun _ => false) [] {} 2
  let t ← first.toOption
  let second ← carve .release fmt cellSource [cellSignature] keepOptions (fun _ => false) [] t.disk 2
  let t ← second.toOption
  return t.carving.stats.sums

/-- The merged tally of one region has a file without a grade; a carve that is resumed counts a file
whose row did not come back. -/
theorem totals_differ :
    (∃ s, (scanUnallocated .release headFormats cellsSource [cellSignature] freeOptions 2
      (some [(0, 5)]) {}).run = some (.ok s) ∧ s.merged.sums = (1, 1, 0) ∧ ¬ Totals s.merged) ∧
    resumedSums headFormats = some (1, 0, 1) := by
  have hmerged : (scanUnallocated .release headFormats cellsSource [cellSignature] freeOptions 2
      (some [(0, 5)]) {}).run.bind (fun x => x.toOption.map fun s => s.merged.sums) = some (1, 1, 0) := by
    decide +kernel
  have hresumed : resumedSums headFormats = some (1, 0, 1) := by decide +kernel
  refine ⟨?_, hresumed⟩
  obtain ⟨x, hx, h⟩ := Option.bind_eq_some_iff.mp hmerged
  cases x with
  | error f => cases h
  | ok s =>
    have hsums : s.merged.sums = (1, 1, 0) := Option.some.inj h
    refine ⟨s, hx, hsums, fun ht => ?_⟩
    have hgrades := ht.grades
    simp only [CarveStats.sums, Prod.mk.injEq] at hsums
    omega

end Unearth
