import Unearth.CarveRows

/-!
# Carving region by region

Both commands that carve the free space go through its regions and add up what the runs
report. `scan` hands the digests of a region on to the next one. `recover` gives every
region the digests of the files that were undeleted, and nothing else.
-/

namespace Unearth
open Lines Bytes Word Loop

/-- A computation that may fail, or still be going. -/
abbrev Fuelled := ExceptT Fault Option

theorem fuelled_bind_ok {α β : Type} {x : Fuelled α} {f : α → Fuelled β} {r : β}
    (h : (x >>= f).run = some (.ok r)) : ∃ a, x.run = some (.ok a) ∧ (f a).run = some (.ok r) := by
  cases hx : x.run with
  | none =>
    simp [ExceptT.run_bind, hx] at h
  | some y =>
    simp only [ExceptT.run_bind, hx, Option.bind_eq_bind, Option.bind_some] at h
    cases y with
    | error e => cases h
    | ok a => exact ⟨a, rfl, h⟩

/-- One run over a region, and the rows of the regions before it. -/
structure RegionRun where
  attempt : Attempt
  disk : CarveDisk
  earlier : List CarvedFile

/-- The variables of a loop over regions. The `runs` are a history variable. -/
structure Regions where
  merged : CarveStats := {}
  seen : List Digest := []
  folder : Folder := []
  runs : List RegionRun := []

def CarveStats.digests (s : CarveStats) : List Digest := s.files.map CarvedFile.sha256

section Loops

variable (b : Build) (fmt : Formats) (src : Source) (active : List Signature) (opts : CarveOptions)
  (fuel : ℕ)

/-- Accumulate the tally of one region into a running total. -/
def mergeCarveStats (into found : CarveStats) : Exec CarveStats := do
  let filesRecovered ← plus b into.filesRecovered found.filesRecovered
  let bytesRecovered ← plus b into.bytesRecovered found.bytesRecovered
  let rejected ← plus b into.rejected found.rejected
  let duplicates ← plus b into.duplicates found.duplicates
  let skippedLarge ← plus b into.skippedLarge found.skippedLarge
  return { into with
    filesRecovered, bytesRecovered, rejected, duplicates, skippedLarge
    perType := fun ext => into.perType ext + found.perType ext
    files := into.files ++ found.files }

/-- What `recover` adds up, and its rows. -/
def pushCarved (into found : CarveStats) : Exec CarveStats := do
  let filesRecovered ← plus b into.filesRecovered found.filesRecovered
  let bytesRecovered ← plus b into.bytesRecovered found.bytesRecovered
  let duplicates ← plus b into.duplicates found.duplicates
  return { into with filesRecovered, bytesRecovered, duplicates, files := into.files ++ found.files }

/-- The options of the run over one region. -/
def regionOptions (start stop : ℕ) (maxFiles : Option ℕ) : CarveOptions :=
  { opts with start, end_ := some stop, maxFiles, checkpoint := false, resume := false }

def regionRun (s : Regions) (start stop : ℕ) (maxFiles : Option ℕ) : RegionRun where
  attempt := { active, opts := regionOptions opts start stop maxFiles, seed := s.seen }
  disk := ⟨none, s.folder, []⟩
  earlier := s.merged.files

def RegionRun.carve (r : RegionRun) : Fuelled CarveState :=
  Unearth.carve b fmt src r.attempt.active r.attempt.opts r.attempt.cancelled r.attempt.seed r.disk fuel

def scanRegion (s : Regions) (region : ℕ × ℕ) : Fuelled Regions := do
  let stop ← ExceptT.mk (some (plus b region.1 region.2))
  let r := regionRun active opts s region.1 stop (opts.maxFiles.map (· - s.merged.filesRecovered))
  let t ← r.carve b fmt src fuel
  let merged ← ExceptT.mk (some (mergeCarveStats b s.merged t.carving.stats))
  return {
    merged
    seen := if opts.dedup then
        t.carving.stats.digests.foldl (fun acc h => insertDigest h acc) s.seen
      else s.seen
    folder := t.carving.folder
    runs := s.runs ++ [r] }

def scanRegions : List (ℕ × ℕ) → Regions → Fuelled Regions
  | [], s => return s
  | region :: rest, s =>
    if opts.maxFiles.any (· ≤ s.merged.filesRecovered) then return s
    else do scanRegions rest (← scanRegion b fmt src active opts fuel s region)

def recoverRegion (s : Regions) (region : ℕ × ℕ) : Fuelled Regions := do
  let stop ← ExceptT.mk (some (plus b region.1 region.2))
  let r := regionRun active opts s region.1 stop none
  let t ← r.carve b fmt src fuel
  let merged ← ExceptT.mk (some (pushCarved b s.merged t.carving.stats))
  return { s with merged, folder := t.carving.folder, runs := s.runs ++ [r] }

def recoverRegions : List (ℕ × ℕ) → Regions → Fuelled Regions
  | [], s => return s
  | region :: rest, s => do recoverRegions rest (← recoverRegion b fmt src active opts fuel s region)

/-- `scan --unallocated`; without a map of the free space it carves the whole source. -/
def scanUnallocated (regions : Option (List (ℕ × ℕ))) (disk : CarveDisk) : Fuelled Regions :=
  if opts.resume then throw .refused
  else match regions with
  | some regions => scanRegions b fmt src active opts fuel regions { folder := disk.folder }
  | none => do
    let r : RegionRun := ⟨{ active, opts }, disk, []⟩
    let t ← r.carve b fmt src fuel
    return { merged := t.carving.stats, folder := t.carving.folder, runs := [r] }

/-- The options that `recover` carves with. -/
def recoverOptions : CarveOptions :=
  { opts with
    start := 0, end_ := none, maxFiles := none, allowNested := false, validate := true, dedup := true
    checkpoint := false, resume := false }

/-- The carving of `recover`, behind an undelete pass with these digests. -/
def recoverCarve (undeleted : List (Option Digest)) (regions : Option (List (ℕ × ℕ)))
    (folder : Folder) : Fuelled Regions :=
  let seen := undeleted.filterMap id
  match regions with
  | some regions => recoverRegions b fmt src active (recoverOptions opts) fuel regions { seen, folder }
  | none => do
    let r : RegionRun := ⟨{ active, opts := recoverOptions opts, seed := seen }, ⟨none, folder, []⟩, []⟩
    let t ← r.carve b fmt src fuel
    return { merged := t.carving.stats, seen, folder := t.carving.folder, runs := [r] }

end Loops

section Inversion

variable {b : Build} {fmt : Formats} {src : Source} {active : List Signature} {opts : CarveOptions}
  {fuel : ℕ} {s s' : Regions} {region : ℕ × ℕ}

theorem RegionRun.ends {r : RegionRun} {t : CarveState} (h : (r.carve b fmt src fuel).run = some (.ok t)) :
    r.attempt.Ends b fmt src r.disk t := ⟨fuel, h⟩

theorem mergeCarveStats_files {into found merged : CarveStats}
    (h : mergeCarveStats b into found = .ok merged) : merged.files = into.files ++ found.files := by
  obtain ⟨_, -, h⟩ := exec_bind_ok h
  obtain ⟨_, -, h⟩ := exec_bind_ok h
  obtain ⟨_, -, h⟩ := exec_bind_ok h
  obtain ⟨_, -, h⟩ := exec_bind_ok h
  obtain ⟨_, -, h⟩ := exec_bind_ok h
  cases h
  rfl

theorem pushCarved_files {into found merged : CarveStats} (h : pushCarved b into found = .ok merged) :
    merged.files = into.files ++ found.files := by
  obtain ⟨_, -, h⟩ := exec_bind_ok h
  obtain ⟨_, -, h⟩ := exec_bind_ok h
  obtain ⟨_, -, h⟩ := exec_bind_ok h
  cases h
  rfl

/-- A region that was scanned: its run came to an end, and what it reported was added up. -/
theorem scanRegion_ok (h : (scanRegion b fmt src active opts fuel s region).run = some (.ok s')) :
    ∃ stop r t, plus b region.1 region.2 = .ok stop ∧
      r = regionRun active opts s region.1 stop (opts.maxFiles.map (· - s.merged.filesRecovered)) ∧
      r.attempt.Ends b fmt src r.disk t ∧
      mergeCarveStats b s.merged t.carving.stats = .ok s'.merged ∧ s'.runs = s.runs ++ [r] ∧
      s'.seen = if opts.dedup then
          t.carving.stats.digests.foldl (fun acc h => insertDigest h acc) s.seen
        else s.seen := by
  obtain ⟨stop, hstop, h⟩ := fuelled_bind_ok h
  obtain ⟨t, ht, h⟩ := fuelled_bind_ok h
  obtain ⟨merged, hmerged, h⟩ := fuelled_bind_ok h
  cases h
  exact ⟨stop, _, t, Option.some.inj hstop, rfl, RegionRun.ends ht, Option.some.inj hmerged, rfl, rfl⟩

theorem recoverRegion_ok (h : (recoverRegion b fmt src active opts fuel s region).run = some (.ok s')) :
    ∃ stop r t, plus b region.1 region.2 = .ok stop ∧ r = regionRun active opts s region.1 stop none ∧
      r.attempt.Ends b fmt src r.disk t ∧
      pushCarved b s.merged t.carving.stats = .ok s'.merged ∧ s'.runs = s.runs ++ [r] ∧
      s'.seen = s.seen := by
  obtain ⟨stop, hstop, h⟩ := fuelled_bind_ok h
  obtain ⟨t, ht, h⟩ := fuelled_bind_ok h
  obtain ⟨merged, hmerged, h⟩ := fuelled_bind_ok h
  cases h
  exact ⟨stop, _, t, Option.some.inj hstop, rfl, RegionRun.ends ht, Option.some.inj hmerged, rfl, rfl⟩

/-- What every region preserves, all of them preserve. -/
theorem scanRegions_inv {I : Regions → Prop} {regions : List (ℕ × ℕ)}
    (hstep : ∀ s region s', region ∈ regions → I s →
      (scanRegion b fmt src active opts fuel s region).run = some (.ok s') → I s') (hs : I s)
    (h : (scanRegions b fmt src active opts fuel regions s).run = some (.ok s')) : I s' := by
  induction regions generalizing s with
  | nil =>
    cases h
    exact hs
  | cons region rest ih =>
    unfold scanRegions at h
    split_ifs at h
    · cases h
      exact hs
    · obtain ⟨s₁, h₁, h⟩ := fuelled_bind_ok h
      exact ih (fun s region s' hr => hstep s region s' (.tail _ hr)) (hstep s region s₁ (.head _) hs h₁) h

theorem recoverRegions_inv {I : Regions → Prop} {regions : List (ℕ × ℕ)}
    (hstep : ∀ s region s', region ∈ regions → I s →
      (recoverRegion b fmt src active opts fuel s region).run = some (.ok s') → I s') (hs : I s)
    (h : (recoverRegions b fmt src active opts fuel regions s).run = some (.ok s')) : I s' := by
  induction regions generalizing s with
  | nil =>
    cases h
    exact hs
  | cons region rest ih =>
    obtain ⟨s₁, h₁, h⟩ := fuelled_bind_ok h
    exact ih (fun s region s' hr => hstep s region s' (.tail _ hr)) (hstep s region s₁ (.head _) hs h₁) h

end Inversion

section Digests

variable {b : Build} {fmt : Formats} {src : Source} {active : List Signature} {opts : CarveOptions}
  {fuel : ℕ}

theorem nodup_append_files {into found : List CarvedFile} (hinto : (into.map CarvedFile.sha256).Nodup)
    (hfound : (found.map CarvedFile.sha256).Nodup)
    (hnew : ∀ f ∈ found, f.sha256 ∉ into.map CarvedFile.sha256) :
    ((into ++ found).map CarvedFile.sha256).Nodup := by
  rw [List.map_append, List.nodup_append]
  refine ⟨hinto, hfound, ?_⟩
  intro d hd e he heq
  obtain ⟨f, hf, rfl⟩ := List.mem_map.mp he
  exact hnew f hf (heq ▸ hd)

theorem regionRun_fresh (s : Regions) (start stop : ℕ) (maxFiles : Option ℕ) :
    (regionRun active opts s start stop maxFiles).attempt.Fresh
      (regionRun active opts s start stop maxFiles).disk := .inl rfl

/-- The digests that are handed on are those of the rows. -/
def Threaded (s : Regions) : Prop :=
  s.merged.digests.Nodup ∧ ∀ d, d ∈ s.seen ↔ d ∈ s.merged.digests

theorem Threaded.region {s s' : Regions} {region : ℕ × ℕ} (hdedup : opts.dedup = true) (hs : Threaded s)
    (h : (scanRegion b fmt src active opts fuel s region).run = some (.ok s')) : Threaded s' := by
  obtain ⟨stop, r, t, -, rfl, ht, hmerged, -, hseen⟩ := scanRegion_ok h
  have hfiles := mergeCarveStats_files hmerged
  have hdistinct := ht.distinct hdedup (regionRun_fresh s _ _ _)
  rw [if_pos hdedup] at hseen
  constructor
  · unfold CarveStats.digests
    rw [hfiles]
    refine nodup_append_files hs.1 hdistinct.nodup fun f hf hm => ?_
    exact hdistinct.fresh f hf ((hs.2 _).mpr hm)
  · intro d
    rw [hseen, mem_foldl_insertDigest, hs.2]
    simp only [CarveStats.digests, hfiles, List.map_append, List.mem_append]

/-- No file that a region comes to write has the digest of a file of an earlier region, unless it is
a copy of one that the region knows of. -/
def RegionRun.Unrepeated (b : Build) (fmt : Formats) (src : Source) (r : RegionRun) : Prop :=
  ∀ s q sig c, r.attempt.Visits b fmt src r.disk s q sig c → ∀ fileStart len,
    Accepted b fmt src r.attempt.opts (r.attempt.opts.stop src) sig q c fileStart len →
      ¬ Copied fmt src r.attempt.opts fileStart len c.seen →
        ¬ Copied fmt src r.attempt.opts fileStart len (r.earlier.map CarvedFile.sha256)

theorem RegionRun.Unrepeated.kept {r : RegionRun} (h : r.Unrepeated b fmt src)
    (hdedup : r.attempt.opts.dedup = true) (hfresh : r.attempt.Fresh r.disk) :
    r.attempt.Kept b fmt src r.disk
      (fun _ c => ∀ f ∈ c.stats.files, f.sha256 ∉ r.earlier.map CarvedFile.sha256)
      fun _ c => ∀ f ∈ c.stats.files, f.sha256 ∉ r.earlier.map CarvedFile.sha256 := by
  have hjudge : ∀ s q sig c c' full, r.attempt.Visits b fmt src r.disk s q sig c →
      (∀ f ∈ c.stats.files, f.sha256 ∉ r.earlier.map CarvedFile.sha256) →
      r.attempt.judge b fmt src sig q c = .ok (c', full) →
        ∀ f ∈ c'.stats.files, f.sha256 ∉ r.earlier.map CarvedFile.sha256 := by
    intro s q sig c c' full hv hc hj f hf
    rcases candidate_rows hj with ⟨hfiles, -⟩ | ⟨fileStart, len, row, haccepted, hrow, hfiles, -⟩
    · exact hc f (hfiles ▸ hf)
    · rw [hfiles] at hf
      rcases List.mem_append.mp hf with hf | hf
      · exact hc f hf
      · obtain rfl := List.mem_singleton.mp hf
        obtain ⟨remaining, content, hcopy, -, hdigest⟩ := hrow.copied
        have hcopied : ∀ seen : List Digest, Copied fmt src r.attempt.opts fileStart len seen ↔
            f.sha256 ∈ seen := by
          intro seen
          simp only [Copied, hdedup, true_and, hcopy, Except.ok.injEq, Prod.mk.injEq, hdigest]
          constructor
          · rintro ⟨_, _, ⟨rfl, rfl⟩, hm⟩
            exact hm
          · intro hm
            exact ⟨_, _, ⟨rfl, rfl⟩, hm⟩
        have hstep := h s q sig c hv fileStart len haccepted
        rw [hcopied, hcopied] at hstep
        exact hstep (hrow.fresh hdedup)
  exact
    { mono := fun _ _ _ _ hc => hc
      scanned := fun _ _ _ hc => hc
      next := fun s q sig c c' hv hc hj => hjudge s q sig c c' false hv hc hj
      full := fun s q sig c c' hv hc hj => hjudge s q sig c c' true hv hc hj
      weaken := fun _ _ hc => hc
      start := by
        rw [hfresh.start]
        exact fun f hf => absurd hf List.not_mem_nil }

/-- The rows are new and distinct, as long as no region repeats a file. -/
def Separate (b : Build) (fmt : Formats) (src : Source) (seed : List Digest) (s : Regions) : Prop :=
  s.seen = seed ∧ ((∀ r ∈ s.runs, r.Unrepeated b fmt src) →
    s.merged.digests.Nodup ∧ ∀ f ∈ s.merged.files, f.sha256 ∉ seed)

theorem Separate.region {seed : List Digest} {s s' : Regions} {region : ℕ × ℕ}
    (hdedup : opts.dedup = true) (hs : Separate b fmt src seed s)
    (h : (recoverRegion b fmt src active opts fuel s region).run = some (.ok s')) :
    Separate b fmt src seed s' := by
  obtain ⟨stop, r, t, -, rfl, ht, hmerged, hruns, hseen⟩ := recoverRegion_ok h
  refine ⟨hseen.trans hs.1, fun hall => ?_⟩
  rw [hruns] at hall
  have hfiles := pushCarved_files hmerged
  have hfresh := @regionRun_fresh active opts s region.1 stop none
  have hdistinct := ht.distinct hdedup hfresh
  obtain ⟨hnodup, hnew⟩ := hs.2 fun r hr => hall r (List.mem_append_left _ hr)
  have hunrepeated := hall _ (List.mem_append_right _ (List.mem_singleton_self _))
  obtain ⟨p, -, hrows⟩ := (hunrepeated.kept hdedup hfresh).ends ht
  constructor
  · unfold CarveStats.digests
    rw [hfiles]
    exact nodup_append_files hnodup hdistinct.nodup hrows
  · intro f hf
    rw [hfiles] at hf
    rcases List.mem_append.mp hf with hf | hf
    · exact hnew f hf
    · have hseed := hdistinct.fresh f hf
      rwa [show (regionRun active opts s region.1 stop none).attempt.seed = s.seen from rfl, hs.1] at hseed

variable (b fmt src active opts fuel) in
/-- Deduplication over a run of either command. In `recover`, it is up to the regions that none of
them repeats a file of an earlier one. -/
theorem dedup_global :
    (∀ regions disk s, opts.dedup = true →
      (scanUnallocated b fmt src active opts fuel regions disk).run = some (.ok s) →
        s.merged.digests.Nodup) ∧
    ∀ undeleted regions folder s,
      (recoverCarve b fmt src active opts fuel undeleted regions folder).run = some (.ok s) →
      (regions ≠ none → ∀ r ∈ s.runs, r.Unrepeated b fmt src) →
        s.merged.digests.Nodup ∧ ∀ f ∈ s.merged.files, some f.sha256 ∉ undeleted := by
  constructor
  · intro regions disk s hdedup h
    unfold scanUnallocated at h
    split_ifs at h with hresume
    · cases h
    · cases regions with
      | some regions =>
        refine (scanRegions_inv (I := Threaded) (fun s region s' _ hs h => hs.region hdedup h) ?_ h).1
        exact ⟨List.nodup_nil, fun d => by simp [CarveStats.digests]⟩
      | none =>
        obtain ⟨t, ht, h⟩ := fuelled_bind_ok h
        cases h
        exact ((RegionRun.ends ht).distinct hdedup (.inl (Bool.not_eq_true _ ▸ hresume))).nodup
  · intro undeleted regions folder s h hall
    have hmem : ∀ d : Digest, d ∈ undeleted.filterMap id ↔ some d ∈ undeleted := by
      intro d
      simp
    simp only [← hmem]
    unfold recoverCarve at h
    cases regions with
    | some regions =>
      refine (recoverRegions_inv (I := Separate b fmt src (undeleted.filterMap id))
        (fun s region s' _ hs h => hs.region rfl h) ?_ h).2 (hall (by simp))
      exact ⟨rfl, fun _ => ⟨List.nodup_nil, fun f hf => absurd hf List.not_mem_nil⟩⟩
    | none =>
      obtain ⟨t, ht, h⟩ := fuelled_bind_ok h
      cases h
      have hdistinct := (RegionRun.ends ht).distinct rfl (.inl rfl)
      exact ⟨hdistinct.nodup, hdistinct.fresh⟩

end Digests

theorem RegionRun.unrepeated_first {b : Build} {fmt : Formats} {src : Source} {r : RegionRun}
    (h : r.earlier = []) : r.Unrepeated b fmt src := by
  intro s q sig c hv fileStart len haccepted hnew hcopied
  obtain ⟨-, remaining, content, -, hm⟩ := hcopied
  rw [h] at hm
  cases hm

theorem dedup_global_archive : sevenZipSignature ∈ signatures ∧ ∀ walk sha256, ∃ s,
    (recoverCarve .release (unchecked walk sha256) archiveSource [sevenZipSignature] keepOptions 2
        [] (some [(0, 41)]) []).run = some (.ok s) ∧
      s.merged.files.map CarvedFile.offset = [1] ∧ s.merged.digests.Nodup := by
  have htable : signatures[17]? = some sevenZipSignature := rfl
  refine ⟨List.mem_of_getElem? htable, fun walk sha256 => ?_⟩
  obtain ⟨s, hs, hoffsets, hruns⟩ : ∃ s, (recoverCarve .release (unchecked walk sha256) archiveSource
      [sevenZipSignature] keepOptions 2 [] (some [(0, 41)]) []).run = some (.ok s) ∧
      s.merged.files.map CarvedFile.offset = [1] ∧ s.runs.map RegionRun.earlier = [[]] :=
    ⟨_, rfl, rfl, rfl⟩
  refine ⟨s, hs, hoffsets, ((dedup_global _ _ _ _ _ _).2 _ _ _ _ hs fun _ r hr => ?_).1⟩
  apply RegionRun.unrepeated_first
  have hm : r.earlier ∈ s.runs.map RegionRun.earlier := List.mem_map_of_mem hr
  rw [hruns] at hm
  exact List.mem_singleton.mp hm

/-- Two archives of 40 bytes, one behind the other. -/
def twinSource : Source where
  data := archiveSource.data.drop 1 ++ archiveSource.data.drop 1
  size_lt := by decide

theorem length_headDigest (content : List UInt8) :
    ((content ++ List.replicate 32 0).take 32).length = 32 := by
  simp

/-- A digest that tells archives apart by their first 32 bytes. -/
def headDigest (content : List UInt8) : Digest :=
  ⟨(content ++ List.replicate 32 0).take 32, length_headDigest content⟩

def headFormats : Formats := unchecked (fun _ _ _ _ _ => .ok none) headDigest

/-- Where the files are that a loop over regions reports, and their digests. -/
def Regions.report (r : Fuelled Regions) : Option (List ℕ × List Digest) :=
  r.run.bind fun x => x.toOption.map fun s => (s.merged.files.map CarvedFile.offset, s.merged.digests)

theorem Regions.exists_of_report {r : Fuelled Regions} {offsets : List ℕ} {digests : List Digest}
    (h : Regions.report r = some (offsets, digests)) : ∃ s, r.run = some (.ok s) ∧
      s.merged.files.map CarvedFile.offset = offsets ∧ s.merged.digests = digests := by
  obtain ⟨x, hx, h⟩ := Option.bind_eq_some_iff.mp h
  cases x with
  | error f => cases h
  | ok s =>
    cases h
    exact ⟨s, hx, rfl, rfl⟩

/-- Each of them in a region of its own: both are carved, with one digest. -/
theorem twins_repeated : sevenZipSignature ∈ signatures ∧ ∃ s,
    (recoverCarve .release headFormats twinSource [sevenZipSignature] keepOptions 2 []
        (some [(0, 40), (40, 40)]) []).run = some (.ok s) ∧
      s.merged.files.map CarvedFile.offset = [0, 40] ∧ ¬ s.merged.digests.Nodup := by
  have htable : signatures[17]? = some sevenZipSignature := rfl
  have hreport : Regions.report (recoverCarve .release headFormats twinSource [sevenZipSignature]
      keepOptions 2 [] (some [(0, 40), (40, 40)]) []) = some ([0, 40],
        [headDigest (twinSource.data.take 40), headDigest (twinSource.data.take 40)]) := by
    decide +kernel
  obtain ⟨s, hs, hoffsets, hdigests⟩ := Regions.exists_of_report hreport
  refine ⟨List.mem_of_getElem? htable, s, hs, hoffsets, ?_⟩
  rw [hdigests]
  simp

end Unearth
