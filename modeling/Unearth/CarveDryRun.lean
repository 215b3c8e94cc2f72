import Unearth.CarveRun
import Unearth.Lib.Numerals
import Unearth.ScanPair
import Unearth.Slices

/-!
# The preview of a carve

A preview reads, hashes and counts what a carve does, and writes nothing. In a folder that
was empty, a carve finds every name free that it asks for: the number of the files so far
is a part of the name, and it only grows. So the two come to the same rows.
-/

namespace Unearth
open Lines Decimal Hex Bytes Word Loop

/-- The options of a carve without a checkpoint, or of its preview. -/
abbrev CarveOptions.preview (opts : CarveOptions) (dryRun : Bool) : CarveOptions :=
  { opts with checkpoint := false, dryRun }

section Names

theorem ne_underscore_of_mem_pad {n : ℕ} {c : Char} (h : c ∈ pad 8 (decimal n)) : c ≠ '_' := by
  rintro rfl
  exact absurd (isDigit_of_mem_pad h) (by decide)

theorem takeWhile_outputName (n fileStart : ℕ) (ext : Text) :
    (outputName n fileStart ext).takeWhile (· ≠ '_') = pad 8 (decimal n) := by
  unfold outputName
  rw [List.takeWhile_append_of_pos fun c hc => by simpa using ne_underscore_of_mem_pad hc]
  simp

/-- The number in a name is the one of the file. -/
theorem outputName_number {m n fileStart fileStart' : ℕ} {ext ext' : Text}
    (h : outputName m fileStart ext = outputName n fileStart' ext') : m = n := by
  have hpad := congrArg (List.takeWhile (· ≠ '_')) h
  rw [takeWhile_outputName, takeWhile_outputName] at hpad
  have hdigits := congrArg (fun t => Nat.ofDigitChars 10 t 0) hpad
  simpa only [ofDigitChars_pad, ofDigitChars_decimal] using hdigits

theorem dot_mem_outputName (n fileStart : ℕ) (ext : Text) : '.' ∈ outputName n fileStart ext := by
  simp [outputName]

theorem classifyZip_noDot {head : List UInt8} {ext : Text} (h : classifyZip head = some ext) :
    '.' ∉ ext := by
  unfold classifyZip at h
  split_ifs at h <;> cases h <;> decide

theorem classifyCfbf_noDot {head : List UInt8} {ext : Text} (h : classifyCfbf head = some ext) :
    '.' ∉ ext := by
  unfold classifyCfbf at h
  split_ifs at h <;> cases h <;> decide

theorem effectiveExt_noDot {src : Source} {sig : Signature} {fileStart len : ℕ} {ext : Text}
    (h : effectiveExt src sig fileStart len = .ok ext) : '.' ∉ ext := by
  unfold effectiveExt at h
  split_ifs at h
  · cases h
    intro hdot
    exact absurd (sig.wellFormed.ext_chars _ hdot) (by decide)
  · obtain ⟨head, -, h⟩ := exec_bind_ok h
    cases h
    cases hc : classifyCfbf head with
    | none => decide
    | some ext => exact classifyCfbf_noDot hc
  · obtain ⟨head, -, h⟩ := exec_bind_ok h
    cases h
    cases hc : classifyZip head with
    | none => decide
    | some ext => exact classifyZip_noDot hc

end Names

/-- An entry of a folder that only files before the `n`-th were written to. -/
def Placed (n : ℕ) : Path × Node → Prop
  | (path, .dir) => ∀ comp ∈ path, '.' ∉ comp
  | (path, .file _) => ∃ m < n, ∃ fileStart ext, path.getLast? = some (outputName m fileStart ext)
  | (_, .link) => False

section Placing

variable {n fileStart : ℕ} {ext : Text} {folder : Folder} {dir : Path}

theorem Placed.mono {m : ℕ} {e : Path × Node} (h : Placed n e) (hle : n ≤ m) : Placed m e := by
  obtain ⟨path, content | _ | _⟩ := e
  · obtain ⟨k, hk, hlast⟩ := h
    exact ⟨k, hk.trans_le hle, hlast⟩
  · exact h
  · exact h

theorem mem_of_lookup_some {path : Path} {node : Node} (h : folder.lookup path = some node) :
    (path, node) ∈ folder := by
  obtain ⟨e, he, rfl⟩ := Option.map_eq_some_iff.mp h
  have hpath : e.1 = path := by simpa using List.find?_some he
  rw [← hpath]
  exact List.mem_of_find?_eq_some he

/-- A name without a dot is none of a file. -/
theorem lookup_dir {path : Path} {comp : Text} {node : Node} (h : ∀ e ∈ folder, Placed n e)
    (hdot : '.' ∉ comp) (hl : folder.lookup (path ++ [comp]) = some node) : node = .dir := by
  have hplaced := h _ (mem_of_lookup_some hl)
  cases node with
  | dir => rfl
  | link => exact absurd hplaced id
  | file content =>
    obtain ⟨m, -, fileStart, ext, hlast⟩ := hplaced
    rw [List.getLast?_concat] at hlast
    exact absurd (Option.some.inj hlast ▸ dot_mem_outputName m fileStart ext) hdot

theorem createParents_placed {done : Path} (h : ∀ e ∈ folder, Placed n e)
    (hdone : ∀ comp ∈ done, '.' ∉ comp) (hdir : ∀ comp ∈ dir, '.' ∉ comp) :
    ∃ folder', folder.createParents done dir = .ok folder' ∧ ∀ e ∈ folder', Placed n e := by
  induction dir generalizing done folder with
  | nil => exact ⟨folder, rfl, h⟩
  | cons comp rest ih =>
    have hcomp : '.' ∉ comp := hdir _ (.head _)
    have hrest : ∀ c ∈ rest, '.' ∉ c := fun c hc => hdir c (.tail _ hc)
    have hpath : ∀ c ∈ done ++ [comp], '.' ∉ c := by
      intro c hc
      rcases List.mem_append.mp hc with hc | hc
      · exact hdone c hc
      · exact List.mem_singleton.mp hc ▸ hcomp
    unfold Folder.createParents
    dsimp only
    cases hl : folder.lookup (done ++ [comp]) with
    | none =>
      refine ih (fun e he => ?_) hpath hrest
      rcases List.mem_append.mp he with he | he
      · exact h e he
      · obtain rfl := List.mem_singleton.mp he
        exact hpath
    | some node =>
      obtain rfl := lookup_dir h hcomp hl
      exact ih h hpath hrest

/-- The name of the `n`-th file is free. -/
theorem lookup_next (h : ∀ e ∈ folder, Placed n e) :
    folder.lookup (dir ++ [outputName n fileStart ext]) = none := by
  cases hl : folder.lookup (dir ++ [outputName n fileStart ext]) with
  | none => rfl
  | some node =>
    have hplaced := h _ (mem_of_lookup_some hl)
    cases node with
    | link => exact absurd hplaced id
    | dir =>
      have hmem := List.mem_append_right dir (List.mem_singleton_self (outputName n fileStart ext))
      exact absurd (dot_mem_outputName n fileStart ext) (hplaced _ hmem)
    | file content =>
      obtain ⟨m, hm, fileStart', ext', hlast⟩ := hplaced
      rw [List.getLast?_concat] at hlast
      have hnumber := outputName_number (Option.some.inj hlast)
      omega

theorem confine_output (hdir : ∀ comp ∈ dir, comp ≠ [] ∧ '.' ∉ comp) :
    confine (dir ++ [outputName n fileStart ext]) = dir ++ [outputName n fileStart ext] := by
  refine List.filter_eq_self.mpr fun comp hc => ?_
  rw [decide_eq_true_eq]
  rcases List.mem_append.mp hc with hc | hc
  · obtain ⟨hne, hdot⟩ := hdir comp hc
    exact ⟨hne, fun he => hdot (by simp [he]), fun he => hdot (by simp [he])⟩
  · obtain rfl := List.mem_singleton.mp hc
    have hunder : '_' ∈ outputName n fileStart ext := by simp [outputName]
    refine ⟨List.ne_nil_of_mem hunder, fun he => ?_, fun he => ?_⟩
    · exact absurd (he ▸ hunder) (by decide)
    · exact absurd (he ▸ hunder) (by decide)

/-- The `n`-th file gets the name that it asks for. -/
theorem createOutputFile_next (h : ∀ e ∈ folder, Placed n e)
    (hdir : ∀ comp ∈ dir, comp ≠ [] ∧ '.' ∉ comp) :
    ∃ folder', createOutputFile folder (dir ++ [outputName n fileStart ext]) =
        .ok (dir ++ [outputName n fileStart ext],
          folder' ++ [(dir ++ [outputName n fileStart ext], .file [])]) ∧
      ∀ e ∈ folder', Placed n e := by
  obtain ⟨folder', hparents, hplaced⟩ :=
    createParents_placed h (fun comp hc => absurd hc List.not_mem_nil) fun comp hc => (hdir comp hc).2
  refine ⟨folder', ?_, hplaced⟩
  have hfree : folder'.freeName dir (outputName n fileStart ext) =
      some (dir ++ [outputName n fileStart ext]) := by
    unfold Folder.freeName
    rw [List.range_succ_eq_map, List.map_cons, List.find?_cons_of_pos]
    · rfl
    · simpa [Folder.numbered] using lookup_next hplaced
  unfold createOutputFile
  rw [confine_output hdir, if_neg (by simp)]
  simp only [List.dropLast_concat, List.getLastD_concat, hparents, exec_ok_bind, hfree]
  rfl

theorem fill_placed {path : Path} {content : List UInt8} (h : ∀ e ∈ folder, Placed n e)
    (hlast : path.getLast? = some (outputName n fileStart ext)) :
    ∀ e ∈ (folder ++ [(path, Node.file [])] : Folder).fill path content, Placed (n + 1) e := by
  intro e he
  obtain ⟨e', he', rfl⟩ := List.mem_map.mp he
  split_ifs with hpath
  · exact ⟨n, Nat.lt_succ_self n, fileStart, ext, hlast⟩
  · rcases List.mem_append.mp he' with he' | he'
    · exact (h _ he').mono (Nat.le_succ n)
    · exact absurd (congrArg Prod.fst (List.mem_singleton.mp he')) hpath

theorem remove_placed {path : Path} {content : List UInt8} (h : ∀ e ∈ folder, Placed n e) :
    ∀ e ∈ ((folder ++ [(path, Node.file [])] : Folder).fill path content).remove path, Placed n e := by
  intro e he
  obtain ⟨he, hne⟩ := List.mem_filter.mp he
  obtain ⟨e', he', rfl⟩ := List.mem_map.mp he
  split_ifs at hne ⊢ with hpath
  · simp at hne
  · rcases List.mem_append.mp he' with he' | he'
    · exact h _ he'
    · exact absurd (congrArg Prod.fst (List.mem_singleton.mp he')) hpath

end Placing

/-- The variables of a preview and of its carve before position `p`. There are fewer files than
positions, so that the number of the files is never taken up again. -/
structure Previewed (p : ℕ) (c d : Carving) : Prop where
  stats : c.stats = d.stats
  skipUntil : c.skipUntil = d.skipUntil
  seen : c.seen = d.seen
  count : d.stats.filesRecovered ≤ p
  placed : ∀ e ∈ d.folder, Placed d.stats.filesRecovered e

section Steps

variable {b : Build} {fmt : Formats} {src : Source} {opts : CarveOptions} {scanEnd p : ℕ}
  {c d : Carving}

theorem Previewed.mono {q : ℕ} (h : Previewed p c d) (hle : p ≤ q) : Previewed q c d :=
  ⟨h.stats, h.skipUntil, h.seen, h.count.trans hle, h.placed⟩

theorem skipPast_preview (h : Previewed p c d) (sig : Signature) (fileStart len : ℕ) :
    ExecRel (Previewed p) (skipPast b (opts.preview true) sig fileStart len c)
      (skipPast b (opts.preview false) sig fileStart len d) := by
  unfold skipPast
  dsimp only
  by_cases hskip : (!opts.allowNested && !sig.isVolume) = true
  · rw [if_pos hskip, if_pos hskip]
    apply ExecRel.bind_same
    intro skipUntil
    exact .ok ⟨h.stats, rfl, h.seen, h.count, h.placed⟩
  · rw [if_neg hskip, if_neg hskip]
    exact .ok h

/-- The preview says what the file would be called, and the carve calls it that. -/
theorem openOutput_preview {n fileStart : ℕ} {ext : Text} {folder folder' : Folder} (hne : ext ≠ [])
    (hdot : '.' ∉ ext) (h : ∀ e ∈ folder, Placed n e) :
    ∃ path folder₁, openOutput (opts.preview true) folder' (outputPath (opts.preview true) n fileStart ext) =
        .ok (path, folder') ∧
      openOutput (opts.preview false) folder (outputPath (opts.preview false) n fileStart ext) =
        .ok (path, folder₁ ++ [(path, .file [])]) ∧
      path.getLast? = some (outputName n fileStart ext) ∧ ∀ e ∈ folder₁, Placed n e := by
  obtain ⟨dir, hdir, hpath⟩ : ∃ dir : Path, (∀ comp ∈ dir, comp ≠ [] ∧ '.' ∉ comp) ∧
      ∀ dryRun, outputPath (opts.preview dryRun) n fileStart ext = dir ++ [outputName n fileStart ext] := by
    by_cases ho : opts.organize = true
    · exact ⟨[ext], by simpa using ⟨hne, hdot⟩, fun dryRun => if_pos ho⟩
    · exact ⟨[], by simp, fun dryRun => if_neg ho⟩
  obtain ⟨folder₁, hcreate, hplaced⟩ := @createOutputFile_next n fileStart ext folder dir h hdir
  refine ⟨dir ++ [outputName n fileStart ext], folder₁, ?_, ?_, List.getLast?_concat, hplaced⟩
  · rw [hpath]
    have hconfine := @confine_output n fileStart ext dir hdir
    simp only [openOutput, if_true, hconfine]
    rfl
  · rw [hpath]
    exact hcreate

theorem tick_count {n : ℕ} (hn : n ≤ p) (hp : p < 2 ^ 63) : tick n = n + 1 := by
  unfold tick wrapAdd
  omega

theorem filesRecovered_count (s : CarveStats) (conf : Confidence) (f : CarvedFile) :
    ((s.countConfidence conf).record f).filesRecovered = s.filesRecovered := by
  cases conf <;> rfl

theorem writeFile_preview (h : Previewed p c d) (hp : p < 2 ^ 63) (sig : Signature)
    (fileStart len : ℕ) (confidence : Confidence) :
    ExecRel (fun x y => Previewed (p + 1) x.1 y.1 ∧ x.2 = y.2)
      (writeFile b fmt src (opts.preview true) sig fileStart len confidence c)
      (writeFile b fmt src (opts.preview false) sig fileStart len confidence d) := by
  unfold writeFile
  cases hext : effectiveExt src sig fileStart len with
  | error f => exact .error f
  | ok ext =>
    obtain ⟨path, folder, hdry, hreal, hlast, hplaced⟩ := @openOutput_preview opts
      d.stats.filesRecovered fileStart ext d.folder c.folder (effectiveExt_token hext).1
      (effectiveExt_noDot hext) h.placed
    rw [exec_ok_bind, exec_ok_bind, h.stats, hdry, hreal, exec_ok_bind, exec_ok_bind]
    apply ExecRel.bind_same
    rintro ⟨remaining, content⟩
    simp only [h.seen, if_true, Bool.false_eq_true, if_false]
    by_cases hdup : opts.dedup = true ∧ fmt.sha256 content ∈ d.seen
    · rw [if_pos hdup, if_pos hdup]
      exact .ok ⟨⟨rfl, h.skipUntil, rfl, h.count.trans (Nat.le_succ p), remove_placed hplaced⟩, rfl⟩
    · rw [if_neg hdup, if_neg hdup]
      apply ExecRel.bind_same
      intro bytes
      refine .ok ⟨⟨rfl, h.skipUntil, rfl, ?_, ?_⟩, rfl⟩
      · rw [filesRecovered_count, tick_count h.count hp]
        exact Nat.succ_le_succ h.count
      · rw [filesRecovered_count, tick_count h.count hp]
        exact fill_placed hplaced hlast

/-- A match of the preview and of the carve. -/
theorem candidate_preview (h : Previewed p c d) (hp : p < 2 ^ 63) (sig : Signature) (q : ℕ) :
    ExecRel (fun x y => Previewed (p + 1) x.1 y.1 ∧ x.2 = y.2)
      (candidate b fmt src (opts.preview true) scanEnd sig q c)
      (candidate b fmt src (opts.preview false) scanEnd sig q d) := by
  have hstay : Previewed (p + 1) c d := h.mono (Nat.le_succ p)
  have heligible : eligible (opts.preview true) sig q c.skipUntil =
      eligible (opts.preview false) sig q d.skipUntil := by
    rw [h.skipUntil]
    rfl
  unfold candidate
  rw [heligible]
  cases eligible (opts.preview false) sig q d.skipUntil with
  | none => exact .ok ⟨hstay, rfl⟩
  | some fileStart =>
    apply ExecRel.bind_same
    rintro (_ | len)
    · exact .ok ⟨hstay, rfl⟩
    · dsimp only
      split_ifs
      · exact .ok ⟨hstay, rfl⟩
      · have hcount : Previewed p
            { c with stats := { c.stats with skippedLarge := tick c.stats.skippedLarge } }
            { d with stats := { d.stats with skippedLarge := tick d.stats.skippedLarge } } :=
          ⟨by rw [h.stats], h.skipUntil, h.seen, h.count, h.placed⟩
        apply (skipPast_preview hcount sig fileStart len).bind
        intro c' d' h'
        exact .ok ⟨⟨h'.stats, h'.skipUntil, h'.seen, h'.count.trans (Nat.le_succ p), h'.placed⟩, rfl⟩
      · apply ExecRel.bind_same
        intro validity
        split_ifs
        · exact .ok ⟨⟨by rw [h.stats], h.skipUntil, h.seen, h.count.trans (Nat.le_succ p), h.placed⟩, rfl⟩
        · apply (writeFile_preview h hp sig fileStart len _).bind
          rintro ⟨c₁, outcome⟩ ⟨d₁, outcome'⟩ ⟨h₁, rfl⟩
          apply (skipPast_preview h₁ sig fileStart len).bind
          intro c₂ d₂ h₂
          refine .ok ⟨⟨h₂.stats, h₂.skipUntil, h₂.seen, h₂.count, h₂.placed⟩, ?_⟩
          rw [h₂.stats]

theorem visit_preview (h : Previewed p c d) (hp : p < 2 ^ 63) (sig : Signature) :
    Ctl.Rel (Previewed (p + 1)) (ExecRel fun c d => c.stats = d.stats)
      (visit b fmt src (opts.preview true) scanEnd p sig c)
      (visit b fmt src (opts.preview false) scanEnd p sig d) := by
  have hc := @candidate_preview b fmt src opts scanEnd p c d h hp sig p
  unfold visit
  generalize candidate b fmt src (opts.preview true) scanEnd sig p c = x at hc ⊢
  generalize candidate b fmt src (opts.preview false) scanEnd sig p d = y at hc ⊢
  cases hc with
  | error f => exact .done (.error f)
  | @ok x y hxy =>
    obtain ⟨c', full⟩ := x
    obtain ⟨d', full'⟩ := y
    obtain ⟨h', rfl⟩ := hxy
    cases full with
    | false => exact .next h'
    | true => exact .done (.ok h'.stats)

/-- What a run reports when it ends. -/
def report (r : Exec CarveState) : Exec CarveStats := r.map fun t => t.carving.stats

theorem carveBody_preview {cancelled : ℕ → Bool} {sc : Scanner} {s t : CarveState} (habs : s.abs = t.abs)
    (hpolls : s.polls = t.polls) (h : Previewed s.abs s.carving t.carving) :
    Ctl.Rel (fun s t => s.abs = t.abs ∧ s.polls = t.polls ∧ Previewed s.abs s.carving t.carving)
      (fun r k => report r = report k)
      (carveBody b fmt src (opts.preview true) cancelled sc s)
      (carveBody b fmt src (opts.preview false) cancelled sc t) := by
  have hstop : opts.stop src ≤ src.size := min_le_right _ _
  have hsize : src.size < 2 ^ 63 := src.size_lt
  have hdone : report (.ok (s.save src (opts.preview true))) =
      report (.ok (t.save src (opts.preview false))) := by
    simp only [report, Except.map, save_carving, h.stats]
  have hscan : s.abs < opts.stop src →
      ScannedPair Previewed (fun c d => c.stats = d.stats)
        (scanChunk b src sc ((opts.preview true).stop src)
          (visit b fmt src (opts.preview true) ((opts.preview true).stop src)) s.abs s.carving)
        (scanChunk b src sc ((opts.preview false).stop src)
          (visit b fmt src (opts.preview false) ((opts.preview false).stop src)) s.abs t.carving) := by
    intro hlt
    refine scanChunk_pair (fun _ _ _ _ hle h => h.mono hle) (fun q sig c d _ hq h => ?_) h
    have hq : q < s.abs + (opts.stop src - s.abs) := hq
    exact visit_preview h (by omega) sig
  unfold carveBody
  rw [← habs, ← hpolls]
  by_cases hlt : s.abs < opts.stop src
  · have hscan := hscan hlt
    rw [if_pos (show s.abs < (opts.preview true).stop src from hlt),
      if_pos (show s.abs < (opts.preview false).stop src from hlt)]
    split_ifs
    · exact .done hdone
    · generalize scanChunk b src sc ((opts.preview true).stop src)
        (visit b fmt src (opts.preview true) ((opts.preview true).stop src)) s.abs s.carving = x
        at hscan ⊢
      generalize scanChunk b src sc ((opts.preview false).stop src)
        (visit b fmt src (opts.preview false) ((opts.preview false).stop src)) s.abs t.carving = y
        at hscan ⊢
      cases hscan with
      | advance abs h' =>
        refine .next ⟨by rw [advance_abs, advance_abs], by rw [advance_polls, advance_polls, hpolls], ?_⟩
        rw [advance_abs, advance_carving, advance_carving]
        exact ⟨by rw [h'.stats]; rfl, h'.skipUntil, h'.seen, h'.count, h'.placed⟩
      | empty => exact .done hdone
      | exit h' =>
        cases h' with
        | error f => exact .done rfl
        | ok h' =>
          refine .done ?_
          simp only [report, Except.map, save_carving, h']
  · rw [if_neg (show ¬ s.abs < (opts.preview true).stop src from hlt),
      if_neg (show ¬ s.abs < (opts.preview false).stop src from hlt)]
    exact .done hdone

end Steps

/-- A preview reports what the carve does: the same statistics and the same rows. -/
theorem preview_report (b : Build) (fmt : Formats) (src : Source) (active : List Signature)
    (opts : CarveOptions) (cancelled : ℕ → Bool) (seed : List Digest) (saved : Option Text) (fuel : ℕ) :
    (carve b fmt src active (opts.preview true) cancelled seed ⟨saved, [], []⟩ fuel).map report =
      (carve b fmt src active (opts.preview false) cancelled seed ⟨saved, [], []⟩ fuel).map report := by
  have hnone : ∀ dryRun, resumeFrom (opts.preview dryRun) ⟨saved, [], []⟩ = none := fun dryRun =>
    if_neg fun hr => Bool.false_ne_true hr.2
  unfold carve
  cases Scanner.build b active SCAN_CHUNK with
  | error f => rfl
  | ok sc =>
    refine run_pair (R := fun s t => s.abs = t.abs ∧ s.polls = t.polls ∧
      Previewed s.abs s.carving t.carving) (fun s t h => carveBody_preview h.1 h.2.1 h.2.2) fuel ?_
    unfold startState
    rw [hnone, hnone]
    exact ⟨rfl, rfl, rfl, rfl, rfl, Nat.zero_le _, fun e he => absurd he List.not_mem_nil⟩

end Unearth
