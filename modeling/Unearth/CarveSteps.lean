import Unearth.Carve

/-!
# What a match can change

A match leaves the variables of a run alone, or it is decided: as too large, as rejected,
as a copy of an earlier file, or as a file that is written. `candidate_cases` says what
each decision changes, once; the invariants of a run are derived from it.
-/

namespace Unearth
open Lines Decimal Hex Bytes Word Loop

def NoSpace (t : Text) : Prop := ∀ c ∈ t, isWhitespace c = false

section Names

theorem NoSpace.append {s t : Text} (hs : NoSpace s) (ht : NoSpace t) : NoSpace (s ++ t) := by
  intro c hc
  rcases List.mem_append.mp hc with hc | hc
  · exact hs c hc
  · exact ht c hc

theorem NoSpace.cons {c : Char} {t : Text} (hc : isWhitespace c = false) (ht : NoSpace t) :
    NoSpace (c :: t) := by
  intro d hd
  rcases List.mem_cons.mp hd with rfl | hd
  · exact hc
  · exact ht d hd

theorem decimal_noSpace (n : ℕ) : NoSpace (decimal n) := (decimal_token n).2

theorem manifestName_noSpace {path : Path} (h : ∀ comp ∈ path, NoSpace comp) :
    NoSpace (manifestName path) := by
  induction path using manifestName.induct with
  | case1 => simp [manifestName, NoSpace]
  | case2 comp => exact h comp List.mem_cons_self
  | case3 comp rest hrest ih =>
    rw [manifestName]
    · exact (h comp List.mem_cons_self).append
        (.cons (by decide) (ih fun c hc => h c (List.mem_cons_of_mem _ hc)))
    · exact hrest

theorem manifestName_ne {path : Path} (h : ∃ comp ∈ path, comp ≠ []) : manifestName path ≠ [] := by
  induction path using manifestName.induct with
  | case1 => simp at h
  | case2 comp =>
    obtain ⟨c, hc, hne⟩ := h
    rw [List.mem_singleton] at hc
    rwa [hc] at hne
  | case3 comp rest hrest ih =>
    rw [manifestName]
    · simp
    · exact hrest

theorem numbered_noSpace {name : Text} (h : NoSpace name) (i : ℕ) :
    NoSpace (Folder.numbered name i) := by
  have heq := Folder.splitName_eq name
  unfold Folder.numbered
  split_ifs
  · exact h
  · have hsub : ∀ c ∈ (Folder.splitName name).1 ++ ((Folder.splitName name).2.elim [] ('.' :: ·)),
        isWhitespace c = false := by rwa [← heq]
    rcases hs : Folder.splitName name with ⟨stem, _ | ext⟩
    · rw [hs] at hsub
      have hstem : NoSpace stem := fun c hc => hsub c (List.mem_append_left _ hc)
      exact hstem.append (.cons (by decide) (decimal_noSpace i))
    · rw [hs] at hsub
      have hstem : NoSpace stem := fun c hc => hsub c (List.mem_append_left _ hc)
      have hext : NoSpace ext := fun c hc =>
        hsub c (List.mem_append_right _ (List.mem_cons_of_mem _ hc))
      exact hstem.append (.cons (by decide)
        ((decimal_noSpace i).append (.cons (by decide) hext)))

theorem numbered_ne {name : Text} (h : name ≠ []) (i : ℕ) : Folder.numbered name i ≠ [] := by
  unfold Folder.numbered
  split_ifs
  · exact h
  · rcases Folder.splitName name with ⟨stem, _ | ext⟩ <;> simp

theorem confine_noSpace {rel : Path} (h : ∀ comp ∈ rel, NoSpace comp) :
    ∀ comp ∈ confine rel, NoSpace comp := fun comp hc => h comp (List.mem_of_mem_filter hc)

/-- The path of a new file is made of printable names. -/
theorem createOutputFile_path {folder folder' : Folder} {rel path : Path}
    (h : createOutputFile folder rel = .ok (path, folder')) (hrel : ∀ comp ∈ rel, NoSpace comp) :
    (∀ comp ∈ path, NoSpace comp) ∧ ∃ comp ∈ path, comp ≠ [] := by
  unfold createOutputFile at h
  simp only at h
  obtain ⟨folder₁, -, h⟩ := exec_bind_ok h
  set full := if confine rel = [] then ["_recovered".toList] else confine rel with hfull
  have hall : ∀ comp ∈ full, NoSpace comp ∧ comp ≠ [] := by
    intro comp hc
    rw [hfull] at hc
    split_ifs at hc
    · rw [List.mem_singleton] at hc
      rw [hc]
      have htoken : Token "_recovered".toList := by decide
      exact ⟨htoken.2, htoken.1⟩
    · refine ⟨confine_noSpace hrel comp hc, ?_⟩
      have := List.of_mem_filter hc
      simp only [decide_eq_true_eq] at this
      exact this.1
  have hne : full ≠ [] := by
    rw [hfull]
    split_ifs with hc
    · simp
    · exact hc
  have hlast : full.getLastD [] ∈ full := by
    rw [List.getLastD_eq_getLast?, List.getLast?_eq_some_getLast hne]
    exact List.getLast_mem hne
  cases hfree : folder₁.freeName full.dropLast (full.getLastD []) with
  | none =>
    rw [hfree] at h
    cases h
  | some path' =>
    rw [hfree] at h
    cases h
    obtain ⟨i, -, rfl⟩ := List.mem_map.mp (List.mem_of_find?_eq_some hfree)
    obtain ⟨hspace, hlne⟩ := hall _ hlast
    constructor
    · intro comp hc
      rcases List.mem_append.mp hc with hc | hc
      · exact (hall comp (List.mem_of_mem_dropLast hc)).1
      · rw [List.mem_singleton] at hc
        rw [hc]
        exact numbered_noSpace hspace i
    · exact ⟨_, List.mem_append_right _ (List.mem_singleton_self _), numbered_ne hlne i⟩

theorem outputName_noSpace {ext : Text} (h : NoSpace ext) (n fileStart : ℕ) :
    NoSpace (outputName n fileStart ext) := by
  have htoken : Token "0x".toList := by decide
  have hzero : NoSpace "0x".toList := htoken.2
  have hpad : ∀ c ∈ pad 8 (decimal n), isWhitespace c = false := fun c hc =>
    pad_noSpace (decimal_noSpace n) hc
  have hhex : ∀ c ∈ pad 14 (hex fileStart), isWhitespace c = false := fun c hc =>
    pad_noSpace (fun c hc => hex_noSpace hc) hc
  exact NoSpace.append hpad (.cons (by decide)
    ((hzero.append hhex).append (.cons (by decide) h)))

theorem isWhitespace_of_extChar {c : Char} (h : extChar c = true) : isWhitespace c = false := by
  simp only [extChar, Char.isAlphanum, Char.isAlpha, Char.isUpper, Char.isLower, Char.isDigit,
    Bool.or_eq_true, Bool.and_eq_true, decide_eq_true_eq, beq_iff_eq, UInt32.le_iff_toNat_le,
    ge_iff_le] at h
  change ((((65 ≤ c.toNat ∧ c.toNat ≤ 90) ∨ (97 ≤ c.toNat ∧ c.toNat ≤ 122)) ∨
    (48 ≤ c.toNat ∧ c.toNat ≤ 57)) ∨ c = '_') ∨ c = '-' at h
  simp only [isWhitespace, Bool.or_eq_false_iff, Bool.and_eq_false_iff, decide_eq_false_iff_not,
    beq_eq_false_iff_ne]
  rcases h with (((h | h) | h) | rfl) | rfl
  · omega
  · omega
  · omega
  · decide
  · decide

theorem signature_ext_token (sig : Signature) : Token sig.ext :=
  ⟨sig.wellFormed.ext_ne, fun c hc => isWhitespace_of_extChar (sig.wellFormed.ext_chars c hc)⟩

end Names

section Writing

variable {b : Build} {fmt : Formats} {src : Source} {opts : CarveOptions} {scanEnd : ℕ}

theorem classifyZip_token {head : List UInt8} {ext : Text} (h : classifyZip head = some ext) :
    Token ext := by
  unfold classifyZip at h
  split_ifs at h <;> cases h <;> decide

theorem classifyCfbf_token {head : List UInt8} {ext : Text} (h : classifyCfbf head = some ext) :
    Token ext := by
  unfold classifyCfbf at h
  split_ifs at h <;> cases h <;> decide

theorem effectiveExt_token {sig : Signature} {fileStart len : ℕ} {ext : Text}
    (h : effectiveExt src sig fileStart len = .ok ext) : Token ext := by
  unfold effectiveExt at h
  split_ifs at h
  · cases h
    exact signature_ext_token sig
  · obtain ⟨head, -, h⟩ := exec_bind_ok h
    cases h
    cases hc : classifyCfbf head with
    | none => decide
    | some ext => exact classifyCfbf_token hc
  · obtain ⟨head, -, h⟩ := exec_bind_ok h
    cases h
    cases hc : classifyZip head with
    | none => decide
    | some ext => exact classifyZip_token hc

/-- What is copied is what the source has of the range. -/
theorem copyRange_ok {fileStart len remaining : ℕ} {content : List UInt8}
    (h : copyRange src fileStart len = .ok (remaining, content)) :
    remaining ≤ len ∧ content.length = len - remaining ∧
      content = window src.data fileStart (len - remaining) := by
  have hinv := (copyLoop src (min (max len 1) COPY_CHUNK)).eval_inv
    (I := fun p : ℕ × ℕ × List UInt8 => p.2.1 ≤ len ∧ p.1 = fileStart + (len - p.2.1) ∧
      p.2.2.length = len - p.2.1 ∧ p.2.2 = window src.data fileStart (len - p.2.1))
    (Q := fun r : Exec (ℕ × List UInt8) => ∀ remaining content, r = .ok (remaining, content) →
      remaining ≤ len ∧ content.length = len - remaining ∧
        content = window src.data fileStart (len - remaining))
    (s := (fileStart, len, [])) ?_ ?_
  · exact hinv remaining content h
  · rintro ⟨pos, rest, bytes⟩ ⟨hle, hpos, hlen, hbytes⟩
    simp only at hle hpos hlen hbytes
    simp only [copyLoop, copyBody]
    split_ifs with h0
    · cases hr : src.readAt pos (min rest (min (max len 1) COPY_CHUNK)) with
      | error f => simp [Ctl.Sat]
      | ok piece =>
        cases piece with
        | nil =>
          rintro _ _ ⟨⟩
          exact ⟨hle, hlen, hbytes⟩
        | cons byte piece =>
          have hwin := Source.readAt_ok hr
          have hpiece := congrArg List.length hwin
          rw [length_window, List.length_cons] at hpiece
          have hsum : len - (rest - (piece.length + 1)) = len - rest + (piece.length + 1) := by omega
          have hshort : byte :: piece = window src.data pos (piece.length + 1) := by
            have htake := congrArg (List.take (piece.length + 1)) hwin
            rw [List.take_of_length_le (by simp)] at htake
            rw [htake]
            simp only [window, List.take_take]
            congr 1
            omega
          refine ⟨by simp only; omega, by simp only; omega, ?_, ?_⟩
          · simp only [List.length_append, List.length_cons, hlen]
            omega
          · simp only
            rw [hsum, ← window_append_window, ← hbytes, ← hpos, ← hshort]
    · rintro _ _ ⟨⟩
      exact ⟨hle, hlen, hbytes⟩
  · simp [window]

/-- What a decision changes in the tally. -/
inductive Tallied (b : Build) (fileStart : ℕ) (s : CarveStats) : Outcome → CarveStats → Prop
  | skippedLarge : Tallied b fileStart s .skippedLarge { s with skippedLarge := tick s.skippedLarge }
  | rejected : Tallied b fileStart s .rejected { s with rejected := tick s.rejected }
  | duplicate : Tallied b fileStart s .duplicate { s with duplicates := tick s.duplicates }
  | recovered (f : CarvedFile) (bytes : ℕ) (hf : f.Printable) (hstart : f.offset = fileStart)
      (hbytes : plus b s.bytesRecovered f.size = .ok bytes) :
      Tallied b fileStart s .recovered
        ((({ s with filesRecovered := tick s.filesRecovered, bytesRecovered := bytes } :
          CarveStats).countConfidence f.confidence).record f)

/-- The content of a candidate is that of a file that was written before. -/
def Copied (fmt : Formats) (src : Source) (opts : CarveOptions) (fileStart len : ℕ)
    (seen : List Digest) : Prop :=
  opts.dedup = true ∧ ∃ remaining content, copyRange src fileStart len = .ok (remaining, content) ∧
    fmt.sha256 content ∈ seen

/-- The name of a file in its row can be printed. -/
theorem openOutput_token {filesRecovered fileStart : ℕ} {ext : Text} (hext : Token ext)
    {folder folder' : Folder} {path : Path}
    (h : openOutput opts folder (outputPath opts filesRecovered fileStart ext) =
      .ok (path, folder')) : Token (manifestName path) := by
  have hbase := outputName_noSpace hext.2 filesRecovered fileStart
  have hspace : ∀ comp ∈ outputPath opts filesRecovered fileStart ext, NoSpace comp := by
    unfold outputPath
    split_ifs
    · simpa using ⟨hext.2, hbase⟩
    · simpa using hbase
  have hmem : outputName filesRecovered fileStart ext ∈
      outputPath opts filesRecovered fileStart ext := by
    unfold outputPath
    split_ifs <;> simp
  -- no name of a file is one of those that are left out
  have hkept : outputName filesRecovered fileStart ext ∈
      confine (outputPath opts filesRecovered fileStart ext) := by
    refine List.mem_filter.mpr ⟨hmem, ?_⟩
    have hunder : '_' ∈ outputName filesRecovered fileStart ext := by simp [outputName]
    simp only [decide_eq_true_eq]
    refine ⟨?_, ?_, ?_⟩
    all_goals
      intro he
      rw [he] at hunder
      revert hunder
      decide
  unfold openOutput at h
  split_ifs at h
  · cases h
    refine ⟨manifestName_ne ⟨_, hkept, ?_⟩, manifestName_noSpace (confine_noSpace hspace)⟩
    simp [outputName]
  · obtain ⟨hall, hne⟩ := createOutputFile_path h hspace
    exact ⟨manifestName_ne hne, manifestName_noSpace hall⟩

theorem writeFile_ok {sig : Signature} {fileStart len : ℕ} {confidence : Confidence} {c c' : Carving}
    {outcome : Outcome} (hstart : fileStart < 2 ^ 64)
    (h : writeFile b fmt src opts sig fileStart len confidence c = .ok (c', outcome)) :
    ∃ stats folder seen, c' = { c with stats, folder, seen } ∧ c.seen ⊆ seen ∧
      Tallied b fileStart c.stats outcome stats ∧
      ((outcome = .duplicate ∧ Copied fmt src opts fileStart len c.seen) ∨
        (outcome = .recovered ∧ ¬ Copied fmt src opts fileStart len c.seen)) := by
  obtain ⟨ext, hext, h⟩ := exec_bind_ok h
  obtain ⟨⟨path, folder⟩, hpath, h⟩ := exec_bind_ok h
  obtain ⟨⟨remaining, content⟩, hcopy, h⟩ := exec_bind_ok h
  have hcopied : Copied fmt src opts fileStart len c.seen ↔
      opts.dedup = true ∧ fmt.sha256 content ∈ c.seen := by
    simp only [Copied, hcopy, Except.ok.injEq, Prod.mk.injEq]
    constructor
    · rintro ⟨hd, _, _, ⟨rfl, rfl⟩, hm⟩
      exact ⟨hd, hm⟩
    · rintro ⟨hd, hm⟩
      exact ⟨hd, _, _, ⟨rfl, rfl⟩, hm⟩
  have hext := effectiveExt_token hext
  have hname := openOutput_token hext hpath
  obtain ⟨hrem, hlen, hcontent⟩ := copyRange_ok hcopy
  have hsize : content.length < 2 ^ 64 := by
    have hsrc := src.size_lt
    rw [hcontent, length_window]
    omega
  simp only at h
  by_cases hdup : opts.dedup = true ∧ fmt.sha256 content ∈ c.seen
  · rw [if_pos hdup] at h
    cases h
    exact ⟨_, _, _, rfl, fun _ hx => hx, .duplicate, .inl ⟨rfl, hcopied.mpr hdup⟩⟩
  · rw [if_neg hdup] at h
    obtain ⟨bytes, hbytes, h⟩ := exec_bind_ok h
    cases h
    let row : CarvedFile :=
      { name := manifestName path, ext, offset := fileStart, size := len - remaining,
        sha256 := fmt.sha256 content,
        confidence := if 0 < remaining then .truncated else confidence }
    have hwritten : row.size < 2 ^ 64 := hlen.symm.trans_lt hsize
    have hrow : row.Printable := ⟨hname, hext, hstart, hwritten⟩
    have hseen : c.seen ⊆ if opts.dedup then insertDigest (fmt.sha256 content) c.seen else c.seen := by
      intro x hx
      split_ifs
      · exact mem_insertDigest.mpr (.inr hx)
      · exact hx
    exact ⟨_, _, _, rfl, hseen, .recovered row bytes hrow rfl hbytes,
      .inr ⟨rfl, fun hc => hdup (hcopied.mp hc)⟩⟩

end Writing

section Verdicts

variable (b : Build) (fmt : Formats) (src : Source) (opts : CarveOptions) (scanEnd : ℕ)

/-- The match is one that may be carved, and the file has a length that is asked for. -/
def Weighs (sig : Signature) (magicAbs : ℕ) (c : Carving) (fileStart len : ℕ) : Prop :=
  eligible opts sig magicAbs c.skipUntil = some fileStart ∧
    fileLength fmt.walk b src sig fileStart scanEnd = .ok (some len) ∧ opts.minSize ≤ len

def TooLarge (len : ℕ) : Prop := opts.maxSize.any (· < len) = true

/-- Whether the header of a candidate passes the check, as far as it is asked for. -/
def Passes (sig : Signature) (fileStart len : ℕ) (pass : Bool) : Prop :=
  ∃ v, validationOf fmt src sig fileStart len = .ok v ∧ (!(opts.validate && !v.accept)) = pass

/-- What a candidate is, by its length, its header and its content. -/
def Judged (sig : Signature) (c : Carving) (fileStart len : ℕ) : Outcome → Prop
  | .skippedLarge => TooLarge opts len
  | .rejected => ¬ TooLarge opts len ∧ Passes fmt src opts sig fileStart len false
  | .duplicate => ¬ TooLarge opts len ∧ Passes fmt src opts sig fileStart len true ∧
      Copied fmt src opts fileStart len c.seen
  | .recovered => ¬ TooLarge opts len ∧ Passes fmt src opts sig fileStart len true ∧
      ¬ Copied fmt src opts fileStart len c.seen

/-- Where a decision leaves the boundary. -/
def Moved (sig : Signature) (fileStart len : ℕ) (outcome : Outcome) (before after : ℕ) : Prop :=
  if outcome = .rejected ∨ opts.allowNested = true ∨ sig.isVolume = true then after = before
  else plus b fileStart len = .ok after

end Verdicts

section Cases

variable {b : Build} {fmt : Formats} {src : Source} {opts : CarveOptions} {scanEnd : ℕ}

theorem skipPast_ok {sig : Signature} {fileStart len : ℕ} {c c' : Carving}
    (h : skipPast b opts sig fileStart len c = .ok c') {outcome : Outcome} (ho : outcome ≠ .rejected) :
    ∃ skipUntil, c' = { c with skipUntil } ∧
      Moved b opts sig fileStart len outcome c.skipUntil skipUntil := by
  unfold skipPast at h
  unfold Moved
  split_ifs at h with hs
  · obtain ⟨skipUntil, hp, h⟩ := exec_bind_ok h
    cases h
    refine ⟨skipUntil, rfl, ?_⟩
    simp only [Bool.and_eq_true, Bool.not_eq_true'] at hs
    rw [if_neg]
    · exact hp
    · simp [hs.1, hs.2, ho]
  · cases h
    refine ⟨c.skipUntil, rfl, ?_⟩
    simp only [Bool.and_eq_true, Bool.not_eq_true', not_and_or, Bool.not_eq_false] at hs
    rw [if_pos (.inr hs)]

/-- What a match can change: nothing, or what the decision about it changes. -/
theorem candidate_cases {sig : Signature} {magicAbs : ℕ} {c c' : Carving} {full : Bool}
    (hpos : magicAbs < 2 ^ 64)
    (h : candidate b fmt src opts scanEnd sig magicAbs c = .ok (c', full)) :
    (c' = c ∧ full = false) ∨
    ∃ fileStart len outcome stats skipUntil folder seen,
      Weighs b fmt src opts scanEnd sig magicAbs c fileStart len ∧
      Judged fmt src opts sig c fileStart len outcome ∧
      Tallied b fileStart c.stats outcome stats ∧
      Moved b opts sig fileStart len outcome c.skipUntil skipUntil ∧
      (full = true ↔ (outcome = .duplicate ∨ outcome = .recovered) ∧
        opts.maxFiles.any (· ≤ stats.filesRecovered) = true) ∧
      c.seen ⊆ seen ∧
      c' = ⟨stats, skipUntil, seen, folder, c.log ++ [⟨magicAbs, fileStart, len, outcome⟩]⟩ := by
  unfold candidate at h
  cases he : eligible opts sig magicAbs c.skipUntil with
  | none =>
    rw [he] at h
    cases h
    exact .inl ⟨rfl, rfl⟩
  | some fileStart =>
    rw [he] at h
    have hstart : fileStart < 2 ^ 64 := by
      simp only [eligible] at he
      split_ifs at he
      cases he
      omega
    simp only at h
    obtain ⟨o, hlen, h⟩ := exec_bind_ok h
    cases o with
    | none =>
      cases h
      exact .inl ⟨rfl, rfl⟩
    | some len =>
      simp only at h
      split_ifs at h with hmin hlarge
      · cases h
        exact .inl ⟨rfl, rfl⟩
      · obtain ⟨c₁, hskip, h⟩ := exec_bind_ok h
        cases h
        have hne : Outcome.skippedLarge ≠ .rejected := by decide
        obtain ⟨skipUntil, rfl, hmoved⟩ := skipPast_ok hskip hne
        exact .inr ⟨fileStart, len, .skippedLarge, _, skipUntil, _, _, ⟨he, hlen, not_lt.mp hmin⟩,
          hlarge, .skippedLarge, hmoved, by simp, fun _ hx => hx, rfl⟩
      · obtain ⟨validity, hv, h⟩ := exec_bind_ok h
        split_ifs at h with hreject
        · cases h
          exact .inr ⟨fileStart, len, .rejected, _, _, _, _, ⟨he, hlen, not_lt.mp hmin⟩,
            ⟨hlarge, validity, hv, by rw [hreject]; rfl⟩, .rejected, by simp [Moved], by simp,
            fun _ hx => hx, rfl⟩
        · obtain ⟨⟨c₁, outcome⟩, hwrite, h⟩ := exec_bind_ok h
          obtain ⟨c₂, hskip, h⟩ := exec_bind_ok h
          cases h
          have hpass : Passes fmt src opts sig fileStart len true :=
            ⟨validity, hv, by rw [Bool.eq_false_iff.mpr hreject]; rfl⟩
          obtain ⟨stats, folder, seen, rfl, hseen, htally, hout⟩ := writeFile_ok hstart hwrite
          have hne : outcome ≠ .rejected := by
            rcases hout with ⟨rfl, -⟩ | ⟨rfl, -⟩ <;> decide
          obtain ⟨skipUntil, rfl, hmoved⟩ := skipPast_ok hskip hne
          refine .inr ⟨fileStart, len, outcome, stats, skipUntil, folder, seen,
            ⟨he, hlen, not_lt.mp hmin⟩, ?_, htally, hmoved, ?_, hseen, rfl⟩
          · rcases hout with ⟨rfl, hc⟩ | ⟨rfl, hc⟩
            · exact ⟨hlarge, hpass, hc⟩
            · exact ⟨hlarge, hpass, hc⟩
          · rcases hout with ⟨rfl, -⟩ | ⟨rfl, -⟩ <;> simp

end Cases

end Unearth
