import Unearth.TriageWalk

/-!
# The summary adds up

What is counted under extensions, categories and contents is every file once. So the summary is that of the tree
exactly where its links lead to nothing but directories.
-/

namespace Unearth.Triage
open FileTree FileSystem SortedMap Word Lines

section Files

variable {identify : List UInt8 → Option Text} {files : List File}

theorem flatten_chunks {n : ℕ} (hn : 0 < n) (l : List UInt8) : (Bytes.chunks n l).flatten = l := by
  have hgo : ∀ fuel (l : List UInt8), l.length ≤ fuel → (Bytes.chunks.go n fuel l).flatten = l := by
    intro fuel
    induction fuel with
    | zero =>
      intro l hl
      rw [List.length_eq_zero_iff.mp (Nat.le_zero.mp hl)]
      rfl
    | succ fuel ih =>
      intro l hl
      cases l with
      | nil => rfl
      | cons x l =>
        have hrest : ((x :: l).drop n).length ≤ fuel := by
          rw [List.length_drop]
          omega
        rw [Bytes.chunks.go, List.flatten_cons, ih _ hrest, List.take_append_drop]
        exact List.cons_ne_nil x l
  exact hgo l.length l le_rfl

theorem size_eq (f : File) : size f = f.content.length := by
  rw [size, hashFile]
  dsimp only
  rw [← List.length_flatten, flatten_chunks (by decide)]

/-- The digest of a file is that of the standard. -/
theorem digest_eq (f : File) (h : f.content.length < 2 ^ 61) : digest f = Fips180.sha256 f.content := by
  have hpieces := flatten_chunks (n := 65536) (by decide) f.content
  rw [← hpieces] at h
  have hfinal := (Hash.finalize_updates h).2
  rw [hpieces] at hfinal
  exact hfinal

theorem totalFiles_countFile (p : Progress) (f : File) :
    (countFile identify p f).summary.totalFiles = p.summary.totalFiles + 1 := rfl

theorem foldl_fields (p : Progress) :
    (files.foldl (countFile identify) p).summary.totalFiles = p.summary.totalFiles + files.length ∧
    (files.foldl (countFile identify) p).summary.totalBytes =
      files.foldl (fun n f => satAdd n (size f)) p.summary.totalBytes ∧
    (files.foldl (countFile identify) p).summary.duplicateSets = p.summary.duplicateSets ∧
    (files.foldl (countFile identify) p).summary.duplicateBytes = p.summary.duplicateBytes ∧
    (files.foldl (countFile identify) p).summary.byType =
      files.foldl (addItem (extOf ·.path) addType) p.summary.byType ∧
    (files.foldl (countFile identify) p).byDigest = files.foldl (addItem digestKey addDigest) p.byDigest ∧
    (files.foldl (countFile identify) p).sized = p.sized ++ files.map fun f => (relText f.path, size f) := by
  induction files generalizing p with
  | nil => exact ⟨rfl, rfl, rfl, rfl, rfl, rfl, (List.append_nil _).symm⟩
  | cons f rest ih =>
    obtain ⟨hfiles, hbytes, hsets, hduplicate, htype, hdigest, hsized⟩ := ih (countFile identify p f)
    simp only [List.foldl_cons, List.length_cons, List.map_cons]
    refine ⟨?_, hbytes, hsets, hduplicate, htype, hdigest, ?_⟩
    · rw [hfiles, totalFiles_countFile]
      omega
    · rw [hsized]
      change p.sized ++ [(relText f.path, size f)] ++ _ = _
      rw [List.append_assoc, List.singleton_append]

theorem foldl_satAdd {α : Type} (w : α → ℕ) (l : List α) {n : ℕ} (h : n + (l.map w).sum < 2 ^ 64) :
    l.foldl (fun n x => satAdd n (w x)) n = n + (l.map w).sum := by
  induction l generalizing n with
  | nil => rfl
  | cons x rest ih =>
    rw [List.map_cons, List.sum_cons] at h ⊢
    rw [List.foldl_cons, satAdd_eq (by omega), ih (by omega), Nat.add_assoc]

/-- The size in the entry of a digest is that of its first file, the count that of all. -/
theorem total_addDigest (f : File) (l : List File) :
    total addDigest (f :: l) = some (l.length + 1, size f) := by
  induction l using List.reverseRecOn with
  | nil => rfl
  | append_singleton l g ih =>
    rw [← List.cons_append, total_concat, ih, addDigest, Option.getD_some, List.length_append, List.length_singleton]

end Files

section Stats

variable {ι : Type} {add : Option TypeStat → ι → TypeStat} {c w : ι → ℕ}

/-- Something is added to the count and to the bytes, as far as they go. -/
abbrev Adds (add : Option TypeStat → ι → TypeStat) (c w : ι → ℕ) : Prop :=
  ∀ entry x, add entry x = ⟨(entry.getD ⟨0, 0⟩).count + c x, satAdd (entry.getD ⟨0, 0⟩).bytes (w x)⟩

theorem total_bytes (hadd : Adds add c w) (l : List ι) (h : (l.map w).sum < 2 ^ 64) :
    ((total add l).getD ⟨0, 0⟩).bytes = (l.map w).sum := by
  induction l using List.reverseRecOn with
  | nil => rfl
  | append_singleton l x ih =>
    rw [List.map_append, List.sum_append, List.map_singleton, List.sum_singleton] at h ⊢
    rw [total_concat, Option.getD_some, hadd, ih (by omega)]
    exact satAdd_eq h

theorem sum_filter_le (l : List ι) (p : ι → Bool) (w : ι → ℕ) : ((l.filter p).map w).sum ≤ (l.map w).sum :=
  (List.filter_sublist.map w).sum_le_sum fun _ _ => Nat.zero_le _

/-- What is counted under keys is everything once. -/
theorem sums_tally {κ : Type} [LinearOrder κ] (key : ι → κ) (hadd : Adds add c w) (l : List ι)
    (h : (l.map w).sum < 2 ^ 64) : ((tally key add l).map fun e => e.2.count).sum = (l.map c).sum ∧
      ((tally key add l).map fun e => e.2.bytes).sum = (l.map w).sum := by
  constructor
  · refine sum_tally _ c fun before x behind _ a _ => ?_
    rw [hadd]
    cases a with
    | none => rfl
    | some stat => rfl
  · refine sum_tally _ w fun before x behind hsplit a ha => ?_
    have hbefore := sum_filter_le before (key · = key x) w
    rw [hsplit, List.map_append, List.sum_append, List.map_cons, List.sum_cons] at h
    rw [entry_tally] at ha
    have hbytes := total_bytes hadd (before.filter (key · = key x)) (by omega)
    rw [ha] at hbytes
    have hentry : (a.map TypeStat.bytes).getD 0 = (a.getD ⟨0, 0⟩).bytes := by
      cases a with
      | none => rfl
      | some stat => rfl
    rw [hadd, hentry, hbytes]
    exact satAdd_eq (by omega)

end Stats

section Duplicates

variable {files : List File}

/-- The key of a content in the map of digests. -/
def contentKey (content : List UInt8) : List ℕ := (hashFile content).2.1.map UInt8.toNat

theorem contentKey_inj (hsha : ∀ f ∈ files, ∀ g ∈ files, digest f = digest g → f.content = g.content)
    {x y : List UInt8} (hx : x ∈ files.map File.content) (hy : y ∈ files.map File.content)
    (h : contentKey x = contentKey y) : x = y := by
  obtain ⟨f, hf, rfl⟩ := List.mem_map.mp hx
  obtain ⟨g, hg, rfl⟩ := List.mem_map.mp hy
  exact hsha f hf g hg (List.map_injective_iff.mpr (fun _ _ => UInt8.toNat_inj.mp) h)

/-- How many times a content is among others. -/
def copies (contents : List (List UInt8)) (x : List UInt8) : ℕ := (contents.filter (· = x)).length

theorem copies_eq (x : List UInt8) : copies (files.map File.content) x = (files.filter (·.content = x)).length := by
  rw [copies, List.filter_map, List.length_map]
  rfl

theorem entry_content (hsha : ∀ f ∈ files, ∀ g ∈ files, digest f = digest g → f.content = g.content)
    {x : List UInt8} (hx : x ∈ files.map File.content) :
    entry (tally digestKey addDigest files) (contentKey x) = some (copies (files.map File.content) x, x.length) := by
  have hsame : ∀ f ∈ files, digestKey f = contentKey x ↔ decide (f.content = x) = true := by
    intro f hf
    rw [decide_eq_true_iff]
    constructor
    · exact fun h => contentKey_inj hsha (List.mem_map_of_mem hf) hx h
    · rintro rfl
      rfl
  rw [entry_tally_of hsame, copies_eq]
  cases hgroup : files.filter (·.content = x) with
  | nil =>
    obtain ⟨f, hf, hfx⟩ := List.mem_map.mp hx
    have hmem : f ∈ files.filter (·.content = x) := List.mem_filter.mpr ⟨hf, by simpa using hfx⟩
    rw [hgroup] at hmem
    cases hmem
  | cons f rest =>
    have hmem : f ∈ files.filter (·.content = x) := by
      rw [hgroup]
      exact List.mem_cons_self
    have hfx : f.content = x := by simpa using (List.mem_filter.mp hmem).2
    rw [total_addDigest, size_eq, hfx, List.length_cons]

/-- The contents, each with the number of files that have it. -/
theorem byDigest_perm (hsha : ∀ f ∈ files, ∀ g ∈ files, digest f = digest g → f.content = g.content) :
    ((tally digestKey addDigest files).map Prod.snd).Perm
      ((files.map File.content).dedup.map fun x => (copies (files.map File.content) x, x.length)) := by
  have hsorted := sorted_tally digestKey addDigest files
  have hperm : (tally digestKey addDigest files).Perm ((files.map File.content).dedup.map fun x =>
      (contentKey x, copies (files.map File.content) x, x.length)) := by
    refine (List.perm_ext_iff_of_nodup (hsorted.imp fun hlt heq => ?_) ?_).mpr fun e => ⟨fun he => ?_, fun he => ?_⟩
    · rw [heq] at hlt
      exact lt_irrefl _ hlt
    · refine List.Nodup.map_on (fun x hx y hy h => ?_) (List.nodup_dedup _)
      exact contentKey_inj hsha (List.mem_dedup.mp hx) (List.mem_dedup.mp hy) (Prod.mk.inj h).1
    · obtain ⟨k, v⟩ := e
      have hkey := mem_keys_tally.mp (List.mem_map_of_mem (f := Prod.fst) he)
      obtain ⟨f, hf, rfl⟩ := List.mem_map.mp hkey
      have hcontent : f.content ∈ files.map File.content := List.mem_map_of_mem hf
      have hlookup := entry_content hsha hcontent
      rw [show contentKey f.content = digestKey f from rfl, (entry_eq_some hsorted).mpr he] at hlookup
      refine List.mem_map.mpr ⟨f.content, List.mem_dedup.mpr hcontent, ?_⟩
      rw [← Option.some.inj hlookup]
      rfl
    · obtain ⟨x, hx, rfl⟩ := List.mem_map.mp he
      exact (entry_eq_some hsorted).mp (entry_content hsha (List.mem_dedup.mp hx))
  have hmap := hperm.map Prod.snd
  rwa [List.map_map] at hmap

/-- A sum over a list is one over its different elements. -/
theorem sum_dedup {α : Type} [DecidableEq α] (l : List α) (w : α → ℕ) :
    (l.map w).sum = (l.dedup.map fun x => (l.filter (· = x)).length * w x).sum := by
  have hfinset : l.dedup.toFinset = l.toFinset := by
    ext x
    simp
  have hcount : ∀ x, (l.filter (· = x)).length = l.count x := by
    intro x
    rw [List.count, List.countP_eq_length_filter]
    exact congrArg List.length (List.filter_congr fun y _ => (beq_eq_decide _ _).symm)
  simp only [hcount]
  rw [Finset.sum_list_map_count, ← hfinset, List.sum_toFinset _ (List.nodup_dedup l)]
  simp only [smul_eq_mul]

/-- All but one of the files of each content are redundant. -/
theorem redundant_eq (l : List (List UInt8)) :
    (l.dedup.map fun x => x.length * (copies l x - 1)).sum + (l.dedup.map List.length).sum =
      (l.map List.length).sum := by
  rw [sum_dedup l List.length, ← List.sum_map_add]
  refine congrArg List.sum (List.map_congr_left fun x hx => ?_)
  have hpos : 0 < copies l x :=
    List.length_pos_of_mem (List.mem_filter.mpr ⟨List.mem_dedup.mp hx, decide_eq_true rfl⟩)
  change x.length * (copies l x - 1) + x.length = copies l x * x.length
  obtain ⟨n, hn⟩ : ∃ n, copies l x = n + 1 := ⟨copies l x - 1, by omega⟩
  rw [hn, Nat.add_sub_cancel]
  ring

theorem foldl_addDuplicates (l : List (ℕ × ℕ)) (s : Summary)
    (h : s.duplicateBytes + (l.map fun e => e.2 * (e.1 - 1)).sum < 2 ^ 64) :
    (l.foldl addDuplicates s).duplicateSets = s.duplicateSets + (l.filter (1 < ·.1)).length ∧
    (l.foldl addDuplicates s).duplicateBytes = s.duplicateBytes + (l.map fun e => e.2 * (e.1 - 1)).sum ∧
    (l.foldl addDuplicates s).totalFiles = s.totalFiles ∧ (l.foldl addDuplicates s).totalBytes = s.totalBytes ∧
    (l.foldl addDuplicates s).byType = s.byType := by
  induction l generalizing s with
  | nil => exact ⟨rfl, rfl, rfl, rfl, rfl⟩
  | cons e rest ih =>
    rw [List.map_cons, List.sum_cons] at h
    rw [List.foldl_cons, List.map_cons, List.sum_cons]
    by_cases hmany : 1 < e.1
    · have hstep : (addDuplicates s e).duplicateBytes = s.duplicateBytes + e.2 * (e.1 - 1) := by
        rw [addDuplicates, if_pos hmany]
        dsimp only
        rw [satMul_eq (by omega), satAdd_eq (by omega)]
      have hsets : (addDuplicates s e).duplicateSets = s.duplicateSets + 1 := by rw [addDuplicates, if_pos hmany]
      have hkept : (addDuplicates s e).totalFiles = s.totalFiles ∧ (addDuplicates s e).totalBytes = s.totalBytes ∧
          (addDuplicates s e).byType = s.byType := by
        rw [addDuplicates, if_pos hmany]
        exact ⟨rfl, rfl, rfl⟩
      obtain ⟨ihSets, ihBytes, ihFiles, ihTotal, ihType⟩ := ih (addDuplicates s e) (by rw [hstep]; omega)
      rw [List.filter_cons_of_pos (by simpa using hmany), List.length_cons, ihSets, ihBytes, ihFiles, ihTotal, ihType,
        hstep, hsets]
      exact ⟨by omega, by omega, hkept⟩
    · have hsame : addDuplicates s e = s := by rw [addDuplicates, if_neg hmany]
      have hzero : e.2 * (e.1 - 1) = 0 := by rw [Nat.sub_eq_zero_of_le (by omega), Nat.mul_zero]
      rw [hsame, List.filter_cons_of_neg (by simpa using hmany), hzero, Nat.zero_add]
      exact ih s (by omega)

end Duplicates

section Exactness

theorem larger_trans (a b c : Text × ℕ) (hab : larger a b = true) (hbc : larger b c = true) : larger a c = true := by
  unfold larger at hab hbc ⊢
  rw [decide_eq_true_iff] at hab hbc ⊢
  rcases hab with hab | ⟨hab, hpath⟩
  · rcases hbc with hbc | ⟨hbc, -⟩
    · exact Or.inl (hbc.trans hab)
    · exact Or.inl (hbc ▸ hab)
  · rcases hbc with hbc | ⟨hbc, hpath'⟩
    · exact Or.inl (hab ▸ hbc)
    · exact Or.inr ⟨hbc.trans hab, hpath.trans hpath'⟩

theorem larger_total (a b : Text × ℕ) : (larger a b || larger b a) = true := by
  unfold larger
  rw [Bool.or_eq_true, decide_eq_true_iff, decide_eq_true_iff]
  rcases lt_trichotomy b.2 a.2 with h | h | h
  · exact Or.inl (Or.inl h)
  · rcases le_total a.1 b.1 with hpath | hpath
    · exact Or.inl (Or.inr ⟨h, hpath⟩)
    · exact Or.inr (Or.inr ⟨h.symm, hpath⟩)
  · exact Or.inr (Or.inl h)

/-- A summary is that of files: each is counted once, under its extension, its category and its content. -/
structure Exact (s : Summary) (files : List File) (topN : ℕ) : Prop where
  total_files : s.totalFiles = files.length
  total_bytes : s.totalBytes = (files.map fun f => f.content.length).sum
  type_files : (s.byType.map fun e => e.2.count).sum = s.totalFiles
  type_bytes : (s.byType.map fun e => e.2.bytes).sum = s.totalBytes
  category_files : (s.byCategory.map fun e => e.2.count).sum = s.totalFiles
  category_bytes : (s.byCategory.map fun e => e.2.bytes).sum = s.totalBytes
  duplicate_bytes : s.duplicateBytes = s.totalBytes - ((files.map File.content).dedup.map List.length).sum
  duplicate_sets : s.duplicateSets =
    ((files.map File.content).dedup.filter fun x => 1 < copies (files.map File.content) x).length
  largest : ∃ sorted : List (Text × ℕ), sorted.Perm (files.map fun f => (relText f.path, f.content.length)) ∧
    sorted.Pairwise (larger · · = true) ∧ s.largest = sorted.take topN

variable {identify : List UInt8 → Option Text} {files : List File}

theorem exact_finish (topN : ℕ) (hbytes : (files.map fun f => f.content.length).sum < 2 ^ 64)
    (hsha : ∀ f ∈ files, ∀ g ∈ files, digest f = digest g → f.content = g.content) :
    Exact (finish (files.foldl (countFile identify) {}) topN) files topN := by
  obtain ⟨hfiles, htotal, hsets, hduplicate, htype, hdigest, hsized⟩ :=
    @foldl_fields identify files {}
  have hsizes : files.map size = files.map fun f => f.content.length := List.map_congr_left fun f _ => size_eq f
  have hlengths : ((files.map File.content).map List.length).sum = (files.map size).sum := by
    rw [hsizes, List.map_map]
    rfl
  have hsum : (files.map size).sum < 2 ^ 64 := by rwa [hsizes]
  have hredundant := redundant_eq (files.map File.content)
  generalize files.foldl (countFile identify) {} = p at hfiles htotal hsets hduplicate htype hdigest hsized ⊢
  have hperm : (p.byDigest.map Prod.snd).Perm
      ((files.map File.content).dedup.map fun x => (copies (files.map File.content) x, x.length)) := by
    rw [hdigest]
    exact byDigest_perm hsha
  have hsurplus : ((p.byDigest.map Prod.snd).map fun e => e.2 * (e.1 - 1)).sum =
      ((files.map File.content).dedup.map fun x => x.length * (copies (files.map File.content) x - 1)).sum := by
    rw [(hperm.map fun e => e.2 * (e.1 - 1)).sum_eq, List.map_map]
    rfl
  have hnoBytes : p.summary.duplicateBytes = 0 := hduplicate
  have hnoSets : p.summary.duplicateSets = 0 := hsets
  obtain ⟨hsetsEnd, hbytesEnd, hfilesEnd, htotalEnd, htypeEnd⟩ :=
    foldl_addDuplicates (p.byDigest.map Prod.snd) p.summary (by rw [hnoBytes, hsurplus]; omega)
  have hall : (finish p topN).totalBytes = (files.map size).sum := by
    refine htotalEnd.trans (htotal.trans ?_)
    rw [foldl_satAdd size files (by change 0 + _ < _; omega)]
    exact Nat.zero_add _
  have hnumber : (finish p topN).totalFiles = files.length := hfilesEnd.trans (hfiles.trans (Nat.zero_add _))
  have htally : (finish p topN).byType = tally (extOf ·.path) addType files := htypeEnd.trans htype
  obtain ⟨hcount, hstat⟩ := @sums_tally _ addType (fun _ => 1) size _ _ (extOf ·.path) (fun _ _ => rfl) files hsum
  have hones : (files.map fun _ => 1).sum = files.length := by
    rw [List.map_const', List.sum_replicate, smul_eq_mul, Nat.mul_one]
  obtain ⟨hcategory, hcategoryBytes⟩ := @sums_tally _ addStat (fun e => e.2.count) (fun e => e.2.bytes) _ _
    (fun e : Text × TypeStat => categoryName (categoryOf e.1)) (fun _ _ => rfl)
    (tally (extOf ·.path) addType files) (by rw [hstat]; exact hsum)
  have hsorted : p.sized = files.map fun f => (relText f.path, f.content.length) := by
    rw [hsized]
    simp only [size_eq]
    exact List.nil_append _
  refine ⟨hnumber, by rw [hall, hsizes], ?_, ?_, ?_, ?_, ?_, ?_, p.sized.mergeSort larger, ?_, ?_, rfl⟩
  · rw [htally, hcount, hones, hnumber]
  · rw [htally, hstat, hall]
  · rw [Summary.byCategory, htally, hcategory, hcount, hones, hnumber]
  · rw [Summary.byCategory, htally, hcategoryBytes, hstat, hall]
  · have hduplicates : (finish p topN).duplicateBytes = _ := hbytesEnd
    rw [hduplicates, hall, hnoBytes, hsurplus]
    omega
  · have hduplicates : (finish p topN).duplicateSets = _ := hsetsEnd
    rw [hduplicates, hnoSets, Nat.zero_add, (hperm.filter _).length_eq, List.filter_map, List.length_map]
    rfl
  · rw [← hsorted]
    exact List.mergeSort_perm _ _
  · exact List.pairwise_mergeSort larger_trans larger_total _

variable {fs : FileSystem} {dir : List Step}

theorem totalFiles_foldlM {paths : List (List Name)} {p q : Progress}
    (h : paths.foldlM (fun p path => do return countFile identify p (← readFile fs dir path)) p =
      (.ok q : Exec Progress)) :
    q.summary.totalFiles = p.summary.totalFiles + paths.length := by
  induction paths generalizing p with
  | nil =>
    cases h
    rfl
  | cons path rest ih =>
    rw [List.foldlM_cons] at h
    obtain ⟨next, hnext, h⟩ := exec_bind_ok h
    obtain ⟨f, -, hcount⟩ := exec_bind_ok hnext
    cases hcount
    rw [ih h, totalFiles_countFile, List.length_cons]
    omega

theorem totalFiles_finish (p : Progress) (topN : ℕ) : (finish p topN).totalFiles = p.summary.totalFiles := by
  have hstep : ∀ (l : List (ℕ × ℕ)) (s : Summary), (l.foldl addDuplicates s).totalFiles = s.totalFiles := by
    intro l
    induction l with
    | nil => exact fun _ => rfl
    | cons e rest ih =>
      intro s
      rw [List.foldl_cons, ih, addDuplicates]
      split_ifs with hmany
      · rfl
      · rfl
  exact hstep _ _

theorem foldlM_read (h : ∀ f ∈ files, readFile fs dir f.path = .ok f) (p : Progress) :
    (files.map File.path).foldlM (fun p path => do return countFile identify p (← readFile fs dir path)) p =
      (.ok (files.foldl (countFile identify) p) : Exec Progress) := by
  induction files generalizing p with
  | nil => rfl
  | cons f rest ih =>
    obtain ⟨hf, hrest⟩ := List.forall_mem_cons.mp h
    rw [List.map_cons, List.foldlM_cons, hf, exec_ok_bind]
    exact ih hrest (countFile identify p f)

/-- A summary that is made and counts the files of a folder leaves no link that leads to more. -/
theorem bare_of_summary (folder : FileTree.Folder fs dir) {topN : ℕ} {s : Summary}
    (hs : summarize identify fs dir topN = .ok s)
    (hfiles : s.totalFiles = (folder.listing.files []).length) :
    ∀ link ∈ folder.listing.links [], Bare fs (below dir link) := by
  obtain ⟨paths, hcollect, hwalked, -⟩ := folder_walked folder
  rw [summarize, hcollect, exec_ok_bind] at hs
  obtain ⟨p, hp, hfinish⟩ := exec_bind_ok hs
  cases hfinish
  rw [totalFiles_finish, totalFiles_foldlM hp] at hfiles
  exact hwalked.bare ((Nat.zero_add _).symm.trans hfiles)

/-- The summary of a folder is that of its regular files exactly where its links lead to nothing but directories. -/
theorem summarize_exact (identify : List UInt8 → Option Text) (fs : FileSystem) (dir : List Step)
    (folder : FileTree.Folder fs dir) (topN : ℕ)
    (hbytes : ((folder.listing.files []).map fun f => f.content.length).sum < 2 ^ 64)
    (hsha : ∀ f ∈ folder.listing.files [], ∀ g ∈ folder.listing.files [], digest f = digest g → f.content = g.content) :
    (∃ s, summarize identify fs dir topN = .ok s ∧ Exact s (folder.listing.files []) topN) ↔
      ∀ link ∈ folder.listing.links [], Bare fs (below dir link) := by
  constructor
  · rintro ⟨s, hs, hexact⟩
    exact bare_of_summary folder hs hexact.total_files
  · intro hlinks
    obtain ⟨paths, hcollect, hwalked, hread⟩ := folder_walked folder
    refine ⟨finish ((folder.listing.files []).foldl (countFile identify) {}) topN, ?_, exact_finish topN hbytes hsha⟩
    rw [summarize, hcollect, exec_ok_bind, hwalked.exact hlinks, foldlM_read hread]
    rfl

section Sample

/-- A folder with a file of one byte, an empty directory, and a link in it. -/
def linked (target : List Step) : FileSystem where
  entries := [([[0x74]], .dir), ([[0x74], [0x61]], .file [7] none), ([[0x74], [0x65]], .dir),
    ([[0x74], [0x6c]], .symlink target)]
  cwd := []
  steps := 8

def linkedListing (target : List Step) : Listing :=
  .file [0x61] [7] none (.dir [0x65] .nil (.symlink [0x6c] target .nil))

theorem depth_linkedListing (target : List Step) : (linkedListing target).depth ≤ (linked target).steps := by
  change max 1 (max (0 + 1) 0) ≤ 8
  decide

def linkedFolder (target : List Step) : FileTree.Folder (linked target) [.name [0x74]] where
  place := [[0x74]]
  listing := linkedListing target
  place_dir := rfl
  names_eq := rfl
  listing_at := ⟨rfl, rfl, rfl, trivial, rfl, trivial⟩
  depth_le := depth_linkedListing target
  resolved := rfl

theorem bare_empty : Bare (linked [.name [0x65]]) [.name [0x74], .name [0x6c]] :=
  @Bare.mk _ _ [[0x74], [0x65]] rfl rfl fun name hname => by cases hname

/-- A link to an empty directory changes nothing. -/
theorem summary_empty_link : ∃ s, summarize (fun _ => none) (linked [.name [0x65]]) [.name [0x74]] 3 = .ok s ∧
    Exact s [⟨[[0x61]], [7], none⟩] 3 := by
  refine (summarize_exact (fun _ => none) _ _ (linkedFolder [.name [0x65]]) 3 (by decide) ?_).mpr ?_
  · intro f hf g hg _
    rw [List.mem_singleton.mp hf, List.mem_singleton.mp hg]
  · intro link hlink
    rw [List.mem_singleton.mp hlink]
    exact bare_empty

theorem not_bare_file {fs : FileSystem} {path : List Step} {found : List Name} {content : List UInt8}
    {modified : Option ℕ} (hresolve : fs.resolve path = some found)
    (hkind : fs.lookup found = some (.file content modified)) :
    ¬ Bare fs path := by
  intro h
  cases h with
  | mk hplace hdir _ =>
    rw [hresolve] at hplace
    cases hplace
    rw [hkind] at hdir
    cases hdir

/-- A link that leads nowhere, to a file or to the folder itself is not harmless. -/
theorem not_bare_linked {target : List Step}
    (h : target ∈ [[.name [0x7a]], [.name [0x61]], [.parent, .name [0x74]]]) :
    ¬ Bare (linked target) [.name [0x74], .name [0x6c]] := by
  simp only [List.mem_cons, List.not_mem_nil, or_false] at h
  rcases h with rfl | rfl | rfl
  · intro hbare
    cases hbare with
    | mk hplace _ _ => cases hplace
  · exact not_bare_file (show (linked _).resolve _ = some [[0x74], [0x61]] from rfl) rfl
  · intro hbare
    cases hbare with
    | mk hplace _ hnames =>
      cases hplace
      exact not_bare_file (show (linked _).resolve _ = some [[0x74], [0x61]] from rfl) rfl (hnames [0x61] (by decide))

/-- With such a link the folder has no exact summary. -/
theorem not_exact_linked {target : List Step}
    (h : target ∈ [[.name [0x7a]], [.name [0x61]], [.parent, .name [0x74]]]) :
    ¬ ∃ s, summarize (fun _ => none) (linked target) [.name [0x74]] 3 = .ok s ∧ Exact s [⟨[[0x61]], [7], none⟩] 3 := by
  rintro ⟨s, hs, hexact⟩
  exact not_bare_linked h
    (bare_of_summary (linkedFolder target) hs hexact.total_files [[0x6c]] (List.mem_singleton_self _))

theorem links_not_counted_once :
    (¬ ∃ s, summarize (fun _ => none) (linked [.name [0x7a]]) [.name [0x74]] 3 = .ok s ∧
      Exact s [⟨[[0x61]], [7], none⟩] 3) ∧
    (¬ ∃ s, summarize (fun _ => none) (linked [.name [0x61]]) [.name [0x74]] 3 = .ok s ∧
      Exact s [⟨[[0x61]], [7], none⟩] 3) ∧
    (¬ ∃ s, summarize (fun _ => none) (linked [.parent, .name [0x74]]) [.name [0x74]] 3 = .ok s ∧
      Exact s [⟨[[0x61]], [7], none⟩] 3) :=
  ⟨not_exact_linked (by decide), not_exact_linked (by decide), not_exact_linked (by decide)⟩

end Sample

end Exactness

end Unearth.Triage
