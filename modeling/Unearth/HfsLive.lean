import Unearth.HfsJournal

/-!
# Which files an undelete of an HFS+ volume takes for deleted

A stale record is one that the parser accepts in the free space of a leaf node of the catalog, or
among the records of a leaf node of the journal. It is reported unless the parser accepts a live
record of the same number too, so that a live record that the parser rejects protects nothing.
-/

namespace Unearth.Hfs
open Bytes Word Lines Loop Post

section Nodes

variable (v : Volume) (node : List UInt8) (ns : ℕ)

/-- An offset among those of the records of a node. -/
def LiveOffset (off : ℕ) : Prop :=
  ∃ i < numRecords node, beField node (ns - 2 * (i + 1)) 2 = off ∧ 14 ≤ off ∧ off < ns

/-- The parser accepts the record of a file with a number at a place. -/
def FileAt (off c : ℕ) : Prop := ∃ rec, parseFileRecord .debug v node off = .ok (some rec) ∧ rec.fileId = c

/-- The parser accepts one of the records of a node for a file with a number. -/
def HoldsFile (c : ℕ) : Prop := ∃ off, LiveOffset node ns off ∧ FileAt v node off c

def freeStart : ℕ := max 14 (min (beField node (ns - 2 * (numRecords node + 1)) 2) ns)

/-- The parser accepts the record of a file with a number in the free space of a node. -/
def LeavesFile (c : ℕ) : Prop :=
  ∃ k, freeStart node ns + 2 * k + 2 ≤ ns - 2 * (numRecords node + 1) ∧ FileAt v node (freeStart node ns + 2 * k) c

/-- A record for a file or a folder with a number, whatever else it says. -/
def RecordFor (off c : ℕ) : Prop :=
  let keyEnd := off + 2 + beField node off 2
  (beField node keyEnd 2 = RECORD_FILE ∨ beField node keyEnd 2 = RECORD_FOLDER) ∧ beField node (keyEnd + 8) 4 = c

end Nodes

section Gather

variable {v : Volume} {node : List UInt8} {ns c : ℕ}

theorem fileAt_iff {off : ℕ} {rec : FileRecord v.totalBlocks}
    (h : parseFileRecord .debug v node off = .ok (some rec)) : FileAt v node off c ↔ rec.fileId = c := by
  constructor
  · rintro ⟨rec', h', rfl⟩
    rw [h] at h'
    cases h'
    rfl
  · exact fun hc => ⟨rec, h, hc⟩

theorem not_fileAt {off : ℕ} (h : parseFileRecord .debug v node off = .ok none) : ¬ FileAt v node off c := by
  rintro ⟨rec, h', -⟩
  rw [h] at h'
  cases h'

theorem recordOffset_eq (hns : ns ≤ 32768) {i : ℕ} (h : 2 * (i + 1) ≤ ns) : recordOffset .debug node ns i =
    .ok (if 14 ≤ beField node (ns - 2 * (i + 1)) 2 ∧ beField node (ns - 2 * (i + 1)) 2 < ns then
      some (beField node (ns - 2 * (i + 1)) 2) else none) := by
  rw [recordOffset, minus_eq h, exec_ok_bind, beAt_eq (by omega)]
  rfl

theorem mem_liveRecordOffsets (hns : ns ≤ 32768) {offs : List ℕ}
    (h : liveRecordOffsets .debug node ns = .ok offs) (off : ℕ) : off ∈ offs ↔ LiveOffset node ns off := by
  have hfits := fits_of_liveRecordOffsets h
  rw [(filterMapM_ok h).2]
  constructor
  · rintro ⟨i, hi, hrec⟩
    have hlt := List.mem_range.mp hi
    rw [recordOffset_eq hns (by omega)] at hrec
    split_ifs at hrec with hrange
    · cases hrec
      exact ⟨i, hlt, rfl, hrange⟩
    · cases hrec
  · rintro ⟨i, hi, rfl, hrange⟩
    refine ⟨i, List.mem_range.mpr hi, ?_⟩
    rw [recordOffset_eq hns (by omega), if_pos hrange]

/-- What the steps over the records of a node gather. -/
theorem records_gather {σ : Type} (hns : ns ≤ 32768) {G : σ → Prop} {R : ℕ → Prop} {f : σ → ℕ → Exec σ} {s t : σ}
    (h : (liveRecordOffsets .debug node ns >>= fun offs => offs.foldlM f s) = .ok t)
    (hstep : ∀ s off t, f s off = .ok t → (G t ↔ G s ∨ R off)) : G t ↔ G s ∨ ∃ off, LiveOffset node ns off ∧ R off := by
  obtain ⟨offs, hoffs, h⟩ := exec_bind_ok h
  rw [foldlM_gathers (fun s off _ t => hstep s off t) h]
  simp only [mem_liveRecordOffsets hns hoffs]

/-- What the steps over the leaf nodes of a tree gather. -/
theorem leaves_gather {σ : Type} {tree : List UInt8} {G : σ → Prop} {R : List UInt8 → Prop}
    {f : σ → List UInt8 → Exec σ} {s t : σ} (h : forLeaves tree ns f s = .ok t)
    (hstep : ∀ s node t, f s node = .ok t → (G t ↔ G s ∨ R node)) :
    G t ↔ G s ∨ ∃ idx < tree.length / ns, nodeKind (nodeAt tree ns idx) = KIND_LEAF ∧ R (nodeAt tree ns idx) := by
  have hnode : ∀ s, ∀ idx ∈ List.range (tree.length / ns), ∀ t,
      (slice tree (idx * ns) ns >>= fun node => if nodeKind node = KIND_LEAF then f s node else return s) = .ok t →
      (G t ↔ G s ∨ (nodeKind (nodeAt tree ns idx) = KIND_LEAF ∧ R (nodeAt tree ns idx))) := by
    intro s idx hidx t h
    rw [slice_nodeAt (List.mem_range.mp hidx), exec_ok_bind] at h
    split_ifs at h with hleaf
    · rw [hstep s _ t h, and_iff_right hleaf]
    · cases h
      exact (or_iff_left fun h => hleaf h.1).symm
  rw [foldlM_gathers hnode h]
  simp only [List.mem_range]

end Gather

namespace Volume

variable {v : Volume} {node : List UInt8} {ns c : ℕ}

/-- The first pass remembers the files of which the parser accepts a live record. -/
theorem indexNode_live (hns : ns ≤ 32768) {s t : Index} (h : v.indexNode .debug ns s node = .ok t) :
    c ∈ t.live ↔ c ∈ s.live ∨ HoldsFile v node ns c := by
  refine records_gather hns (G := fun s : Index => c ∈ s.live) h fun s off t h => ?_
  obtain ⟨file, hfile, h⟩ := exec_bind_ok h
  cases file with
  | some rec =>
    cases h
    rw [fileAt_iff hfile, Finset.mem_insert, or_comm, eq_comm]
  | none =>
    obtain ⟨folder, -, h⟩ := exec_bind_ok h
    have hsame : t.live = s.live := by
      cases folder with
      | none => cases h; rfl
      | some f => cases h; rfl
    rw [hsame, or_iff_left (not_fileAt hfile)]

section Free

variable {live : Finset ℕ}

theorem addFree_seen (rec : FileRecord v.totalBlocks) (s : FreeScan v.totalBlocks) :
    c ∈ (v.addFree live rec s).seen ↔ c ∈ s.seen ∨ (rec.fileId = c ∧ c ∉ live) := by
  unfold addFree
  split_ifs with hknown
  · constructor
    · exact .inl
    · rintro (hc | ⟨rfl, hnew⟩)
      · exact hc
      · exact hknown.resolve_left hnew
  · rw [not_or] at hknown
    rw [Finset.mem_insert]
    constructor
    · rintro (rfl | hc)
      · exact .inr ⟨rfl, hknown.1⟩
      · exact .inl hc
    · rintro (hc | ⟨rfl, -⟩)
      · exact .inr hc
      · exact .inl rfl

/-- The numbers that the second pass has seen are those of the files that it has found. -/
def Consistent (s : FreeScan v.totalBlocks) : Prop := ∀ c, c ∈ s.seen ↔ ∃ rec ∈ s.candidates, rec.fileId = c

theorem addFree_consistent (rec : FileRecord v.totalBlocks) {s : FreeScan v.totalBlocks} (h : Consistent s) :
    Consistent (v.addFree live rec s) := by
  unfold addFree
  split_ifs
  · exact h
  · intro c
    rw [Finset.mem_insert, h c]
    constructor
    · rintro (rfl | ⟨r, hr, rfl⟩)
      · exact ⟨rec, List.mem_append_right _ (List.mem_singleton_self rec), rfl⟩
      · exact ⟨r, List.mem_append_left _ hr, rfl⟩
    · rintro ⟨r, hr, rfl⟩
      rcases List.mem_append.mp hr with hr | hr
      · exact .inr ⟨r, hr, rfl⟩
      · cases List.mem_singleton.mp hr
        exact .inl rfl

/-- The second pass remembers the files that the parser accepts from a place in free space on. -/
theorem freeLoop_seen {freeEnd off : ℕ} {s t : FreeScan v.totalBlocks}
    (h : (v.freeLoop .debug live node freeEnd).eval (off, s) = .ok t) :
    (c ∈ t.seen ↔ c ∈ s.seen ∨ ((∃ k, off + 2 * k + 2 ≤ freeEnd ∧ FileAt v node (off + 2 * k) c) ∧ c ∉ live)) ∧
    (Consistent s → Consistent t) := by
  generalize hstate : (off, s) = state at h
  induction state using (v.freeLoop .debug live node freeEnd).induct generalizing off s with
  | step state ih =>
    subst hstate
    have hbody : (v.freeLoop .debug live node freeEnd).body (off, s) = v.freeStep .debug live node freeEnd (off, s) := rfl
    unfold freeStep at hbody
    by_cases hend : freeEnd < off + 2
    · rw [if_pos hend] at hbody
      rw [(v.freeLoop .debug live node freeEnd).eval_done hbody] at h
      cases h
      refine ⟨(or_iff_left ?_).symm, id⟩
      rintro ⟨⟨k, hk, -⟩, -⟩
      omega
    · rw [if_neg hend] at hbody
      have hsplit : (∃ k, off + 2 * k + 2 ≤ freeEnd ∧ FileAt v node (off + 2 * k) c) ↔
          FileAt v node off c ∨ ∃ k, off + 2 + 2 * k + 2 ≤ freeEnd ∧ FileAt v node (off + 2 + 2 * k) c := by
        constructor
        · rintro ⟨k, hk, hfile⟩
          cases k with
          | zero => exact .inl hfile
          | succ k => exact .inr ⟨k, by omega, by rwa [Nat.add_assoc, Nat.add_comm 2, ← Nat.mul_succ]⟩
        · rintro (hfile | ⟨k, hk, hfile⟩)
          · exact ⟨0, by omega, hfile⟩
          · exact ⟨k + 1, by omega, by rwa [Nat.mul_succ, Nat.add_comm (2 * k), ← Nat.add_assoc]⟩
      cases hparse : parseFileRecord .debug v node off with
      | error e =>
        rw [hparse] at hbody
        rw [(v.freeLoop .debug live node freeEnd).eval_done hbody] at h
        cases h
      | ok found =>
        cases found with
        | none =>
          rw [hparse] at hbody
          rw [(v.freeLoop .debug live node freeEnd).eval_next hbody] at h
          rw [hsplit, or_iff_right (not_fileAt hparse)]
          exact ih _ hbody rfl h
        | some rec =>
          rw [hparse] at hbody
          rw [(v.freeLoop .debug live node freeEnd).eval_next hbody] at h
          obtain ⟨hseen, hkept⟩ := ih _ hbody rfl h
          refine ⟨?_, fun hs => hkept (addFree_consistent rec hs)⟩
          rw [hseen, addFree_seen, hsplit, fileAt_iff hparse, or_assoc, or_and_right]

theorem freeNode_seen (hns : ns ≤ 32768) {s t : FreeScan v.totalBlocks}
    (h : v.freeNode .debug live ns s node = .ok t) :
    (c ∈ t.seen ↔ c ∈ s.seen ∨ (LeavesFile v node ns c ∧ c ∉ live)) ∧ (Consistent s → Consistent t) := by
  obtain ⟨r, hr, h⟩ := exec_bind_ok h
  have hfits := fits_of_freeSpace hr
  have hspace : r = (freeStart node ns, ns - 2 * (numRecords node + 1)) := by
    rw [freeSpace, minus_eq hfits, exec_ok_bind, beAt_eq (by omega)] at hr
    cases hr
    rw [min_eq_left (Nat.sub_le _ _)]
    rfl
  rw [hspace] at h
  exact freeLoop_seen h

theorem freeNode_consistent (hns : ns ≤ 32768) {s : FreeScan v.totalBlocks} (hs : Consistent s) :
    Ends (fun _ => True) Consistent (v.freeNode .debug live ns s node) := by
  cases h : v.freeNode .debug live ns s node with
  | error e => trivial
  | ok t => exact (freeNode_seen (c := 0) hns h).2 hs

end Free

section Journal

variable {live seen : Finset ℕ}

theorem addNewest_keys (rec : FileRecord v.totalBlocks) (newest : List (ℕ × FileRecord v.totalBlocks)) :
    c ∈ (v.addNewest live seen rec newest).map (·.1) ↔
      c ∈ newest.map (·.1) ∨ (rec.fileId = c ∧ c ∉ live ∧ c ∉ seen) := by
  unfold addNewest
  split_ifs with hknown hnewer
  · refine (or_iff_left ?_).symm
    rintro ⟨rfl, hlive, hseen⟩
    exact hknown.elim hlive hseen
  · rw [not_or] at hknown
    rw [SortedMap.mem_keys_insert]
    refine or_congr_right ⟨?_, And.left⟩
    rintro rfl
    exact ⟨rfl, hknown⟩
  · refine (or_iff_left_of_imp ?_).symm
    rintro ⟨rfl, -⟩
    -- There is a copy of the same file already.
    cases hcopy : newest.lookup rec.fileId with
    | none =>
      rw [hcopy] at hnewer
      exact absurd rfl hnewer
    | some old =>
      obtain ⟨before, behind, hcopies, -⟩ := List.lookup_eq_some_iff.mp hcopy
      rw [hcopies, List.map_append]
      exact List.mem_append_right _ (List.mem_cons_self ..)

theorem addNewest_fileId (rec : FileRecord v.totalBlocks) {newest : List (ℕ × FileRecord v.totalBlocks)}
    (h : ∀ e ∈ newest, e.2.fileId = e.1) : ∀ e ∈ v.addNewest live seen rec newest, e.2.fileId = e.1 := by
  unfold addNewest
  split_ifs
  · exact h
  · intro e he
    rcases SortedMap.mem_insert he with rfl | he
    · rfl
    · exact h e he
  · exact h

/-- Every copy in the journal is kept under the number of its file. -/
def Keyed (s : JournalScan v.totalBlocks) : Prop := ∀ e ∈ s.newest, e.2.fileId = e.1

theorem Keyed.mem_keys {s : JournalScan v.totalBlocks} (hs : Keyed s) :
    c ∈ s.newest.map (·.1) ↔ ∃ rec ∈ s.newest.map (·.2), rec.fileId = c := by
  simp only [List.mem_map]
  constructor
  · rintro ⟨e, he, rfl⟩
    exact ⟨e.2, ⟨e, he, rfl⟩, hs e he⟩
  · rintro ⟨_, ⟨e, he, rfl⟩, rfl⟩
    exact ⟨e, he, (hs e he).symm⟩

theorem journalNode_keyed {s : JournalScan v.totalBlocks} (hs : Keyed s) :
    Ends (fun _ => True) Keyed (v.journalNode .debug live seen ns s node) := by
  apply (Ends.any _).bind
  intro offs _
  apply Ends.foldlM (I := Keyed) _ hs
  intro s hs off _
  apply (Ends.any _).bind
  intro file _
  cases file with
  | some rec => exact addNewest_fileId rec hs
  | none =>
    apply (Ends.any _).bind
    intro folder _
    cases folder <;> exact hs

/-- The third pass remembers the files of which the parser accepts a record in the journal, unless
they were known before. -/
theorem journalNode_keys (hns : ns ≤ 32768) {s t : JournalScan v.totalBlocks}
    (h : v.journalNode .debug live seen ns s node = .ok t) :
    c ∈ t.newest.map (·.1) ↔ c ∈ s.newest.map (·.1) ∨ (HoldsFile v node ns c ∧ c ∉ live ∧ c ∉ seen) := by
  have hgather := records_gather hns (G := fun s : JournalScan v.totalBlocks => c ∈ s.newest.map (·.1))
    (R := fun off => FileAt v node off c ∧ c ∉ live ∧ c ∉ seen) h fun s off t h => ?_
  · rw [hgather]
    refine or_congr_right ⟨?_, ?_⟩
    · rintro ⟨off, hoff, hfile, hnew⟩
      exact ⟨⟨off, hoff, hfile⟩, hnew⟩
    · rintro ⟨⟨off, hoff, hfile⟩, hnew⟩
      exact ⟨off, hoff, hfile, hnew⟩
  · obtain ⟨file, hfile, h⟩ := exec_bind_ok h
    cases file with
    | some rec =>
      cases h
      rw [fileAt_iff hfile]
      exact addNewest_keys rec s.newest
    | none =>
      obtain ⟨folder, -, h⟩ := exec_bind_ok h
      have hsame : t.newest = s.newest := by
        cases folder with
        | none => cases h; rfl
        | some f => cases h; rfl
      rw [hsame, or_iff_left fun h => not_fileAt hfile h.1]

variable {src : Source} (hoffset : v.offset < 2 ^ 63) (hns : 512 ≤ ns ∧ ns ≤ 32768)
include hoffset hns

/-- A third pass that comes to its end has read the journal. -/
theorem journalPass_ok {folders : Folders} {t : JournalScan v.totalBlocks}
    (h : v.journalPass .debug src ns live seen folders = .ok t) :
    (∀ j ∈ v.journal, v.ChunksRead src j ns 0) ∧ Keyed t ∧
    (c ∈ t.newest.map (·.1) ↔
      (∃ j ∈ v.journal, ∃ node ∈ v.journalNodes src j ns 0, HoldsFile v node ns c) ∧ c ∉ live ∧ c ∉ seen) := by
  unfold journalPass at h
  cases hjournal : v.journal with
  | none =>
    rw [hjournal] at h
    cases h
    simp [Keyed]
  | some j =>
    rw [hjournal] at h
    have hreads := chunksRead_of_ok hoffset hns 0 _ h
    change (v.chunkLoop .debug src _ ns j.start j.len).eval _ = _ at h
    rw [chunkLoop_eq hoffset hns 0 _ hreads fun hlt => ⟨hlt, .inl rfl⟩] at h
    refine ⟨?_, ?_, ?_⟩
    · intro j' hj
      cases hj
      exact hreads
    · have hempty : Keyed (⟨[], folders⟩ : JournalScan v.totalBlocks) := by simp [Keyed]
      have hkeyed : Ends (fun _ => True) Keyed
          ((v.journalNodes src j ns 0).foldlM (v.journalNode .debug live seen ns) ⟨[], folders⟩) := by
        apply Ends.foldlM (I := Keyed) _ hempty
        intro s hs node _
        exact journalNode_keyed hs
      exact hkeyed.of_ok h
    · rw [foldlM_gathers (G := fun s : JournalScan v.totalBlocks => c ∈ s.newest.map (·.1))
        (R := fun node => HoldsFile v node ns c ∧ c ∉ live ∧ c ∉ seen)
        (fun s node _ t h => journalNode_keys hns.2 h) h]
      simp only [Option.mem_def, Option.some.injEq, exists_eq_left', List.map_nil, List.not_mem_nil, false_or]
      constructor
      · rintro ⟨node, hnode, hfile, hnew⟩
        exact ⟨⟨node, hnode, hfile⟩, hnew⟩
      · rintro ⟨⟨node, hnode, hfile⟩, hnew⟩
        exact ⟨node, hnode, hfile, hnew⟩

end Journal

section Undelete

variable (v : Volume) (src : Source)

/-- The bytes of the catalog file, all of them. -/
def catalogFile : List UInt8 :=
  let bytes := (v.catalogExtents.extents.map fun e =>
    window src.data (v.offset + e.1 * v.blockSize) (e.2 * v.blockSize)).flatten
  if 0 < v.catalogSize then bytes.take v.catalogSize else bytes

/-- A leaf node of the catalog has a live record for the file or folder with a number. -/
def Live (c : ℕ) : Prop :=
  ∃ ns idx off, nodeSize (v.catalogFile src) = .ok ns ∧ idx < (v.catalogFile src).length / ns ∧
    nodeKind (nodeAt (v.catalogFile src) ns idx) = KIND_LEAF ∧
    LiveOffset (nodeAt (v.catalogFile src) ns idx) ns off ∧ RecordFor (nodeAt (v.catalogFile src) ns idx) off c

/-- Nothing keeps the undelete of a volume from its end: the catalog and the journal can be read,
and the nodes of the trees have room for the offsets of their records. -/
structure Complete (catalog : List UInt8) (ns : ℕ) : Prop where
  read_catalog : v.readCatalog .debug src = .ok catalog
  node_size : nodeSize catalog = .ok ns
  fits : Fits catalog ns 1
  overflow_fits : v.OverflowFits src
  read_journal : ∀ j ∈ v.journal, v.ChunksRead src j ns 0

variable (catalog : List UInt8) (ns : ℕ)

/-- The parser accepts a live record of the file with a number in the catalog as it was read. -/
def Protected (c : ℕ) : Prop :=
  ∃ idx < catalog.length / ns, nodeKind (nodeAt catalog ns idx) = KIND_LEAF ∧ HoldsFile v (nodeAt catalog ns idx) ns c

/-- The parser accepts a record of the file with a number in free space or in the journal. -/
def Stale (c : ℕ) : Prop :=
  (∃ idx < catalog.length / ns, nodeKind (nodeAt catalog ns idx) = KIND_LEAF ∧
    LeavesFile v (nodeAt catalog ns idx) ns c) ∨
  ∃ j ∈ v.journal, ∃ node ∈ v.journalNodes src j ns 0, HoldsFile v node ns c

/-- A file is reported by an undelete that comes to its end. -/
def Reported (windows : Bool) (opts : RecoverOptions) (rec : FileRecord v.totalBlocks) : Prop :=
  ∃ p rows s, v.passes .debug src = .ok p ∧ v.recoverDeleted .debug src windows opts = .ok rows ∧
    rec ∈ p.candidates ∧ v.salvage .debug src p windows opts rec = .ok (some s) ∧ s ∈ rows

variable {v src} (hoffset : v.offset < 2 ^ 63)
include hoffset

/-- The deleted files are those with a stale record and without a live one that the parser accepts. -/
theorem candidates_iff {p : Passes v.totalBlocks} (h : v.passes .debug src = .ok p) :
    ∃ catalog ns, v.Complete src catalog ns ∧
      ∀ c, (∃ rec ∈ p.candidates, rec.fileId = c) ↔ v.Stale src catalog ns c ∧ ¬ v.Protected catalog ns c := by
  have hsafe : Safe (fun _ => True) (v.passes .debug src) := by
    rw [h]
    trivial
  have hfit := (safe_passes_iff hoffset).mp hsafe
  obtain ⟨catalog, hcatalog, h⟩ := exec_bind_ok h
  obtain ⟨ns, hns, h⟩ := exec_bind_ok h
  obtain ⟨index, hindex, h⟩ := exec_bind_ok h
  obtain ⟨overflow, -, h⟩ := exec_bind_ok h
  obtain ⟨free, hfree, h⟩ := exec_bind_ok h
  obtain ⟨journal, hjournal, h⟩ := exec_bind_ok h
  cases h
  have hrange := (safe_nodeSize catalog).of_ok hns
  obtain ⟨hfits, hoverflow⟩ := hfit catalog ns hcatalog hns
  obtain ⟨hreads, hkeyed, -⟩ := journalPass_ok (c := 0) hoffset hrange hjournal
  refine ⟨catalog, ns, ⟨hcatalog, hns, hfits, hoverflow, hreads⟩, fun c => ?_⟩
  have hlive : c ∈ index.live ↔ v.Protected catalog ns c := by
    rw [leaves_gather (G := fun s : Index => c ∈ s.live) hindex fun s node t h => indexNode_live hrange.2 h,
      or_iff_right (Finset.notMem_empty c)]
    rfl
  have hconsistent : Consistent free := by
    have hempty : Consistent (⟨∅, []⟩ : FreeScan v.totalBlocks) := by simp [Consistent]
    have hall : Ends (fun _ => True) Consistent (forLeaves catalog ns (v.freeNode .debug index.live ns) ⟨∅, []⟩) := by
      apply ends_forLeaves (I := Consistent) _ hempty
      intro s hs idx _ _
      exact freeNode_consistent hrange.2 hs
    exact hall.of_ok hfree
  have hseen : c ∈ free.seen ↔ (∃ idx < catalog.length / ns, nodeKind (nodeAt catalog ns idx) = KIND_LEAF ∧
      LeavesFile v (nodeAt catalog ns idx) ns c) ∧ ¬ v.Protected catalog ns c := by
    rw [leaves_gather (G := fun s : FreeScan v.totalBlocks => c ∈ s.seen)
        (R := fun node => LeavesFile v node ns c ∧ c ∉ index.live) hfree
        fun s node t h => (freeNode_seen hrange.2 h).1, or_iff_right (Finset.notMem_empty c), hlive]
    constructor
    · rintro ⟨idx, hidx, hleaf, hfile, hnew⟩
      exact ⟨⟨idx, hidx, hleaf, hfile⟩, hnew⟩
    · rintro ⟨⟨idx, hidx, hleaf, hfile⟩, hnew⟩
      exact ⟨idx, hidx, hleaf, hfile, hnew⟩
  have hnewest := (journalPass_ok (c := c) hoffset hrange hjournal).2.2
  rw [hlive] at hnewest
  have hfound : (∃ rec ∈ free.candidates ++ journal.newest.map (·.2), rec.fileId = c) ↔
      c ∈ free.seen ∨ c ∈ journal.newest.map (·.1) := by
    simp only [List.mem_append, or_and_right, exists_or, hconsistent c, hkeyed.mem_keys]
  refine hfound.trans ?_
  rw [hnewest]
  constructor
  · rintro (hfree | ⟨hjournal, hnew, -⟩)
    · exact ⟨.inl (hseen.mp hfree).1, (hseen.mp hfree).2⟩
    · exact ⟨.inr hjournal, hnew⟩
  · rintro ⟨hstale, hnew⟩
    by_cases hfree : c ∈ free.seen
    · exact .inl hfree
    · rcases hstale with hleaves | hjournal
      · exact absurd (hseen.mpr ⟨hleaves, hnew⟩) hfree
      · exact .inr ⟨hjournal, hnew, hfree⟩

/-- The journal of a volume is read to the end if its chunks can be read. -/
theorem crash_journalPass (hns : 512 ≤ ns ∧ ns ≤ 32768) (hreads : ∀ j ∈ v.journal, v.ChunksRead src j ns 0)
    (live seen : Finset ℕ) (folders : Folders) :
    Ends (fun e => e.crash = true) (fun _ => True) (v.journalPass .debug src ns live seen folders) := by
  unfold journalPass
  cases hjournal : v.journal with
  | none => trivial
  | some j =>
    change Ends _ _ ((v.chunkLoop .debug src _ ns j.start j.len).eval _)
    rw [chunkLoop_eq hoffset hns 0 _ (hreads j hjournal) fun hlt => ⟨hlt, .inl rfl⟩]
    apply Ends.foldlM (I := fun _ => True) _ trivial
    intro s _ node _
    exact v.ends_journalNode hns.2 (.inr (by decide)) live seen s

/-- An undelete that nothing keeps from its end comes to it. -/
theorem exists_passes (hcomplete : v.Complete src catalog ns) : ∃ p, v.passes .debug src = .ok p := by
  have hrange := (safe_nodeSize catalog).of_ok hcomplete.node_size
  have hsafe : Safe (fun _ => True) (v.passes .debug src) := by
    rw [safe_passes_iff hoffset]
    intro catalog' ns' hcatalog hns
    rw [hcomplete.read_catalog] at hcatalog
    cases hcatalog
    rw [hcomplete.node_size] at hns
    cases hns
    exact ⟨hcomplete.fits, hcomplete.overflow_fits⟩
  apply exists_ok_of_safe hsafe
  rw [passes, hcomplete.read_catalog, exec_ok_bind, hcomplete.node_size, exec_ok_bind]
  have hindex : Ends (fun e => e.crash = true) (fun _ => True)
      (forLeaves catalog ns (v.indexNode .debug ns) ⟨∅, []⟩) :=
    ends_forLeaves (fun s _ idx _ _ => v.ends_indexNode hrange.2 (.inr (by decide)) s) trivial
  apply hindex.bind
  intro index _
  apply crash_readExtentsOverflow.bind
  intro overflow _
  have hfree : Ends (fun e => e.crash = true) (fun _ => True)
      (forLeaves catalog ns (v.freeNode .debug index.live ns) ⟨∅, []⟩) :=
    ends_forLeaves (fun s _ idx _ _ => v.ends_freeNode hrange.2 (.inr (by decide)) index.live s) trivial
  apply hfree.bind
  intro free _
  exact (crash_journalPass ns hoffset hrange hcomplete.read_journal _ _ _).bind fun _ _ => trivial

omit hoffset in
theorem selected_everything (rec : FileRecord v.totalBlocks) : v.selected everything rec = true := by
  have htime : ∀ t, everything.timeOk t = true := by
    intro t
    cases t <;> rfl
  simp only [selected, htime, Bool.and_true]
  simp [everything, RecoverOptions.sizeOk]

variable (src) in
theorem exists_readFileData (rec : FileRecord v.totalBlocks) (overflow : OverflowExtents v.totalBlocks) :
    ∃ data, v.readFileData .debug src rec overflow = .ok data := by
  obtain ⟨extents, hextents, hinside⟩ := (ends_fileExtents (E := fun _ => False) rec overflow).exists_ok
  obtain ⟨r, hr⟩ := exists_tolerated (1, []) (safe_readData src hoffset hinside rec.logicalSize [])
  rw [readFileData, hextents, exec_ok_bind, hr, exec_ok_bind]
  exact ⟨_, rfl⟩

/-- Every deleted file is attempted by an undelete that wants every file. -/
theorem exists_salvage (p : Passes v.totalBlocks) (windows : Bool) (rec : FileRecord v.totalBlocks) :
    ∃ s, v.salvage .debug src p windows everything rec = .ok (some s) := by
  obtain ⟨data, hdata⟩ := exists_readFileData src hoffset rec p.overflow
  unfold salvage
  rw [if_neg (by rw [selected_everything]; decide)]
  split_ifs with hsize hdry
  · exact ⟨_, rfl⟩
  · exact ⟨_, rfl⟩
  · rw [hdata, exec_ok_bind]
    cases data with
    | none => exact ⟨_, rfl⟩
    | some bytes => exact ⟨_, rfl⟩

omit hoffset in
/-- A deleted file is reported by an undelete that attempts every file. -/
theorem reported_of_candidate {p : Passes v.totalBlocks} (h : v.passes .debug src = .ok p) {windows : Bool}
    {opts : RecoverOptions} (hall : ∀ rec, ∃ s, v.salvage .debug src p windows opts rec = .ok (some s))
    {rec : FileRecord v.totalBlocks} (hrec : rec ∈ p.candidates) : v.Reported src windows opts rec := by
  have hends : Ends (fun _ => False) (fun _ => True) (p.candidates.filterMapM (v.salvage .debug src p windows opts)) := by
    refine (Ends.filterMapM (P := fun _ => True) fun rec _ => ?_).mono fun _ _ => trivial
    obtain ⟨s, hs⟩ := hall rec
    rw [hs]
    exact Ends.ok fun _ _ => trivial
  obtain ⟨rows, hrows, -⟩ := hends.exists_ok
  obtain ⟨s, hs⟩ := hall rec
  refine ⟨p, rows, s, h, ?_, hrec, hs, ((filterMapM_ok hrows).2 s).mpr ⟨rec, hrec, hs⟩⟩
  rw [recoverDeleted, h, exec_ok_bind, hrows]

end Undelete

/-- No file with a live record is reported by an undelete of a volume that was accepted if and only
if, unless something keeps the undelete from its end, the parser accepts a live record of every
such file, or no stale one. -/
theorem no_live_reported_iff {src : Source} {volOffset : ℕ} (h : Volume.parse .debug src volOffset = .ok (.ok v)) :
    (∀ windows opts rec, v.Reported src windows opts rec → ¬ v.Live src rec.fileId) ↔
      ∀ catalog ns, v.Complete src catalog ns →
        ∀ c, v.Live src c → v.Protected catalog ns c ∨ ¬ v.Stale src catalog ns c := by
  have hoffset := offset_lt h
  constructor
  · intro hnone catalog ns hcomplete c hlive
    by_contra hbad
    rw [not_or, not_not] at hbad
    obtain ⟨p, hp⟩ := exists_passes catalog ns hoffset hcomplete
    obtain ⟨catalog', ns', hcomplete', hids⟩ := candidates_iff hoffset hp
    obtain rfl : catalog = catalog' := Except.ok.inj (hcomplete.read_catalog.symm.trans hcomplete'.read_catalog)
    obtain rfl : ns = ns' := Except.ok.inj (hcomplete.node_size.symm.trans hcomplete'.node_size)
    obtain ⟨rec, hrec, rfl⟩ := (hids c).mpr ⟨hbad.2, hbad.1⟩
    exact hnone false everything rec (reported_of_candidate hp (exists_salvage hoffset p false) hrec) hlive
  · intro hall windows opts rec hreported hlive
    obtain ⟨p, _, _, hp, _, hrec, _, _⟩ := hreported
    obtain ⟨catalog, ns, hcomplete, hids⟩ := candidates_iff hoffset hp
    obtain ⟨hstale, hnew⟩ := (hids rec.fileId).mp ⟨rec, hrec, rfl⟩
    exact (hall catalog ns hcomplete rec.fileId hlive).elim hnew fun h => h hstale

end Volume

section EmptyFile

/-- The header of a volume of ten sectors, with its catalog in the four sectors from the fourth on. -/
def wideHeader : List UInt8 :=
  sectorOf [(0, [0x48, 0x2B]), (40, [0, 0, 2, 0]), (44, [0, 0, 0, 10]), (278, [8, 0]), (288, [0, 0, 0, 4, 0, 0, 0, 4])]

/-- The first sector of the header node of a catalog with nodes of two sectors and one leaf. -/
def wideTreeHeader : List UInt8 :=
  sectorOf [(8, [1, 0, 0, 3]), (14, [0, 1, 0, 0, 0, 1, 0, 0, 0, 4, 0, 0, 0, 1, 0, 0, 0, 1, 4, 0, 2, 4]), (36, [0, 0, 0, 2])]

/-- The root folder with its thread, and the first fields of the empty file that has number 16. -/
def leafStart : List UInt8 :=
  sectorOf [(8, [0xFF, 1, 0, 4]),
    (14, [0, 8, 0, 0, 0, 1, 0, 1, 0, 0x76, 0, 1]), (32, [0, 0, 0, 2]),
    (112, [0, 6, 0, 0, 0, 2, 0, 0, 0, 3, 0, 0, 0, 0, 0, 1, 0, 1, 0, 0x76]),
    (132, [0, 8, 0, 0, 0, 2, 0, 1, 0, 0x61, 0, 2]), (150, [0, 0, 0, 16]),
    (390, [0, 6, 0, 0, 0, 16, 0, 0, 0, 4, 0, 0, 0, 0, 0, 2, 0, 1, 0, 0x61]),
    -- The free space begins with a record of the same file from before it was emptied.
    (410, [0, 8, 0, 0, 0, 2, 0, 1, 0, 0x61, 0, 2]), (428, [0, 0, 0, 16])]

def leafEnd : List UInt8 :=
  sectorOf [(3, [5]), (12, [0, 0, 0, 8, 0, 0, 0, 1]), (502, [1, 154, 1, 134, 0, 132, 0, 112, 0, 14])]

def emptiedCatalog : List UInt8 :=
  [wideTreeHeader, sectorOf [(504, [3, 248, 0, 248, 0, 120, 0, 14])], leafStart, leafEnd].flatten

/-- The leaf node in runs, in which its bytes are looked up faster. -/
def emptiedLeaf : List UInt8 :=
  [List.replicate 8 0, [255, 1, 0, 4], List.replicate 3 0, [8], List.replicate 3 0, [1, 0, 1, 0, 118, 0, 1],
    List.replicate 9 0, [2], List.replicate 77 0, [6], List.replicate 3 0, [2], List.replicate 3 0, [3],
    List.replicate 5 0, [1, 0, 1, 0, 118, 0, 8], List.replicate 3 0, [2, 0, 1, 0, 97, 0, 2],
    List.replicate 9 0, [16], List.replicate 237 0, [6], List.replicate 3 0, [16], List.replicate 3 0, [4],
    List.replicate 5 0, [2, 0, 1, 0, 97, 0, 8], List.replicate 3 0, [2, 0, 1, 0, 97, 0, 2], List.replicate 9 0,
    [16], List.replicate 83 0, [5], List.replicate 11 0, [8], List.replicate 3 0, [1], List.replicate 482 0,
    [1, 154, 1, 134, 0, 132, 0, 112, 0, 14]].flatten

theorem length_emptiedCatalog : emptiedCatalog.length = 2048 := by
  have htree : wideTreeHeader.length = 512 := length_sectorOf (by decide)
  have hend : (sectorOf [(504, [3, 248, 0, 248, 0, 120, 0, 14])]).length = 512 := length_sectorOf (by decide)
  have hleaf : leafStart.length = 512 := length_sectorOf (by decide)
  have hlast : leafEnd.length = 512 := length_sectorOf (by decide)
  simp [emptiedCatalog, htree, hend, hleaf, hlast]

def emptiedSource : Source where
  data := [sectorOf [], sectorOf [], wideHeader, sectorOf [], emptiedCatalog,
    sectorOf [(0, [0x68, 0x65, 0x6C, 0x6C, 0x6F])], sectorOf []].flatten
  size_lt := by
    have hblank : (sectorOf []).length = 512 := length_sectorOf (by decide)
    have hheader : wideHeader.length = 512 := length_sectorOf (by decide)
    have htext : (sectorOf [(0, [0x68, 0x65, 0x6C, 0x6C, 0x6F])]).length = 512 := length_sectorOf (by decide)
    simp [hblank, hheader, htext, length_emptiedCatalog]

theorem emptied_sectors : ∀ s ∈ [sectorOf [], sectorOf [], wideHeader, sectorOf [], wideTreeHeader,
    sectorOf [(504, [3, 248, 0, 248, 0, 120, 0, 14])], leafStart, leafEnd,
    sectorOf [(0, [0x68, 0x65, 0x6C, 0x6C, 0x6F])], sectorOf []], s.length = 512 := by
  have hblank : (sectorOf []).length = 512 := length_sectorOf (by decide)
  have hheader : wideHeader.length = 512 := length_sectorOf (by decide)
  have htree : wideTreeHeader.length = 512 := length_sectorOf (by decide)
  have hend : (sectorOf [(504, [3, 248, 0, 248, 0, 120, 0, 14])]).length = 512 := length_sectorOf (by decide)
  have hleaf : leafStart.length = 512 := length_sectorOf (by decide)
  have hlast : leafEnd.length = 512 := length_sectorOf (by decide)
  have htext : (sectorOf [(0, [0x68, 0x65, 0x6C, 0x6C, 0x6F])]).length = 512 := length_sectorOf (by decide)
  simp only [List.forall_mem_cons, hblank, hheader, htree, hend, hleaf, hlast, htext, true_and]
  exact List.forall_mem_nil _

theorem emptied_inside : ∀ e ∈ [(4, 4)], e.1 < 10 ∧ e.1 + e.2 ≤ 10 + 1 := by simp

theorem emptied_total_lt : 10 < 2 ^ 32 := by simp

def emptiedVolume : Volume where
  offset := 0
  blockSize := 512
  totalBlocks := 10
  catalogExtents := ⟨[(4, 4)], Nat.one_le_ofNat, emptied_inside⟩
  catalogSize := 2048
  allocationExtents := .none 10
  extentsOverflowExtents := .none 10
  extentsOverflowSize := 0
  hfsx := false
  journal := none
  block_range := least_block_range
  total_lt := emptied_total_lt

theorem parse_emptied : Volume.parse .debug emptiedSource 0 = .ok (.ok emptiedVolume) := by decide +kernel

/-- The catalog has nodes of 1024 bytes, of which the second is a leaf and has room for one more record. -/
theorem catalog_emptied : nodeSize emptiedCatalog = .ok 1024 ∧
    emptiedVolume.wanted .debug emptiedVolume.catalogExtents emptiedVolume.catalogSize = .ok 2048 ∧
    nodeKind (nodeAt emptiedCatalog 1024 0) ≠ KIND_LEAF ∧ nodeAt emptiedCatalog 1024 1 = emptiedLeaf ∧
    Fits emptiedCatalog 1024 1 := by
  unfold Fits
  decide +kernel

/-- The leaf holds four records, all rejected, and one of a file is left in the space behind them. -/
theorem leaf_emptied : nodeKind emptiedLeaf = KIND_LEAF ∧ numRecords emptiedLeaf = 4 ∧
    beField emptiedLeaf (1024 - 2 * (2 + 1)) 2 = 132 ∧ RecordFor emptiedLeaf 132 16 ∧
    liveRecordOffsets .debug emptiedLeaf 1024 = .ok [14, 112, 132, 390] ∧
    (∀ off ∈ [14, 112, 132, 390], parseFileRecord .debug emptiedVolume emptiedLeaf off = .ok none) ∧
    freeStart emptiedLeaf 1024 = 410 ∧
    (parseFileRecord .debug emptiedVolume emptiedLeaf 410).map (·.map (·.fileId)) = .ok (some 16) := by
  unfold RecordFor
  decide +kernel

theorem no_live_reported_iff_emptied :
    (∀ windows opts rec, emptiedVolume.Reported emptiedSource windows opts rec →
      ¬ emptiedVolume.Live emptiedSource rec.fileId) ↔
      ∀ catalog ns, emptiedVolume.Complete emptiedSource catalog ns → ∀ c, emptiedVolume.Live emptiedSource c →
        emptiedVolume.Protected catalog ns c ∨ ¬ emptiedVolume.Stale emptiedSource catalog ns c :=
  Volume.no_live_reported_iff parse_emptied

theorem data_emptied : emptiedSource.data = [sectorOf [], sectorOf [], wideHeader, sectorOf [], wideTreeHeader,
    sectorOf [(504, [3, 248, 0, 248, 0, 120, 0, 14])], leafStart, leafEnd,
    sectorOf [(0, [0x68, 0x65, 0x6C, 0x6C, 0x6F])], sectorOf []].flatten := by
  simp only [emptiedSource, emptiedCatalog, List.flatten_cons, List.flatten_nil, List.append_assoc, List.append_nil]

theorem catalogFile_emptied : emptiedVolume.catalogFile emptiedSource = emptiedCatalog := by
  have hblank : (sectorOf []).length = 512 := length_sectorOf (by decide)
  have hheader : wideHeader.length = 512 := length_sectorOf (by decide)
  have hbefore : [sectorOf [], sectorOf [], wideHeader, sectorOf []].flatten.length = 2048 := by
    simp [hblank, hheader]
  have hdata : emptiedSource.data = [sectorOf [], sectorOf [], wideHeader, sectorOf []].flatten ++ emptiedCatalog ++
      [sectorOf [(0, [0x68, 0x65, 0x6C, 0x6C, 0x6F])], sectorOf []].flatten := by
    simp only [emptiedSource, List.flatten_cons, List.flatten_nil, List.append_assoc, List.append_nil]
  have hwindow : window emptiedSource.data 2048 2048 = emptiedCatalog := by
    rw [hdata, ← hbefore]
    nth_rewrite 2 [hbefore]
    rw [← length_emptiedCatalog, window_append]
  rw [Volume.catalogFile, if_pos (by decide)]
  simp only [emptiedVolume, List.map_cons, List.map_nil, List.flatten_cons, List.flatten_nil, List.append_nil]
  rw [show 0 + 4 * 512 = 2048 from rfl, show 4 * 512 = 2048 from rfl, hwindow, ← length_emptiedCatalog, List.take_length]

theorem readCatalog_emptied : emptiedVolume.readCatalog .debug emptiedSource = .ok emptiedCatalog := by
  have hreliable : emptiedSource.Reliable := fun _ _ => rfl
  have hheader : emptiedSource.readAt 2048 512 = .ok wideTreeHeader :=
    hreliable.readAt_block data_emptied emptied_sectors (k := 4) (by decide) rfl rfl
  have hend : emptiedSource.readAt 2560 512 = .ok (sectorOf [(504, [3, 248, 0, 248, 0, 120, 0, 14])]) :=
    hreliable.readAt_block data_emptied emptied_sectors (k := 5) (by decide) rfl rfl
  have hleaf : emptiedSource.readAt 3072 512 = .ok leafStart :=
    hreliable.readAt_block data_emptied emptied_sectors (k := 6) (by decide) rfl rfl
  have hlast : emptiedSource.readAt 3584 512 = .ok leafEnd :=
    hreliable.readAt_block data_emptied emptied_sectors (k := 7) (by decide) rfl rfl
  have h1 := emptied_sectors wideTreeHeader (by simp)
  have h2 := emptied_sectors (sectorOf [(504, [3, 248, 0, 248, 0, 120, 0, 14])]) (by simp)
  have h3 := emptied_sectors leafStart (by simp)
  have h4 := emptied_sectors leafEnd (by simp)
  have hblocks : emptiedVolume.readBlocks .debug emptiedSource 2048 4 4 [] = .ok (true, emptiedCatalog) := by
    have hne {s : List UInt8} (hs : s.length = 512) : s ≠ [] := List.ne_nil_of_length_pos (by omega)
    rw [Volume.readBlocks_next (by decide) (by decide) hheader (hne h1), List.nil_append,
      Volume.readBlocks_next (by omega) (by decide) hend (hne h2),
      Volume.readBlocks_next (by rw [List.length_append]; omega) (by decide) hleaf (hne h3),
      Volume.readBlocks_next (by simp only [List.length_append]; omega) (by decide) hlast (hne h4)]
    simp only [emptiedCatalog, List.flatten_cons, List.flatten_nil, List.append_assoc, List.append_nil]
    rfl
  have hfork : emptiedVolume.readFork .debug emptiedSource emptiedVolume.catalogExtents emptiedVolume.catalogSize =
      .ok emptiedCatalog := by
    have hextents : emptiedVolume.readExtents .debug emptiedSource 2048 emptiedVolume.catalogExtents.extents [] =
        .ok emptiedCatalog := by
      rw [show emptiedVolume.catalogExtents.extents = [(4, 4)] from rfl, Volume.readExtents, hblocks, exec_ok_bind]
      dsimp only
      rw [if_pos rfl, Volume.readExtents]
      rfl
    rw [Volume.readFork, catalog_emptied.2.1, exec_ok_bind, hextents]
    exact congrArg Except.ok (List.take_of_length_le length_emptiedCatalog.le)
  rw [Volume.readCatalog, hfork, exec_ok_bind, if_neg (by rw [length_emptiedCatalog]; decide)]
  rfl

theorem live_emptied : emptiedVolume.Live emptiedSource 16 := by
  obtain ⟨hsize, -, -, hnode, -⟩ := catalog_emptied
  obtain ⟨hkind, hrecords, hoff, hfor, -⟩ := leaf_emptied
  refine ⟨1024, 1, 132, ?_⟩
  rw [catalogFile_emptied, hnode, length_emptiedCatalog]
  refine ⟨hsize, by decide, hkind, ⟨2, ?_, hoff, by decide, by decide⟩, hfor⟩
  rw [hrecords]
  decide

theorem complete_emptied : emptiedVolume.Complete emptiedSource emptiedCatalog 1024 where
  read_catalog := readCatalog_emptied
  node_size := catalog_emptied.1
  fits := catalog_emptied.2.2.2.2
  overflow_fits := fun h => absurd rfl h
  read_journal := by
    intro j hj
    cases hj

/-- The parser rejects the live record of the empty file. -/
theorem not_protected_emptied : ¬ emptiedVolume.Protected emptiedCatalog 1024 16 := by
  obtain ⟨-, -, hheader, hnode, -⟩ := catalog_emptied
  obtain ⟨-, -, -, -, hoffs, hnone, -⟩ := leaf_emptied
  rintro ⟨idx, hidx, hleaf, off, hoff, rec, hrec, -⟩
  have hlast : idx = 1 := by
    have hlt : idx < 2 := hidx.trans_eq (by rw [length_emptiedCatalog])
    have hne : idx ≠ 0 := by
      rintro rfl
      exact hheader hleaf
    omega
  subst hlast
  rw [hnode] at hoff hrec
  have hmem := (mem_liveRecordOffsets (by decide) hoffs off).mpr hoff
  rw [hnone off hmem] at hrec
  cases hrec

theorem stale_emptied : emptiedVolume.Stale emptiedSource emptiedCatalog 1024 16 := by
  obtain ⟨-, -, -, hnode, -⟩ := catalog_emptied
  obtain ⟨hkind, hrecords, -, -, -, -, hstart, hrec⟩ := leaf_emptied
  refine .inl ⟨1, ?_⟩
  rw [hnode, length_emptiedCatalog]
  refine ⟨by decide, hkind, 0, ?_, ?_⟩
  · rw [hstart, hrecords]
    decide
  rw [hstart]
  change FileAt emptiedVolume _ 410 16
  cases hparse : parseFileRecord .debug emptiedVolume emptiedLeaf 410 with
  | error e =>
    rw [hparse] at hrec
    cases hrec
  | ok found =>
    rw [hparse] at hrec
    obtain ⟨rec, hfound, hid⟩ := Option.map_eq_some_iff.mp (Except.ok.inj hrec)
    exact ⟨rec, by rw [hparse, hfound], hid⟩

/-- The leaf node of the catalog is what it should be, and the empty file is live and reported. -/
theorem live_reported_emptied : Volume.parse .debug emptiedSource 0 = .ok (.ok emptiedVolume) ∧
    isLeafNode 1024 (nodeAt (emptiedVolume.catalogFile emptiedSource) 1024 1) = true ∧
    emptiedVolume.Live emptiedSource 16 ∧
    ∃ rec, emptiedVolume.Reported emptiedSource false everything rec ∧ rec.fileId = 16 := by
  refine ⟨parse_emptied, by decide +kernel, live_emptied, ?_⟩
  have hoffset := Volume.offset_lt parse_emptied
  obtain ⟨p, hp⟩ := Volume.exists_passes _ _ hoffset complete_emptied
  obtain ⟨catalog, ns, hcomplete, hids⟩ := Volume.candidates_iff hoffset hp
  obtain rfl : emptiedCatalog = catalog :=
    Except.ok.inj (complete_emptied.read_catalog.symm.trans hcomplete.read_catalog)
  obtain rfl : 1024 = ns := Except.ok.inj (complete_emptied.node_size.symm.trans hcomplete.node_size)
  obtain ⟨rec, hrec, hid⟩ := (hids 16).mpr ⟨stale_emptied, not_protected_emptied⟩
  exact ⟨rec, Volume.reported_of_candidate hp (Volume.exists_salvage hoffset p false) hrec, hid⟩

end EmptyFile

end Unearth.Hfs
