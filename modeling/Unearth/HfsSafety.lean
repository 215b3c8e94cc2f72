import Unearth.HfsRecover

/-!
# What can stop the undelete of an HFS+ volume

The places in a node are counted back from its end, by a number that is read from it. The scan
of the journal checks that number and the passes over the trees do not. Nothing else can stop
the undelete of a volume that was accepted.
-/

namespace Unearth.Hfs
open Bytes Word Lines Loop Post

section Nodes

variable {E : Fault → Prop} {b : Build} {node : List UInt8} {ns o n : ℕ}

theorem beAt_eq (h : o + n < 2 ^ 64) : beAt b node o n = .ok (beField node o n) := by
  rw [beAt, word_eq h]
  change Except.ok (if _ then _ else _) = _
  rw [beField]
  simp only [Nat.le_add_right, true_and]

theorem ends_beAt (h : o + n < 2 ^ 64) : Ends E (· < 256 ^ n) (beAt b node o n) := by
  rw [beAt_eq h]
  exact Ends.ok (beField_lt node o n)

theorem ends_recordOffset (hns : ns ≤ 32768) {i : ℕ} (h : 2 * (i + 1) ≤ ns ∨ E .overflow) :
    Ends E (fun r => ∀ off ∈ r, 14 ≤ off ∧ off < ns) (recordOffset .debug node ns i) := by
  unfold recordOffset
  apply (ends_minus h).bind
  rintro p ⟨rfl, _⟩
  apply (ends_beAt (by omega)).bind
  intro off _
  apply Ends.ok
  split_ifs with hoff
  · simpa using hoff
  · simp

theorem ends_liveRecordOffsets (hns : ns ≤ 32768) (h : 2 * numRecords node ≤ ns ∨ E .overflow) :
    Ends E (fun offs => ∀ off ∈ offs, 14 ≤ off ∧ off < ns) (liveRecordOffsets .debug node ns) := by
  apply Ends.filterMapM
  intro i hi
  have hlt := List.mem_range.mp hi
  exact ends_recordOffset hns (h.imp (fun hle => by omega) id)

/-- The offsets of a node are found only if there is room for all of them. -/
theorem fits_of_liveRecordOffsets {offs : List ℕ} (h : liveRecordOffsets .debug node ns = .ok offs) :
    2 * numRecords node ≤ ns := by
  cases hnum : numRecords node with
  | zero => exact Nat.zero_le _
  | succ num =>
    obtain ⟨r, hr⟩ := (filterMapM_ok h).1 num (List.mem_range.mpr (by omega))
    obtain ⟨p, hp, -⟩ := exec_bind_ok hr
    exact ((ends_minus (E := fun _ => True) (.inr trivial)).of_ok hp).2

/-- More offsets than a node has room for would begin before it. -/
theorem liveRecordOffsets_error (hns : ns ≤ 32768) (h : ns < 2 * numRecords node) :
    liveRecordOffsets .debug node ns = .error .overflow := by
  have hends := @ends_liveRecordOffsets (· = .overflow) node ns hns (.inr rfl)
  cases hoffs : liveRecordOffsets .debug node ns with
  | error e =>
    rw [hoffs] at hends
    exact congrArg Except.error hends
  | ok offs => exact absurd (fits_of_liveRecordOffsets hoffs) (not_le.mpr h)

theorem ends_freeSpace (hns : ns ≤ 32768) (h : 2 * (numRecords node + 1) ≤ ns ∨ E .overflow) :
    Ends E (fun r => r.1 ≤ max 14 ns ∧ r.2 ≤ ns) (freeSpace .debug node ns) := by
  unfold freeSpace
  apply (ends_minus h).bind
  rintro array ⟨rfl, hle⟩
  apply (ends_beAt (by omega)).bind
  intro freeStart _
  exact Ends.ok ⟨max_le_max le_rfl (min_le_right _ _), min_le_right _ _⟩

theorem fits_of_freeSpace {r : ℕ × ℕ} (h : freeSpace .debug node ns = .ok r) :
    2 * (numRecords node + 1) ≤ ns := by
  obtain ⟨array, harray, -⟩ := exec_bind_ok h
  exact ((ends_minus (E := fun _ => True) (.inr trivial)).of_ok harray).2

theorem ends_offsetsRise (hns : ns ≤ 32768) (arrayStart : ℕ) {n i prev : ℕ} (h : 2 * (i + n) ≤ ns) :
    Ends E (fun _ => True) (offsetsRise .debug node ns arrayStart n i prev) := by
  induction n generalizing i prev with
  | zero => trivial
  | succ n ih =>
    unfold offsetsRise
    apply (ends_minus (.inl (by omega))).bind
    rintro p ⟨rfl, _⟩
    apply (ends_beAt (by omega)).bind
    intro off _
    exact Ends.ite (fun _ => Ends.ok trivial) fun _ => ih (by omega)

/-- What looks like a leaf node has room for the offsets of its records. -/
theorem ends_looksLikeLeafNode (hlen : node.length = ns) (hns : 512 ≤ ns ∧ ns ≤ 32768) :
    Ends E (fun t => t = true → 2 * (numRecords node + 1) ≤ ns) (looksLikeLeafNode .debug node ns) := by
  unfold looksLikeLeafNode
  refine Ends.ite (fun _ => Ends.ok (by simp)) fun _ => ?_
  rw [List.getElem?_eq_getElem (show 9 < node.length by omega)]
  dsimp only
  refine Ends.ite (fun _ => Ends.ok (by simp)) fun hnum => ?_
  have hle : ¬ ns / 24 < numRecords node := fun hlt => hnum (.inr (.inr (.inl hlt)))
  have hfits : 2 * (numRecords node + 1) ≤ ns := by omega
  apply (ends_minus (.inl hfits)).bind
  rintro array ⟨rfl, _⟩
  exact (ends_offsetsRise hns.2 _ (by omega)).mono fun _ _ _ => hfits

end Nodes

section Records

variable {E : Fault → Prop} {b : Build} {v : Volume} {node : List UInt8} {off : ℕ}

theorem ends_catalogKey (hoff : off < 2 ^ 32) (minParent : ℕ) :
    Ends E (fun k => ∀ key ∈ k, key.keyEnd ≤ off + 518) (catalogKey b node off minParent) := by
  unfold catalogKey
  apply (ends_beAt (by omega)).bind
  intro keyLen _
  refine Ends.ite (fun _ => Ends.ok (by simp)) fun hkey => ?_
  rw [not_or, not_lt, not_lt] at hkey
  have hmax : keyLen ≤ 516 := hkey.2
  apply (ends_word (by omega)).bind
  rintro _ rfl
  apply (ends_beAt (by omega)).bind
  intro parentId _
  refine Ends.ite (fun _ => Ends.ok (by simp)) fun _ => ?_
  apply (ends_word (by omega)).bind
  rintro _ rfl
  apply (ends_beAt (by omega)).bind
  intro nameLen _
  refine Ends.ite (fun _ => Ends.ok (by simp)) fun hname => ?_
  rw [not_or, not_lt] at hname
  apply (ends_word (by omega)).bind
  rintro _ rfl
  refine Ends.ite (fun _ => Ends.ok (by simp)) fun _ => ?_
  apply (ends_word (by omega)).bind
  rintro _ rfl
  apply Ends.ok
  intro key hkey
  cases hkey
  dsimp only
  omega

theorem ends_parseFileRecord (hoff : off < 2 ^ 32) : Ends E (fun _ => True) (parseFileRecord b v node off) := by
  unfold parseFileRecord
  apply (ends_catalogKey hoff _).bind
  intro k hk
  cases k with
  | none => trivial
  | some key =>
    have hend := hk key rfl
    exact (ends_word (by omega)).bind fun _ _ => trivial

theorem ends_parseFolderRecord (hoff : off < 2 ^ 32) : Ends E (fun _ => True) (parseFolderRecord b node off) := by
  unfold parseFolderRecord
  apply (ends_catalogKey hoff _).bind
  intro k hk
  cases k with
  | none => trivial
  | some key =>
    have hend := hk key rfl
    apply (ends_word (by omega)).bind
    intro _ _
    refine Ends.ite (fun _ => Ends.ok trivial) fun _ => ?_
    exact Ends.ite (fun _ => Ends.ok trivial) fun _ => Ends.ok trivial

theorem ends_parseExtentRecord (hoff : off < 2 ^ 32) : Ends E (fun _ => True) (parseExtentRecord b v node off) := by
  unfold parseExtentRecord
  apply (ends_beAt (by omega)).bind
  intro keyLen _
  refine Ends.ite (fun _ => Ends.ok trivial) fun _ => ?_
  apply (ends_word (by omega)).bind
  rintro _ rfl
  cases node[off + 2]? with
  | none => trivial
  | some forkType =>
    apply (ends_word (by omega)).bind
    rintro _ rfl
    apply (ends_beAt (by omega)).bind
    intro fileId _
    refine Ends.ite (fun _ => Ends.ok trivial) fun _ => ?_
    apply (ends_word (by omega)).bind
    intro _ _
    exact Ends.ite (fun _ => Ends.ok trivial) fun _ => Ends.ok trivial

end Records

section Leaves

variable {σ : Type} {E : Fault → Prop} {tree : List UInt8} {ns : ℕ} {f : σ → List UInt8 → Exec σ} {s : σ}

def nodeAt (tree : List UInt8) (ns idx : ℕ) : List UInt8 := window tree (idx * ns) ns

/-- Every leaf node of a tree has room for the offsets of its records, and for `spare` more. -/
def Fits (tree : List UInt8) (ns spare : ℕ) : Prop :=
  ∀ idx < tree.length / ns, nodeKind (nodeAt tree ns idx) = KIND_LEAF →
    2 * (numRecords (nodeAt tree ns idx) + spare) ≤ ns

theorem Fits.of_spare (h : Fits tree ns 1) : Fits tree ns 0 := by
  intro idx hidx hleaf
  have hfits := h idx hidx hleaf
  omega

theorem slice_nodeAt {idx : ℕ} (h : idx < tree.length / ns) :
    slice tree (idx * ns) ns = .ok (nodeAt tree ns idx) := by
  apply slice_eq
  calc idx * ns + ns = (idx + 1) * ns := (Nat.succ_mul idx ns).symm
    _ ≤ tree.length / ns * ns := Nat.mul_le_mul_right _ h
    _ ≤ tree.length := Nat.div_mul_le_self _ _

theorem ends_forLeaves {I : σ → Prop} (hstep : ∀ s, I s → ∀ idx < tree.length / ns,
    nodeKind (nodeAt tree ns idx) = KIND_LEAF → Ends E I (f s (nodeAt tree ns idx))) (hs : I s) :
    Ends E I (forLeaves tree ns f s) := by
  apply Ends.foldlM (I := I) _ hs
  intro s hs idx hidx
  have hlt := List.mem_range.mp hidx
  rw [slice_nodeAt hlt]
  exact Ends.ite (fun hleaf => hstep s hs idx hlt hleaf) fun _ => hs

/-- The passes over the leaf nodes of a tree come to the end if and only if there is room in them
for the offsets that the passes go back to. -/
theorem safe_forLeaves_iff {spare : ℕ}
    (hends : ∀ (E : Fault → Prop) s node, 2 * (numRecords node + spare) ≤ ns ∨ E .overflow →
      Ends E (fun _ => True) (f s node))
    (hfits : ∀ s node t, f s node = .ok t → 2 * (numRecords node + spare) ≤ ns) :
    Safe (fun _ => True) (forLeaves tree ns f s) ↔ Fits tree ns spare := by
  constructor
  · intro h idx hidx hleaf
    have hcrash : ∀ s, ∀ idx ∈ List.range (tree.length / ns), Ends (fun e => ¬ e.crash = false) (fun _ => True)
        (slice tree (idx * ns) ns >>= fun node => if nodeKind node = KIND_LEAF then f s node else return s) := by
      intro s idx hidx
      rw [slice_nodeAt (List.mem_range.mp hidx)]
      exact Ends.ite (fun _ => hends _ _ _ (.inr (by decide))) fun _ => Ends.ok trivial
    obtain ⟨s, t, hst⟩ := Ends.of_foldlM h hcrash idx (List.mem_range.mpr hidx)
    rw [slice_nodeAt hidx] at hst
    change (if _ then _ else _) = _ at hst
    rw [if_pos hleaf] at hst
    exact hfits _ _ _ hst
  · exact fun h => ends_forLeaves (fun s _ idx hidx hleaf => hends _ _ _ (.inl (h idx hidx hleaf))) trivial

theorem ends_records (hns : ns ≤ 32768) {node : List UInt8} (h : 2 * numRecords node ≤ ns ∨ E .overflow)
    {f : σ → ℕ → Exec σ} (hf : ∀ s, ∀ off < 2 ^ 32, Ends E (fun _ => True) (f s off)) :
    Ends E (fun _ => True) (liveRecordOffsets .debug node ns >>= fun offs => offs.foldlM f s) := by
  apply (ends_liveRecordOffsets hns h).bind
  intro offs hoffs
  apply Ends.foldlM (I := fun _ => True) _ trivial
  intro s _ off hoff
  have hlt := hoffs off hoff
  exact hf s off (by omega)

end Leaves

namespace Volume

variable (v : Volume) (src : Source)

section Passes

variable {E : Fault → Prop} {ns : ℕ} (hns : ns ≤ 32768) {node : List UInt8}
include hns

theorem ends_indexNode (h : 2 * numRecords node ≤ ns ∨ E .overflow) (s : Index) :
    Ends E (fun _ => True) (v.indexNode .debug ns s node) := by
  refine ends_records hns h fun s off hoff => ?_
  unfold indexRecord
  apply (ends_parseFileRecord hoff).bind
  intro file _
  cases file with
  | some rec => trivial
  | none =>
    apply (ends_parseFolderRecord hoff).bind
    intro folder _
    cases folder <;> trivial

theorem ends_readOverflowNode (h : 2 * numRecords node ≤ ns ∨ E .overflow) (s : OverflowExtents v.totalBlocks) :
    Ends E (fun _ => True) (v.readOverflowNode .debug ns s node) := by
  refine ends_records hns h fun s off hoff => ?_
  unfold addExtentRecord
  apply (ends_parseExtentRecord hoff).bind
  intro r _
  cases r <;> trivial

theorem ends_journalNode (h : 2 * numRecords node ≤ ns ∨ E .overflow) (live seen : Finset ℕ)
    (s : JournalScan v.totalBlocks) : Ends E (fun _ => True) (v.journalNode .debug live seen ns s node) := by
  refine ends_records hns h fun s off hoff => ?_
  unfold journalRecord
  apply (ends_parseFileRecord hoff).bind
  intro file _
  cases file with
  | some rec => trivial
  | none =>
    apply (ends_parseFolderRecord hoff).bind
    intro folder _
    cases folder <;> trivial

theorem ends_freeNode (h : 2 * (numRecords node + 1) ≤ ns ∨ E .overflow) (live : Finset ℕ)
    (s : FreeScan v.totalBlocks) : Ends E (fun _ => True) (v.freeNode .debug live ns s node) := by
  unfold freeNode
  apply (ends_freeSpace hns h).bind
  rintro ⟨freeStart, freeEnd⟩ ⟨-, hend⟩
  dsimp only at hend ⊢
  apply (v.freeLoop .debug live node freeEnd).eval_inv (I := fun _ => True) _ trivial
  intro s _
  change (v.freeStep .debug live node freeEnd s).Sat _ _
  unfold freeStep
  split_ifs with hstop
  · trivial
  · have hparse : Ends E (fun _ => True) (parseFileRecord .debug v node s.1) := ends_parseFileRecord (by omega)
    cases hrec : parseFileRecord .debug v node s.1 with
    | error e => exact hparse.of_error hrec
    | ok rec => cases rec <;> trivial

end Passes

/-- A block that can be read is added to those before it. -/
theorem readBlocks_next {b : Build} {v : Volume} {src : Source} {want n block : ℕ} {buf bytes : List UInt8}
    (hwant : buf.length < want) (hfits : v.offset + block * v.blockSize < 2 ^ 64)
    (hread : src.readAt (v.offset + block * v.blockSize) v.blockSize = .ok bytes) (hne : bytes ≠ []) :
    v.readBlocks b src want (n + 1) block buf = v.readBlocks b src want n (block + 1) (buf ++ bytes) := by
  rw [readBlocks, if_neg (not_le.mpr hwant), word_eq hfits, exec_ok_bind, hread, exec_ok_bind, if_neg hne]

section Reads

variable {v src} (hoffset : v.offset < 2 ^ 63)
include hoffset

/-- A place in the volume has an offset. -/
theorem offset_word {x : ℕ} (h : x ≤ v.totalBlocks * v.blockSize) : v.offset + x < 2 ^ 64 := by
  have hbytes := v.bytes_lt
  omega

theorem block_word {block : ℕ} (h : block ≤ v.totalBlocks) : v.offset + block * v.blockSize < 2 ^ 64 :=
  offset_word hoffset (Nat.mul_le_mul_right _ h)

/-- So has a place in the journal. -/
theorem chunk_word {j : Journal (v.blockSize * v.totalBlocks)} {pos : ℕ} (h : pos < j.len) :
    v.offset + j.start + pos < 2 ^ 64 := by
  have hin := j.inside.trans_eq (Nat.mul_comm v.blockSize v.totalBlocks)
  rw [Nat.add_assoc]
  exact offset_word hoffset (by omega)

theorem safe_readBlocks (want : ℕ) {n block : ℕ} (h : block + n ≤ v.totalBlocks + 1) (buf : List UInt8) :
    Safe (fun _ => True) (v.readBlocks .debug src want n block buf) := by
  induction n generalizing block buf with
  | zero => trivial
  | succ n ih =>
    unfold readBlocks
    refine Ends.ite (fun _ => Ends.ok trivial) fun _ => ?_
    apply (ends_word (block_word hoffset (by omega))).bind
    rintro _ rfl
    apply (safe_readAt src _ _).bind
    intro bytes _
    exact Ends.ite (fun _ => Ends.ok trivial) fun _ => ih (by omega) _

theorem safe_readExtents (want : ℕ) {extents : List (ℕ × ℕ)}
    (h : ∀ e ∈ extents, e.1 < v.totalBlocks ∧ e.1 + e.2 ≤ v.totalBlocks + 1) (buf : List UInt8) :
    Safe (fun _ => True) (v.readExtents .debug src want extents buf) := by
  induction extents generalizing buf with
  | nil => trivial
  | cons e rest ih =>
    obtain ⟨⟨_, hcount⟩, hrest⟩ := List.forall_mem_cons.mp h
    apply (safe_readBlocks hoffset want hcount buf).bind
    intro r _
    exact Ends.ite (fun _ => ih hrest _) fun _ => Ends.ok trivial

end Reads

/-- Eight extents have no more blocks than a word of 36 bits can count. -/
theorem blocks_lt (r : Runs v.totalBlocks) : (r.extents.map (·.2)).sum < 2 ^ 36 := by
  have hle : ∀ x ∈ r.extents.map (·.2), x ≤ 2 ^ 32 := by
    intro x hx
    obtain ⟨e, he, rfl⟩ := List.mem_map.mp hx
    have hin := (r.inside e he).2
    have htotal := v.total_lt
    omega
  have hsum := List.sum_le_card_nsmul _ _ hle
  have hlen := r.length_le
  rw [List.length_map, smul_eq_mul] at hsum
  omega

theorem extents_lt (r : Runs v.totalBlocks) : (r.extents.map fun e => e.2 * v.blockSize).sum < 2 ^ 64 := by
  rw [List.sum_map_mul_right]
  calc (r.extents.map (·.2)).sum * v.blockSize ≤ (r.extents.map (·.2)).sum * 2 ^ 16 :=
        Nat.mul_le_mul_left _ v.block_range.2
    _ < 2 ^ 36 * 2 ^ 16 := Nat.mul_lt_mul_of_pos_right (v.blocks_lt r) (by decide)
    _ < 2 ^ 64 := by decide

theorem ends_wanted {E : Fault → Prop} (r : Runs v.totalBlocks) (logicalSize : ℕ) :
    Ends E (fun _ => True) (v.wanted .debug r logicalSize) := by
  unfold wanted
  exact (ends_word (v.extents_lt r)).bind fun _ _ => trivial

section Offset

variable {v src} (hoffset : v.offset < 2 ^ 63)
include hoffset

variable (src) in
theorem safe_readFork (r : Runs v.totalBlocks) (logicalSize : ℕ) :
    Safe (fun _ => True) (v.readFork .debug src r logicalSize) := by
  unfold readFork
  apply (v.ends_wanted r logicalSize).bind
  intro want _
  exact (safe_readExtents hoffset want r.inside []).bind fun _ _ => trivial

theorem safe_readCatalog : Safe (fun _ => True) (v.readCatalog .debug src) := by
  unfold readCatalog
  apply (safe_readFork src hoffset _ _).bind
  intro buf _
  exact Ends.ite (fun _ => rfl) fun _ => Ends.ok trivial

end Offset

theorem safe_nodeSize (tree : List UInt8) :
    Safe (fun ns => 512 ≤ ns ∧ ns ≤ 32768) (nodeSize tree) := by
  unfold nodeSize
  dsimp only
  exact Ends.ite (fun h => ⟨h.2.1, h.2.2.1⟩) fun _ => rfl

section Scan

variable {σ : Type} {f : σ → List UInt8 → Exec σ} {ns : ℕ} (hns : 512 ≤ ns ∧ ns ≤ 32768)
  (hf : ∀ s node, 2 * (numRecords node + 1) ≤ ns → Safe (fun _ => True) (f s node))
include hns hf

theorem safe_scanChunk {buf : List UInt8} {lastStart : ℕ} (hlast : lastStart + ns ≤ buf.length) (n off : ℕ)
    (s : σ) : Safe (fun _ => True) (scanChunk .debug f ns buf lastStart n off s) := by
  induction n generalizing off s with
  | zero => trivial
  | succ n ih =>
    unfold scanChunk
    refine Ends.ite (fun _ => Ends.ok trivial) fun hoff => ?_
    apply (safe_slice (by omega)).bind
    intro node hlen
    apply (ends_looksLikeLeafNode hlen hns).bind
    intro found hfound
    refine Ends.ite (fun h => ?_) fun _ => ih _ _
    exact (hf s node (hfound h)).bind fun t _ => ih _ t

variable {v src} (hoffset : v.offset < 2 ^ 63)
include hoffset

theorem safe_scanJournal (j : Journal (v.blockSize * v.totalBlocks)) (s : σ) :
    Safe (fun _ => True) (v.scanJournal .debug src f ns j.start j.len s) := by
  unfold scanJournal
  apply (v.chunkLoop .debug src f ns j.start j.len).eval_inv (I := fun _ => True) _ trivial
  intro s _
  change (v.chunkStep .debug src f ns j.start j.len s).Sat _ _
  unfold chunkStep
  split_ifs with hend
  · trivial
  · rw [word_eq (chunk_word hoffset (not_le.mp hend))]
    dsimp only
    rw [exec_ok_bind]
    have hread := safe_readAt src (v.offset + j.start + s.1) (min (j.len - s.1) (JOURNAL_CHUNK + ns))
    cases hbuf : src.readAt (v.offset + j.start + s.1) (min (j.len - s.1) (JOURNAL_CHUNK + ns)) with
    | error e => exact hread.of_error hbuf
    | ok buf =>
      by_cases hshort : buf.length < ns
      · simp only [if_pos hshort]
        trivial
      · simp only [if_neg hshort]
        have hlast : min (buf.length - ns) (JOURNAL_CHUNK - 1) + ns ≤ buf.length := by omega
        have hchunk := safe_scanChunk hns hf hlast (min (buf.length - ns) (JOURNAL_CHUNK - 1) / 512 + 1) 0 s.2
        cases hscan : scanChunk .debug f ns buf (min (buf.length - ns) (JOURNAL_CHUNK - 1))
            (min (buf.length - ns) (JOURNAL_CHUNK - 1) / 512 + 1) 0 s.2 with
        | error e => exact hchunk.of_error hscan
        | ok t =>
          dsimp only
          split_ifs <;> trivial

end Scan

section Salvage

variable {E : Fault → Prop} {v}

/-- Extents that lie in the volume. -/
def Inside (v : Volume) (extents : List (ℕ × ℕ)) : Prop :=
  ∀ e ∈ extents, e.1 < v.totalBlocks ∧ e.1 + e.2 ≤ v.totalBlocks + 1

theorem ends_followRuns (covered : ℕ) (extra : PendingRuns v.totalBlocks) {extents : List (ℕ × ℕ)}
    (h : v.Inside extents) : Ends E v.Inside (v.followRuns .debug covered extra extents) := by
  induction extra generalizing covered extents with
  | nil => exact h
  | cons next rest ih =>
    unfold followRuns
    refine Ends.ite (fun _ => h) fun hstart => ?_
    have hcovered := next.start_lt
    have hblocks := v.blocks_lt next.extents
    rw [not_not] at hstart
    apply (ends_word (by omega)).bind
    intro _ _
    apply ih
    intro e he
    exact (List.mem_append.mp he).elim (h e) (next.extents.inside e)

theorem ends_fileExtents (rec : FileRecord v.totalBlocks) (overflow : OverflowExtents v.totalBlocks) :
    Ends E v.Inside (v.fileExtents .debug rec overflow) := by
  unfold fileExtents
  cases overflow.lookup rec.fileId with
  | none => exact rec.extents.inside
  | some extra =>
    have hblocks := v.blocks_lt rec.extents
    apply (ends_word (by omega)).bind
    exact fun _ _ => ends_followRuns _ extra rec.extents.inside

variable {src}

theorem safe_extentLoop {base toRead : ℕ} (h : base + toRead < 2 ^ 64) (got : List UInt8) :
    Safe (fun _ => True) ((v.extentLoop .debug src base toRead).eval got) := by
  apply (v.extentLoop .debug src base toRead).eval_inv (I := fun _ => True) _ trivial
  intro got _
  change (v.extentStep .debug src base toRead got).Sat _ _
  unfold extentStep
  split_ifs with hend
  · trivial
  · rw [word_eq (by omega), exec_ok_bind]
    have hread := safe_readAt src (base + got.length) (min (toRead - got.length) v.blockSize)
    cases hbytes : src.readAt (base + got.length) (min (toRead - got.length) v.blockSize) with
    | error e => exact hread.of_error hbytes
    | ok bytes =>
      dsimp only
      split_ifs <;> trivial

variable (hoffset : v.offset < 2 ^ 63)
include hoffset

variable (src) in
theorem safe_readData {extents : List (ℕ × ℕ)} (h : v.Inside extents) (remaining : ℕ) (data : List UInt8) :
    Safe (fun _ => True) (v.readData .debug src extents remaining data) := by
  induction extents generalizing remaining data with
  | nil => trivial
  | cons e rest ih =>
    obtain ⟨start, count⟩ := e
    obtain ⟨⟨hstart, hcount⟩, hrest⟩ := List.forall_mem_cons.mp h
    have hbytes := v.bytes_lt
    have hblock := v.block_range.2
    have hend : start * v.blockSize + count * v.blockSize ≤ v.totalBlocks * v.blockSize + v.blockSize := by
      rw [← Nat.add_mul, ← Nat.succ_mul]
      exact Nat.mul_le_mul_right _ hcount
    unfold readData
    refine Ends.ite (fun _ => Ends.ok trivial) fun _ => ?_
    apply (ends_word (by omega)).bind
    rintro _ rfl
    apply (ends_word (by omega)).bind
    rintro _ rfl
    apply (safe_extentLoop (by omega) []).bind
    intro got _
    exact Ends.ite (fun _ => Ends.ok trivial) fun _ => ih hrest _ _

theorem safe_salvage (p : Passes v.totalBlocks) (windows : Bool) (opts : RecoverOptions)
    (rec : FileRecord v.totalBlocks) : Safe (fun _ => True) (v.salvage .debug src p windows opts rec) := by
  have hdata : Safe (fun _ => True) (v.readFileData .debug src rec p.overflow) := by
    unfold readFileData
    apply (ends_fileExtents rec p.overflow).bind
    intro extents hinside
    exact (safe_tolerated (safe_readData src hoffset hinside _ _) trivial).bind fun _ _ => trivial
  unfold salvage
  refine Ends.ite (fun _ => Ends.ok trivial) fun _ => ?_
  refine Ends.ite (fun _ => Ends.ok trivial) fun _ => ?_
  refine Ends.ite (fun _ => Ends.ok trivial) fun _ => ?_
  apply hdata.bind
  intro data _
  cases data <;> trivial

end Salvage

variable {v src}

/-- The leaf nodes of the tree of extents have room for the offsets of their records. -/
def OverflowFits (v : Volume) (src : Source) : Prop :=
  v.extentsOverflowExtents.extents ≠ [] → ∀ tree ns,
    v.readFork .debug src v.extentsOverflowExtents v.extentsOverflowSize = .ok tree → 512 ≤ tree.length →
    nodeSize tree = .ok ns → Fits tree ns 0

/-- The leaf nodes of the catalog have room for the offsets of their records and for that of the
space behind them, and those of the tree of extents for the offsets of theirs. -/
def TreesFit (v : Volume) (src : Source) : Prop :=
  ∀ catalog ns, v.readCatalog .debug src = .ok catalog → nodeSize catalog = .ok ns →
    Fits catalog ns 1 ∧ v.OverflowFits src

theorem safe_overflowOf_iff (tree : List UInt8) : Safe (fun _ => True) (v.overflowOf .debug tree) ↔
    (512 ≤ tree.length → ∀ ns, nodeSize tree = .ok ns → Fits tree ns 0) := by
  unfold overflowOf
  by_cases hlen : tree.length < 512
  · rw [if_pos hlen]
    exact iff_of_true trivial fun h => absurd h (not_le.mpr hlen)
  · rw [if_neg hlen]
    cases hns : nodeSize tree with
    | error e => exact iff_of_true trivial fun _ ns h => by cases h
    | ok ns =>
      have hrange := (safe_nodeSize tree).of_ok hns
      have hleaves : Safe (fun _ => True) (forLeaves tree ns (v.readOverflowNode .debug ns) []) ↔ Fits tree ns 0 :=
        safe_forLeaves_iff (fun E s node h => v.ends_readOverflowNode hrange.2 h s)
          fun s node t h => fits_of_liveRecordOffsets (exec_bind_ok h).choose_spec.1
      constructor
      · intro h _ ns' hns'
        cases hns'
        exact hleaves.mp h.of_bind
      · exact fun h => (hleaves.mpr (h (not_lt.mp hlen) ns rfl)).bind fun _ _ => trivial

theorem safe_readExtentsOverflow_iff (hoffset : v.offset < 2 ^ 63) :
    Safe (fun _ => True) (v.readExtentsOverflow .debug src) ↔ v.OverflowFits src := by
  have hfork := safe_readFork src hoffset v.extentsOverflowExtents v.extentsOverflowSize
  unfold readExtentsOverflow OverflowFits
  by_cases hnone : v.extentsOverflowExtents.extents = []
  · rw [if_pos hnone]
    exact iff_of_true trivial fun h => absurd hnone h
  · rw [if_neg hnone]
    cases htree : v.readFork .debug src v.extentsOverflowExtents v.extentsOverflowSize with
    | error e =>
      refine iff_of_true ?_ fun _ tree ns h => by cases h
      have hcrash := hfork.of_error htree
      cases e with
      | io | refused => trivial
      | overflow | slice | capacity => cases hcrash
    | ok tree =>
      refine (safe_overflowOf_iff tree).trans ?_
      constructor
      · intro h _ tree' ns htree' hlen hns
        cases htree'
        exact h hlen ns hns
      · exact fun h hlen ns hns => h hnone tree ns rfl hlen hns

theorem safe_journalPass (hoffset : v.offset < 2 ^ 63) {ns : ℕ} (hns : 512 ≤ ns ∧ ns ≤ 32768)
    (live seen : Finset ℕ) (folders : Folders) :
    Safe (fun _ => True) (v.journalPass .debug src ns live seen folders) := by
  unfold journalPass
  cases v.journal with
  | none => trivial
  | some j =>
    exact safe_scanJournal hns
      (fun s node h => v.ends_journalNode hns.2 (.inl (by omega)) live seen s) hoffset j _

theorem crash_readExtentsOverflow :
    Ends (fun e => e.crash = true) (fun _ => True) (v.readExtentsOverflow .debug src) := by
  unfold readExtentsOverflow
  refine Ends.ite (fun _ => Ends.ok trivial) fun _ => ?_
  apply (crash_tolerated _ _).bind
  intro tree _
  unfold overflowOf
  refine Ends.ite (fun _ => Ends.ok trivial) fun _ => ?_
  cases hns : nodeSize tree with
  | error e => trivial
  | ok ns =>
    have hrange := (safe_nodeSize tree).of_ok hns
    have hleaves : Ends (fun e => e.crash = true) (fun _ => True)
        (forLeaves tree ns (v.readOverflowNode .debug ns) []) :=
      ends_forLeaves (fun s _ idx _ _ => v.ends_readOverflowNode hrange.2 (.inr (by decide)) s) trivial
    exact hleaves.bind fun _ _ => trivial

theorem safe_passes_iff (hoffset : v.offset < 2 ^ 63) :
    Safe (fun _ => True) (v.passes .debug src) ↔ v.TreesFit src := by
  rw [passes, safe_bind_iff, and_iff_right (safe_readCatalog hoffset)]
  refine forall_congr' fun catalog => ?_
  rw [forall_comm]
  refine forall_congr' fun hcatalog => ?_
  rw [safe_bind_iff, and_iff_right ((safe_nodeSize catalog).mono fun _ _ => trivial)]
  refine forall_congr' fun ns => forall_congr' fun hns => ?_
  have hrange := (safe_nodeSize catalog).of_ok hns
  have hindex : Safe (fun _ => True) (forLeaves catalog ns (v.indexNode .debug ns) ⟨∅, []⟩) ↔ Fits catalog ns 0 :=
    safe_forLeaves_iff (fun E s node h => v.ends_indexNode hrange.2 h s)
      fun s node t h => fits_of_liveRecordOffsets (exec_bind_ok h).choose_spec.1
  have hfree (live : Finset ℕ) :
      Safe (fun _ => True) (forLeaves catalog ns (v.freeNode .debug live ns) ⟨∅, []⟩) ↔ Fits catalog ns 1 :=
    safe_forLeaves_iff (fun E s node h => v.ends_freeNode hrange.2 h live s)
      fun s node t h => fits_of_freeSpace (exec_bind_ok h).choose_spec.1
  have hrest (index : Index) (overflow : OverflowExtents v.totalBlocks) : Safe (fun _ => True) (do
      let free ← forLeaves catalog ns (v.freeNode .debug index.live ns) ⟨∅, []⟩
      let journal ← v.journalPass .debug src ns index.live free.seen index.folders
      return (⟨free.candidates ++ journal.newest.map (·.2), journal.folders, overflow⟩ : Passes v.totalBlocks)) ↔
      Fits catalog ns 1 := by
    rw [safe_bind_iff, hfree]
    refine and_iff_left fun free _ => ?_
    exact (safe_journalPass hoffset hrange _ _ _).bind fun _ _ => trivial
  -- Only the passes over the trees can fail, and they do so by stopping the program.
  have hcrash : Ends (fun e => e.crash = true) (fun _ => True)
      (forLeaves catalog ns (v.indexNode .debug ns) ⟨∅, []⟩) :=
    ends_forLeaves (fun s _ idx _ _ => v.ends_indexNode hrange.2 (.inr (by decide)) s) trivial
  rw [safe_bind_iff_of_crash hcrash fun index => safe_bind_iff_of_crash crash_readExtentsOverflow (hrest index),
    hindex, safe_readExtentsOverflow_iff hoffset]
  exact ⟨fun h => ⟨h.2.2, h.2.1⟩, fun h => ⟨h.1.of_spare, h.2, h.1⟩⟩

theorem safe_recoverDeleted_iff (hoffset : v.offset < 2 ^ 63) (windows : Bool) (opts : RecoverOptions) :
    Safe (fun _ => True) (v.recoverDeleted .debug src windows opts) ↔ v.TreesFit src := by
  rw [recoverDeleted, safe_bind_iff, safe_passes_iff hoffset]
  refine and_iff_left fun p _ => ?_
  refine (Ends.filterMapM (P := fun _ => True) fun rec _ => ?_).mono fun _ _ => trivial
  exact (safe_salvage hoffset p windows opts rec).mono fun _ _ _ _ => trivial

/-- Nothing stops the undelete of a volume that was accepted, and no path that it rebuilds has
more than 256 folders, if and only if the leaf nodes of its trees have room for the offsets of
as many records as they claim. -/
theorem undelete_safe_iff {volOffset : ℕ} (h : Volume.parse .debug src volOffset = .ok (.ok v)) (windows : Bool)
    (opts : RecoverOptions) :
    (Safe (fun _ => True) (v.recoverDeleted .debug src windows opts) ∧
      ∀ folders parent, (resolvePath windows folders parent).length ≤ 256) ↔ v.TreesFit src := by
  rw [safe_recoverDeleted_iff (offset_lt h)]
  exact and_iff_left (length_resolvePath windows)

end Volume

section Crowded

/-- Fields at their offsets in a sector. -/
def sectorOf (fields : List (ℕ × List UInt8)) : List UInt8 :=
  fields.foldl (fun sector f => writeAt sector f.1 f.2) (List.replicate 512 0)

theorem length_sectorOf {fields : List (ℕ × List UInt8)} (h : ∀ f ∈ fields, f.1 + f.2.length ≤ 512) :
    (sectorOf fields).length = 512 := by
  rw [sectorOf, length_foldl_writeAt (by rwa [List.length_replicate]), List.length_replicate]

/-- The header of a volume of eight sectors, with its catalog in the two sectors from the fourth on. -/
def headerSector : List UInt8 :=
  sectorOf [(0, [0x48, 0x2B]), (40, [0, 0, 2, 0]), (44, [0, 0, 0, 8]), (288, [0, 0, 0, 4, 0, 0, 0, 2])]

/-- The header node of a catalog with nodes of one sector. -/
def treeHeader : List UInt8 := sectorOf [(8, [1]), (32, [2, 0])]

/-- A leaf node that claims to have 300 records. -/
def crowdedLeaf : List UInt8 := sectorOf [(8, [0xFF, 1]), (10, [1, 44])]

def crowdedSource : Source where
  data := [sectorOf [], sectorOf [], headerSector, sectorOf [], treeHeader, crowdedLeaf, sectorOf [], sectorOf []].flatten
  size_lt := by decide +kernel

theorem least_block_range : 512 ≤ 512 ∧ 512 ≤ 65536 := by decide

def smallVolume : Volume where
  offset := 0
  blockSize := 512
  totalBlocks := 8
  catalogExtents := ⟨[(4, 2)], by decide, by decide⟩
  catalogSize := 0
  allocationExtents := .none 8
  extentsOverflowExtents := .none 8
  extentsOverflowSize := 0
  hfsx := false
  journal := none
  block_range := by decide
  total_lt := by decide

theorem parse_crowded : Volume.parse .debug crowdedSource 0 = .ok (.ok smallVolume) := by decide +kernel

theorem crowded_sectors : ∀ s ∈ [sectorOf [], sectorOf [], headerSector, sectorOf [], treeHeader, crowdedLeaf,
    sectorOf [], sectorOf []], s.length = 512 := by
  have hblank : (sectorOf []).length = 512 := length_sectorOf (by decide)
  have hheader : headerSector.length = 512 := length_sectorOf (by decide)
  have htree : treeHeader.length = 512 := length_sectorOf (by decide)
  have hleaf : crowdedLeaf.length = 512 := length_sectorOf (by decide)
  simp only [List.forall_mem_cons, hblank, hheader, htree, hleaf, true_and]
  exact List.forall_mem_nil _

theorem catalog_crowded : smallVolume.readCatalog .debug crowdedSource = .ok (treeHeader ++ crowdedLeaf) := by
  have hdata : crowdedSource.data = [sectorOf [], sectorOf [], headerSector, sectorOf [], treeHeader, crowdedLeaf,
      sectorOf [], sectorOf []].flatten := by rw [crowdedSource]
  have hreliable : crowdedSource.Reliable := fun _ _ => rfl
  have hheader : crowdedSource.readAt 2048 512 = .ok treeHeader :=
    hreliable.readAt_block hdata crowded_sectors (k := 4) (by decide) rfl rfl
  have hleaf : crowdedSource.readAt 2560 512 = .ok crowdedLeaf :=
    hreliable.readAt_block hdata crowded_sectors (k := 5) (by decide) rfl rfl
  have hlen := crowded_sectors treeHeader (by simp)
  have hlen' := crowded_sectors crowdedLeaf (by simp)
  have hwanted : smallVolume.wanted .debug smallVolume.catalogExtents smallVolume.catalogSize = .ok 1024 := by
    decide +kernel
  have hblocks : smallVolume.readBlocks .debug crowdedSource 1024 2 4 [] = .ok (true, treeHeader ++ crowdedLeaf) := by
    have hne {s : List UInt8} (hs : s.length = 512) : s ≠ [] := List.ne_nil_of_length_pos (by omega)
    rw [Volume.readBlocks_next (by decide) (by decide) hheader (hne hlen), List.nil_append,
      Volume.readBlocks_next (by omega) (by decide) hleaf (hne hlen')]
    rfl
  have hfork : smallVolume.readFork .debug crowdedSource smallVolume.catalogExtents smallVolume.catalogSize =
      .ok (treeHeader ++ crowdedLeaf) := by
    have hextents : smallVolume.readExtents .debug crowdedSource 1024 smallVolume.catalogExtents.extents [] =
        .ok (treeHeader ++ crowdedLeaf) := by
      rw [show smallVolume.catalogExtents.extents = [(4, 2)] from rfl, Volume.readExtents, hblocks, exec_ok_bind]
      dsimp only
      rw [if_pos rfl, Volume.readExtents]
      rfl
    rw [Volume.readFork, hwanted, exec_ok_bind, hextents]
    exact congrArg Except.ok (List.take_of_length_le (by rw [List.length_append, hlen, hlen']))
  rw [Volume.readCatalog, hfork, exec_ok_bind, if_neg (by rw [List.length_append, hlen, hlen']; decide)]
  rfl

theorem passes_crowded : smallVolume.passes .debug crowdedSource = .error .overflow := by
  have hlen := crowded_sectors treeHeader (by simp)
  have hlen' := crowded_sectors crowdedLeaf (by simp)
  have hboth : (treeHeader ++ crowdedLeaf).length = 1024 := by rw [List.length_append, hlen, hlen']
  have hfield : beField treeHeader 32 2 = 512 := by decide +kernel
  have hsize : nodeSize (treeHeader ++ crowdedLeaf) = .ok 512 := by
    have hns : beField (treeHeader ++ crowdedLeaf) 32 2 = 512 := by
      rw [beField, if_pos (by omega), window_within hlen (by decide)]
      rwa [beField, if_pos (by omega)] at hfield
    rw [nodeSize, hns, hboth]
    rfl
  have hfirst : slice (treeHeader ++ crowdedLeaf) (0 * 512) 512 = .ok treeHeader := by
    rw [slice_eq (by omega), Nat.zero_mul, window_whole hlen]
  have hsecond : slice (treeHeader ++ crowdedLeaf) (1 * 512) 512 = .ok crowdedLeaf := by
    rw [slice_eq (by omega), Nat.one_mul, window_behind hlen le_rfl, Nat.sub_self]
    exact congrArg Except.ok (List.take_of_length_le hlen'.le)
  have hheader : nodeKind treeHeader ≠ KIND_LEAF := by decide +kernel
  have hleaf : nodeKind crowdedLeaf = KIND_LEAF := by decide +kernel
  have hcount : numRecords crowdedLeaf = 300 := by decide +kernel
  have hoffsets : liveRecordOffsets .debug crowdedLeaf 512 = .error .overflow :=
    liveRecordOffsets_error (by decide) (by rw [hcount]; decide)
  rw [Volume.passes, catalog_crowded, exec_ok_bind, hsize, exec_ok_bind, forLeaves, hboth,
    show List.range (1024 / 512) = [0, 1] from rfl, List.foldlM_cons, hfirst, exec_ok_bind, if_neg hheader,
    pure_bind, List.foldlM_cons, hsecond, exec_ok_bind, if_pos hleaf, Volume.indexNode, hoffsets]
  rfl

/-- Every deleted file is wanted. -/
def everything : RecoverOptions := ⟨0, none, none, none, fun _ => true, false⟩

theorem undelete_safe_iff_crowded :
    (Safe (fun _ => True) (smallVolume.recoverDeleted .debug crowdedSource false everything) ∧
      ∀ folders parent, (resolvePath false folders parent).length ≤ 256) ↔ smallVolume.TreesFit crowdedSource :=
  Volume.undelete_safe_iff parse_crowded false everything

/-- A place is counted back beyond the start of the node. -/
theorem undelete_crowded : Volume.parse .debug crowdedSource 0 = .ok (.ok smallVolume) ∧
    ∀ windows opts, smallVolume.recoverDeleted .debug crowdedSource windows opts = .error .overflow := by
  refine ⟨parse_crowded, fun windows opts => ?_⟩
  rw [Volume.recoverDeleted, passes_crowded]
  rfl

end Crowded

end Unearth.Hfs
