import Unearth.HfsForks

/-!
# The bytes of a fragmented file

A file record has room for eight extents. Where the file has more, records of the overflow tree go on
with it: each begins at the block at which the ones before it end. One that does not ends the file.
-/

namespace Unearth.Hfs
open Bytes Word Loop Post Gaps

section Map

variable {total : ℕ}

def blockCount (extents : List (ℕ × ℕ)) : ℕ := (extents.map (·.2)).sum

/-- The extents of the records that go on at the block that is covered, one behind the other. -/
def continuing : ℕ → PendingRuns total → List (ℕ × ℕ)
  | _, [] => []
  | covered, next :: rest =>
    if next.startBlock = covered then
      next.extents.extents ++ continuing (covered + blockCount next.extents.extents) rest
    else []

/-- The records of a file among those of the overflow tree: those of its data that have extents. -/
def recordsOf (fileId : ℕ) (records : List (ExtentRecord total)) : PendingRuns total :=
  (records.filter fun r => r.fileId = fileId ∧ r.forkType = 0 ∧ r.pending.extents.extents ≠ []).map (·.pending)

/-- In the order of their blocks, and of the tree where these are the same. -/
def inOrder (runs : PendingRuns total) : PendingRuns total :=
  runs.insertionSort fun r r' => r.startBlock ≤ r'.startBlock

/-- The extents of a file and of the records that go on with it. -/
def forkMap (rec : FileRecord total) (records : List (ExtentRecord total)) : List (ℕ × ℕ) :=
  rec.extents.extents ++ continuing (blockCount rec.extents.extents) (inOrder (recordsOf rec.fileId records))

end Map

section Supply

variable (v : Volume) (src : Source)

/-- The source has the first `n` bytes of blocks, and reads them block by block. -/
def Supplied : List ℕ → ℕ → Prop
  | [], n => n = 0
  | block :: rest, n => n = 0 ∨
    (∃ bytes, src.readAt (v.offset + block * v.blockSize) (min n v.blockSize) = .ok bytes ∧
      bytes.length = min n v.blockSize) ∧ Supplied rest (n - v.blockSize)

variable {v src}

theorem supplied_zero (l : List ℕ) : Supplied v src l 0 := by
  cases l with
  | nil => rfl
  | cons block rest => exact .inl rfl

theorem supplied_append (l m : List ℕ) (n : ℕ) : Supplied v src (l ++ m) n ↔
    Supplied v src l (min n (l.length * v.blockSize)) ∧ Supplied v src m (n - l.length * v.blockSize) := by
  have hpos : 0 < v.blockSize := lt_of_lt_of_le (by decide) v.block_range.1
  induction l generalizing n with
  | nil => simp [Supplied]
  | cons block rest ih =>
    obtain rfl | hn := n.eq_zero_or_pos
    · simp [supplied_zero]
    have hlength : (block :: rest).length * v.blockSize = rest.length * v.blockSize + v.blockSize := by
      rw [List.length_cons, Nat.succ_mul]
    have hmin : min (min n (rest.length * v.blockSize + v.blockSize)) v.blockSize = min n v.blockSize := by omega
    have hsub : min n (rest.length * v.blockSize + v.blockSize) - v.blockSize =
        min (n - v.blockSize) (rest.length * v.blockSize) := by omega
    have hrest := ih (n - v.blockSize)
    rw [Nat.sub_sub, Nat.add_comm v.blockSize] at hrest
    simp only [List.cons_append, Supplied, hlength, hmin, hsub]
    rw [or_iff_right (by omega), or_iff_right (by omega), and_assoc]
    exact and_congr_right' hrest

end Supply

section Extent

variable {b : Build} {v : Volume} {src : Source}

/-- Bytes that were read are those of the block. -/
theorem read_block {block n : ℕ} {bytes : List UInt8}
    (h : src.readAt (v.offset + block * v.blockSize) (min n v.blockSize) = .ok bytes)
    (hlength : bytes.length = min n v.blockSize) : bytes.map some = (blockBytes v src block).take n := by
  have hbytes := Source.readAt_ok h
  rw [hbytes, length_window] at hlength
  refine List.ext_getElem? fun i => ?_
  rw [List.getElem?_map, hbytes, window, List.getElem?_take, List.getElem?_take, blockBytes, List.getElem?_map,
    List.getElem?_drop]
  by_cases hi : i < min n v.blockSize
  · have hin : v.offset + block * v.blockSize + i < src.data.length := by omega
    rw [if_pos hi, if_pos (by omega), List.getElem?_range' (by omega), Nat.one_mul, Option.map_some,
      List.getElem?_eq_getElem hin, Option.map_some]
  · rw [if_neg hi]
    by_cases hn : i < n
    · rw [if_pos hn, List.getElem?_eq_none (by rw [List.length_range']; omega)]
      rfl
    · rw [if_neg hn]
      rfl

theorem extentStep_more {base toRead : ℕ} {got : List UInt8} (hword : base + toRead ≤ 2 ^ 64)
    (hmore : got.length < toRead) : v.extentStep b src base toRead got =
      match src.readAt (base + got.length) (min (toRead - got.length) v.blockSize) with
      | .error e => .done (.error e)
      | .ok bytes => if bytes = [] then .done (.ok got) else .next (got ++ bytes) := by
  unfold Volume.extentStep
  rw [if_neg (not_le.mpr hmore), word_eq (by omega)]
  rfl

/-- Behind the end of the source nothing more is read. -/
theorem extentLoop_end {base toRead : ℕ} {got : List UInt8} (hword : base + toRead ≤ 2 ^ 64)
    (hmore : got.length < toRead) (hend : src.data.length ≤ base + got.length) :
    (v.extentLoop b src base toRead).eval got = .error .io ∨
      ∃ got', (v.extentLoop b src base toRead).eval got = .ok got' ∧ got'.length < toRead := by
  have hstep := @extentStep_more b v src _ _ _ hword hmore
  cases hread : src.readAt (base + got.length) (min (toRead - got.length) v.blockSize) with
  | error e =>
    rw [hread, Source.readAt_error hread] at hstep
    exact .inl ((v.extentLoop b src base toRead).eval_done hstep)
  | ok bytes =>
    have hnone : bytes = [] := by
      rw [Source.readAt_ok hread, window, List.drop_eq_nil_of_le hend, List.take_nil]
    rw [hread] at hstep
    dsimp only at hstep
    rw [if_pos hnone] at hstep
    exact .inr ⟨got, (v.extentLoop b src base toRead).eval_done hstep, hmore⟩

/-- An extent is read as far as it is wanted, or the read falls short. -/
theorem extentLoop_blocks {k block base toRead n : ℕ} {got : List UInt8} (hword : base + toRead ≤ 2 ^ 64)
    (hplace : base + got.length = v.offset + block * v.blockSize) (hn : toRead = got.length + n)
    (hle : n ≤ k * v.blockSize) :
    (Supplied v src (List.range' block k) n → ∃ bytes, (v.extentLoop b src base toRead).eval got = .ok (got ++ bytes) ∧
      bytes.length = n ∧ bytes.map some = ((List.range' block k).flatMap (blockBytes v src)).take n) ∧
    (¬ Supplied v src (List.range' block k) n → (v.extentLoop b src base toRead).eval got = .error .io ∨
      ∃ got', (v.extentLoop b src base toRead).eval got = .ok got' ∧ got'.length < toRead) := by
  have hpos : 0 < v.blockSize := lt_of_lt_of_le (by decide) v.block_range.1
  induction k generalizing block got n with
  | zero =>
    have hnone : n = 0 := by omega
    subst hnone
    have hdone : (v.extentLoop b src base toRead).eval got = .ok got :=
      (v.extentLoop b src base toRead).eval_done (if_pos (by omega))
    exact ⟨fun _ => ⟨[], by rw [hdone, List.append_nil], rfl, rfl⟩, fun hno => absurd (supplied_zero _) hno⟩
  | succ k ih =>
    obtain rfl | hsome := n.eq_zero_or_pos
    · have hdone : (v.extentLoop b src base toRead).eval got = .ok got :=
        (v.extentLoop b src base toRead).eval_done (if_pos (by omega))
      exact ⟨fun _ => ⟨[], by rw [hdone, List.append_nil], rfl, rfl⟩, fun hno => absurd (supplied_zero _) hno⟩
    have hstep := @extentStep_more b v src _ _ got hword (by omega)
    rw [hplace, show toRead - got.length = n by omega] at hstep
    rw [List.range'_succ, Supplied, or_iff_right (by omega), List.flatMap_cons]
    cases hread : src.readAt (v.offset + block * v.blockSize) (min n v.blockSize) with
    | error e =>
      rw [hread, Source.readAt_error hread] at hstep
      refine ⟨?_, fun _ => .inl ((v.extentLoop b src base toRead).eval_done hstep)⟩
      rintro ⟨⟨bytes, hbytes, -⟩, -⟩
      cases hbytes
    | ok bytes =>
      rw [hread] at hstep
      dsimp only at hstep
      have hbytes := Source.readAt_ok hread
      have hlength : bytes.length = min (min n v.blockSize) (src.data.length - (v.offset + block * v.blockSize)) := by
        rw [hbytes, length_window]
      by_cases hfull : bytes.length = min n v.blockSize
      · rw [if_neg (List.ne_nil_of_length_pos (by omega))] at hstep
        have hnext := (v.extentLoop b src base toRead).eval_next hstep
        have hown := read_block hread hfull
        have hblock := @length_blockBytes v src block
        have hthere : ∃ bytes', .ok bytes = (.ok bytes' : Exec (List UInt8)) ∧ bytes'.length = min n v.blockSize :=
          ⟨bytes, rfl, hfull⟩
        rw [and_iff_right hthere]
        by_cases hlast : n ≤ v.blockSize
        · have hdone : (v.extentLoop b src base toRead).eval got = .ok (got ++ bytes) := by
            rw [hnext]
            refine (v.extentLoop b src base toRead).eval_done (if_pos ?_)
            rw [List.length_append]
            omega
          have hrest : Supplied v src (List.range' (block + 1) k) (n - v.blockSize) := by
            rw [Nat.sub_eq_zero_of_le hlast]
            exact supplied_zero _
          refine ⟨fun _ => ⟨bytes, hdone, by omega, ?_⟩, fun hno => absurd hrest hno⟩
          rw [hown, List.take_append_of_le_length (by omega)]
        · have hwhole : bytes.length = v.blockSize := by omega
          obtain ⟨hall, hshort⟩ := @ih (block + 1) (n - v.blockSize) (got ++ bytes)
            (by rw [List.length_append, Nat.succ_mul]; omega) (by rw [List.length_append]; omega)
            (by rw [Nat.succ_mul] at hle; omega)
          rw [hnext]
          refine ⟨fun hsupplied => ?_, hshort⟩
          obtain ⟨more, hmore, hmoreLength, hmoreBytes⟩ := hall hsupplied
          refine ⟨bytes ++ more, by rw [hmore, List.append_assoc], by rw [List.length_append]; omega, ?_⟩
          rw [List.map_append, hown, hmoreBytes, List.take_append, hblock, List.take_of_length_le (by omega)]
      · have hno : ¬ ∃ bytes', .ok bytes = (.ok bytes' : Exec (List UInt8)) ∧ bytes'.length = min n v.blockSize := by
          rintro ⟨bytes', heq, hlength'⟩
          cases heq
          exact hfull hlength'
        refine ⟨fun hsupplied => absurd hsupplied.1 hno, fun _ => ?_⟩
        by_cases hempty : bytes = []
        · rw [if_pos hempty] at hstep
          exact .inr ⟨got, (v.extentLoop b src base toRead).eval_done hstep, by omega⟩
        · rw [if_neg hempty] at hstep
          rw [(v.extentLoop b src base toRead).eval_next hstep]
          have hgot := List.length_pos_of_ne_nil hempty
          exact extentLoop_end hword (by rw [List.length_append]; omega) (by rw [List.length_append]; omega)

theorem forkBytes_cons (start count : ℕ) (rest : List (ℕ × ℕ)) : forkBytes v src ((start, count) :: rest) =
    (List.range' start count).flatMap (blockBytes v src) ++ forkBytes v src rest := by
  rw [forkBytes, blocksOf, List.flatMap_cons, List.flatMap_append]
  rfl

theorem length_blocks (block k : ℕ) : ((List.range' block k).flatMap (blockBytes v src)).length = k * v.blockSize := by
  rw [List.length_flatMap, List.map_congr_left fun block _ => length_blockBytes block, List.map_const',
    List.sum_replicate, List.length_range', smul_eq_mul]

/-- The extents are read as far as it is wanted, or the read falls short. -/
theorem readData_blocks {extents : List (ℕ × ℕ)} (hoffset : v.offset < 2 ^ 63)
    (hinside : ∀ e ∈ extents, e.1 < v.totalBlocks ∧ e.1 + e.2 ≤ v.totalBlocks + 1) (n : ℕ) (data : List UInt8) :
    (Supplied v src (blocksOf extents) n → ∃ bytes, v.readData b src extents n data = .ok (0, data ++ bytes) ∧
      bytes.map some = (forkBytes v src extents).take n) ∧
    (¬ Supplied v src (blocksOf extents) n → v.readData b src extents n data = .error .io ∨
      ∃ r bytes, v.readData b src extents n data = .ok (r, bytes) ∧ 0 < r) := by
  induction extents generalizing n data with
  | nil =>
    refine ⟨fun hzero => ⟨[], ?_, ?_⟩, fun hno => .inr ⟨n, data, rfl, Nat.pos_of_ne_zero hno⟩⟩
    · rw [show n = 0 from hzero, List.append_nil]
      rfl
    · rw [show n = 0 from hzero]
      rfl
  | cons e rest ih =>
    obtain ⟨start, count⟩ := e
    obtain ⟨hown, hinside⟩ := List.forall_mem_cons.mp hinside
    dsimp only at hown
    obtain rfl | hn := n.eq_zero_or_pos
    · refine ⟨fun _ => ⟨[], ?_, rfl⟩, fun hno => absurd (supplied_zero _) hno⟩
      rw [List.append_nil]
      rfl
    have htotal := v.total_lt
    have hsize := v.block_range.2
    have hcount : count * v.blockSize ≤ 2 ^ 32 * 65536 := Nat.mul_le_mul (by omega) hsize
    have hstart : start * v.blockSize ≤ 2 ^ 32 * 65536 := Nat.mul_le_mul (by omega) hsize
    have hsplit : blocksOf ((start, count) :: rest) = List.range' start count ++ blocksOf rest := rfl
    have hlength := @length_blocks v src start count
    obtain ⟨hall, hshort⟩ := @extentLoop_blocks b v src count start (v.offset + start * v.blockSize)
      (min (count * v.blockSize) n) (min (count * v.blockSize) n) [] (by omega) (Nat.add_zero _) (Nat.zero_add _).symm
      (min_le_left _ _)
    rw [hsplit, supplied_append, List.length_range', Nat.min_comm n, forkBytes_cons]
    unfold Volume.readData
    rw [if_neg (by omega), word_eq (by omega), exec_ok_bind, word_eq (by omega), exec_ok_bind]
    by_cases hown : Supplied v src (List.range' start count) (min (count * v.blockSize) n)
    · obtain ⟨got, hgot, hgotLength, hgotBytes⟩ := hall hown
      obtain ⟨hrest, hrestShort⟩ := ih hinside (n - count * v.blockSize) (data ++ got)
      rw [and_iff_right hown, hgot, exec_ok_bind, List.nil_append, if_neg (by omega),
        show n - got.length = n - count * v.blockSize by omega]
      refine ⟨fun hsupplied => ?_, hrestShort⟩
      obtain ⟨bytes, hbytes, hmap⟩ := hrest hsupplied
      refine ⟨got ++ bytes, by rw [hbytes, List.append_assoc], ?_⟩
      have htake : ((List.range' start count).flatMap (blockBytes v src)).take (min (count * v.blockSize) n) =
          ((List.range' start count).flatMap (blockBytes v src)).take n := by
        rw [← hlength, Nat.min_comm, ← List.take_eq_take_min]
      rw [List.map_append, hgotBytes, hmap, List.take_append, hlength, htake]
    · refine ⟨fun hsupplied => absurd hsupplied.1 hown, fun _ => ?_⟩
      obtain herror | ⟨got, hgot, hgotShort⟩ := hshort hown
      · rw [herror]
        exact .inl rfl
      · rw [hgot, exec_ok_bind, if_pos hgotShort]
        exact .inr ⟨n - got.length, data ++ got, rfl, by omega⟩

end Extent

section Records

variable {b : Build} (v : Volume)

/-- What the records of the tree give each file. -/
def gather (overflow : OverflowExtents v.totalBlocks) (records : List (ExtentRecord v.totalBlocks)) :
    OverflowExtents v.totalBlocks :=
  records.foldl (fun overflow r =>
    if r.forkType ≠ 0 ∨ r.pending.extents.extents = [] then overflow else v.addExtents r overflow) overflow

def gathered (records : List (ExtentRecord v.totalBlocks)) : OverflowExtents v.totalBlocks :=
  v.sortRuns (gather v [] records)

def recordsAt (b : Build) (node : List UInt8) (records : List (ExtentRecord v.totalBlocks)) (off : ℕ) :
    Exec (List (ExtentRecord v.totalBlocks)) := do
  return records ++ (← parseExtentRecord b v node off).toList

/-- The records of a tree, leaf by leaf. -/
def overflowRecords (b : Build) (tree : List UInt8) : Exec (List (ExtentRecord v.totalBlocks)) :=
  if tree.length < 512 then return []
  else
    match nodeSize tree with
    | .error _ => return []
    | .ok ns => forLeaves tree ns (fun records node => do
        (← liveRecordOffsets b node ns).foldlM (recordsAt v b node) records) []

variable {v}

theorem lookup_sortRuns (overflow : OverflowExtents v.totalBlocks) (c : ℕ) :
    (v.sortRuns overflow).lookup c = (overflow.lookup c).map inOrder := by
  induction overflow with
  | nil => rfl
  | cons e rest ih =>
    change List.lookup c ((e.1, inOrder e.2) :: v.sortRuns rest) = _
    rw [List.lookup_cons, List.lookup_cons, ih]
    cases c == e.1 <;> rfl

/-- A file is given its own records, in the order of the tree. -/
theorem lookup_gather (overflow : OverflowExtents v.totalBlocks) (records : List (ExtentRecord v.totalBlocks)) (c : ℕ) :
    ((gather v overflow records).lookup c).getD [] = (overflow.lookup c).getD [] ++ recordsOf c records := by
  induction records generalizing overflow with
  | nil => exact (List.append_nil _).symm
  | cons r rest ih =>
    change ((gather v (if _ then _ else _) rest).lookup c).getD [] = _
    rw [ih, recordsOf, recordsOf, List.filter_cons]
    by_cases hskip : r.forkType ≠ 0 ∨ r.pending.extents.extents = []
    · have hno : ¬ (r.fileId = c ∧ r.forkType = 0 ∧ r.pending.extents.extents ≠ []) := by tauto
      rw [if_pos hskip, if_neg (by simpa using hno)]
    · rw [if_neg hskip, Volume.addExtents, SortedMap.lookup_insert]
      by_cases hc : c = r.fileId
      · subst hc
        have hyes : r.fileId = r.fileId ∧ r.forkType = 0 ∧ r.pending.extents.extents ≠ [] := by tauto
        rw [if_pos rfl, if_pos (by simpa using hyes), List.map_cons, Option.getD_some, List.append_assoc]
        rfl
      · rw [if_neg hc, if_neg (by simp [Ne.symm hc])]

theorem followRuns_eq (covered : ℕ) (runs : PendingRuns v.totalBlocks) (extents : List (ℕ × ℕ)) :
    v.followRuns b covered runs extents = .ok (extents ++ continuing covered runs) := by
  induction runs generalizing covered extents with
  | nil => exact congrArg Except.ok (List.append_nil _).symm
  | cons next rest ih =>
    unfold Volume.followRuns
    by_cases hkey : next.startBlock = covered
    · have hstart := next.start_lt
      have hblocks := v.blocks_lt next.extents
      rw [if_neg (not_not.mpr hkey), word_eq (by omega), exec_ok_bind, ih, continuing, if_pos hkey, List.append_assoc]
      rfl
    · rw [if_pos hkey, continuing, if_neg hkey, List.append_nil]
      rfl

theorem inside_continuing (covered : ℕ) (runs : PendingRuns v.totalBlocks) :
    ∀ e ∈ continuing covered runs, e.1 < v.totalBlocks ∧ e.1 + e.2 ≤ v.totalBlocks + 1 := by
  induction runs generalizing covered with
  | nil => exact fun e he => by cases he
  | cons next rest ih =>
    rw [continuing]
    split_ifs
    · exact List.forall_mem_append.mpr ⟨next.extents.inside, ih _⟩
    · exact fun e he => by cases he

theorem inside_forkMap (rec : FileRecord v.totalBlocks) (records : List (ExtentRecord v.totalBlocks)) :
    ∀ e ∈ forkMap rec records, e.1 < v.totalBlocks ∧ e.1 + e.2 ≤ v.totalBlocks + 1 :=
  List.forall_mem_append.mpr ⟨rec.extents.inside, inside_continuing _ _⟩

/-- All the extents of a file are those of the map. -/
theorem fileExtents_eq (rec : FileRecord v.totalBlocks) (records : List (ExtentRecord v.totalBlocks)) :
    v.fileExtents b rec (gathered v records) = .ok (forkMap rec records) := by
  have hblocks := v.blocks_lt rec.extents
  have hown := lookup_gather (v := v) [] records rec.fileId
  unfold Volume.fileExtents
  rw [gathered, lookup_sortRuns]
  cases hlookup : (gather v [] records).lookup rec.fileId with
  | none =>
    rw [hlookup] at hown
    have hnil : recordsOf rec.fileId records = [] := hown.symm
    rw [forkMap, hnil]
    exact congrArg Except.ok (List.append_nil _).symm
  | some runs =>
    rw [hlookup] at hown
    have hruns : runs = recordsOf rec.fileId records := hown
    rw [Option.map_some]
    dsimp only
    rw [word_eq (by omega), exec_ok_bind, followRuns_eq, hruns]
    rfl

theorem forLeaves_image {σ τ : Type} {φ : σ → τ} {f : τ → List UInt8 → Exec τ} {g : σ → List UInt8 → Exec σ}
    (h : ∀ s node, f (φ s) node = φ <$> g s node) (tree : List UInt8) (ns : ℕ) (s : σ) :
    forLeaves tree ns f (φ s) = φ <$> forLeaves tree ns g s := by
  refine foldlM_image (fun s idx => ?_) _ s
  cases slice tree (idx * ns) ns with
  | error e => rfl
  | ok node =>
    rw [exec_ok_bind, exec_ok_bind]
    split_ifs
    · exact h s node
    · rfl

theorem gather_append (overflow : OverflowExtents v.totalBlocks) (l m : List (ExtentRecord v.totalBlocks)) :
    gather v overflow (l ++ m) = gather v (gather v overflow l) m := List.foldl_append

/-- What is read of a tree is what its records give. -/
theorem overflowOf_eq (tree : List UInt8) : v.overflowOf b tree = gathered v <$> overflowRecords v b tree := by
  unfold Volume.overflowOf overflowRecords
  split_ifs
  · rfl
  cases nodeSize tree with
  | error e => rfl
  | ok ns =>
    have himage : forLeaves tree ns (v.readOverflowNode b ns) (gather v [] []) =
        gather v [] <$> forLeaves tree ns (fun records node => do
          (← liveRecordOffsets b node ns).foldlM (recordsAt v b node) records) [] := by
      refine forLeaves_image (fun records node => ?_) tree ns []
      unfold Volume.readOverflowNode
      cases liveRecordOffsets b node ns with
      | error e => rfl
      | ok offs =>
        refine foldlM_image (fun records off => ?_) offs records
        unfold Volume.addExtentRecord recordsAt
        cases parseExtentRecord b v node off with
        | error e => rfl
        | ok o =>
          cases o with
          | none => exact congrArg (fun l => Except.ok (gather v [] l)) (List.append_nil records).symm
          | some r => exact congrArg Except.ok (gather_append [] records [r]).symm
    change (forLeaves tree ns (v.readOverflowNode b ns) (gather v [] []) >>= _) = gathered v <$> forLeaves tree ns _ []
    rw [himage]
    cases forLeaves tree ns (fun records node => do
      (← liveRecordOffsets b node ns).foldlM (recordsAt v b node) records) [] <;> rfl

end Records

section Order

variable {total : ℕ}

/-- Records in the order of their blocks are the same in whatever order they were, if no two begin with the same
block. -/
theorem inOrder_perm {runs runs' : PendingRuns total} (h : runs.Perm runs') (hkeys : (runs.map (·.startBlock)).Nodup) :
    inOrder runs = inOrder runs' := by
  have hsorted (l : PendingRuns total) : (inOrder l).Pairwise fun r r' => r.startBlock ≤ r'.startBlock :=
    List.pairwise_insertionSort _ l
  have hperm : (inOrder runs).Perm (inOrder runs') :=
    (List.perm_insertionSort _ runs).trans (h.trans (List.perm_insertionSort _ runs').symm)
  refine hperm.eq_of_pairwise ?_ (hsorted runs) (hsorted runs')
  intro r r' hr hr' hle hle'
  have hmem := (List.perm_insertionSort _ runs).mem_iff.mp hr
  have hmem' := h.mem_iff.mpr ((List.perm_insertionSort _ runs').mem_iff.mp hr')
  exact List.inj_on_of_nodup_map hkeys hmem hmem' (le_antisymm hle hle')

theorem forkMap_perm {records records' : List (ExtentRecord total)} (h : records.Perm records')
    (rec : FileRecord total) (hkeys : ((recordsOf rec.fileId records).map (·.startBlock)).Nodup) :
    forkMap rec records = forkMap rec records' := by
  have horder : inOrder (recordsOf rec.fileId records) = inOrder (recordsOf rec.fileId records') :=
    inOrder_perm ((h.filter _).map _) hkeys
  rw [forkMap, forkMap, horder]

end Order

section Exact

variable {v : Volume} {src : Source}

/-- A block of a source whose reads succeed is read as far as it is in it. -/
theorem supplied_block (hrel : src.Reliable) (block : ℕ) {n : ℕ} (hn : 0 < n) :
    (∃ bytes, src.readAt (v.offset + block * v.blockSize) (min n v.blockSize) = .ok bytes ∧
      bytes.length = min n v.blockSize) ↔ none ∉ (blockBytes v src block).take n := by
  constructor
  · rintro ⟨bytes, hread, hlength⟩ hnone
    rw [← read_block hread hlength] at hnone
    obtain ⟨_, -, hsome⟩ := List.mem_map.mp hnone
    cases hsome
  · intro hno
    have hpos : 0 < v.blockSize := lt_of_lt_of_le (by decide) v.block_range.1
    have hin : v.offset + block * v.blockSize + (min n v.blockSize - 1) < src.data.length := by
      by_contra hout
      refine hno (List.mem_iff_getElem?.mpr ⟨min n v.blockSize - 1, ?_⟩)
      rw [List.getElem?_take, if_pos (by omega), blockBytes, List.getElem?_map, List.getElem?_range' (by omega),
        Nat.one_mul, Option.map_some, List.getElem?_eq_none (by omega)]
    have hsize := src.size_lt
    refine ⟨_, hrel.readAt (by omega) _, ?_⟩
    rw [length_window]
    omega

/-- Blocks of a source whose reads succeed are read as far as they are in it. -/
theorem supplied_iff (hrel : src.Reliable) (blocks : List ℕ) (n : ℕ) : Supplied v src blocks n ↔
    n ≤ (blocks.flatMap (blockBytes v src)).length ∧ none ∉ (blocks.flatMap (blockBytes v src)).take n := by
  induction blocks generalizing n with
  | nil => simp [Supplied]
  | cons block rest ih =>
    have hblock := @length_blockBytes v src block
    obtain rfl | hn := n.eq_zero_or_pos
    · simp [supplied_zero]
    have hread := supplied_block (v := v) hrel block hn
    rw [Supplied, or_iff_right (by omega), hread, ih, List.flatMap_cons, List.length_append, List.take_append,
      List.mem_append, hblock]
    constructor
    · rintro ⟨hown, hle, hrest⟩
      exact ⟨by omega, fun hnone => hnone.elim hown hrest⟩
    · rintro ⟨hle, hno⟩
      exact ⟨fun h => hno (.inl h), by omega, fun h => hno (.inr h)⟩

end Exact

/-- A file is read whole exactly when the source supplies the bytes of its map, and then its data are
these; records that are not in the map have no part in it. -/
theorem fragmented_file_exact (b : Build) (v : Volume) (src : Source) (hoffset : v.offset < 2 ^ 63)
    (rec : FileRecord v.totalBlocks) :
    (∀ records : List (ExtentRecord v.totalBlocks), ∃ o, v.readFileData b src rec (gathered v records) = .ok o ∧
      ∀ data : List UInt8, o = some data ↔ Supplied v src (blocksOf (forkMap rec records)) rec.logicalSize ∧
        data.map some = (forkBytes v src (forkMap rec records)).take rec.logicalSize) ∧
    (∀ tree, v.overflowOf b tree = gathered v <$> overflowRecords v b tree) ∧
    (∀ records records' : List (ExtentRecord v.totalBlocks), records.Perm records' →
      ((recordsOf rec.fileId records).map (·.startBlock)).Nodup → forkMap rec records = forkMap rec records') ∧
    (src.Reliable → ∀ records : List (ExtentRecord v.totalBlocks),
      (Supplied v src (blocksOf (forkMap rec records)) rec.logicalSize ↔
        rec.logicalSize ≤ (forkBytes v src (forkMap rec records)).length ∧
          none ∉ (forkBytes v src (forkMap rec records)).take rec.logicalSize)) := by
  refine ⟨fun records => ?_, overflowOf_eq, fun records records' h hkeys => forkMap_perm h rec hkeys,
    fun hrel records => supplied_iff hrel _ _⟩
  obtain ⟨hall, hshort⟩ := @readData_blocks b v src _ hoffset (inside_forkMap rec records) rec.logicalSize []
  unfold Volume.readFileData
  rw [fileExtents_eq, exec_ok_bind]
  by_cases hsupplied : Supplied v src (blocksOf (forkMap rec records)) rec.logicalSize
  · obtain ⟨bytes, hread, hbytes⟩ := hall hsupplied
    rw [hread]
    refine ⟨some bytes, rfl, fun data => ?_⟩
    rw [and_iff_right hsupplied, ← hbytes, Option.some_inj]
    exact ⟨fun h => h ▸ rfl, fun h => (List.map_injective_iff.mpr (Option.some_injective _) h).symm⟩
  · have hnone : ∀ data : List UInt8, none = some data ↔
        Supplied v src (blocksOf (forkMap rec records)) rec.logicalSize ∧
          data.map some = (forkBytes v src (forkMap rec records)).take rec.logicalSize := fun data =>
      ⟨fun h => absurd h.symm (Option.some_ne_none data), fun h => absurd h.1 hsupplied⟩
    obtain herror | ⟨r, bytes, hread, hr⟩ := hshort hsupplied
    · rw [herror]
      exact ⟨none, rfl, hnone⟩
    · rw [hread]
      exact ⟨none, congrArg Except.ok (if_pos hr), hnone⟩

section Sample

def scatteredBytes : List UInt8 := List.replicate 515 1 ++ List.replicate 1024 2 ++ List.replicate 512 3

theorem length_scattered_lt : scatteredBytes.length < 2 ^ 63 := by
  simp only [scatteredBytes, List.length_append, List.length_replicate]
  decide

def scatteredSource : Source where
  data := scatteredBytes
  size_lt := length_scattered_lt

def scatteredVolume : Volume where
  offset := 3
  blockSize := 512
  totalBlocks := 4
  catalogExtents := .none 4
  catalogSize := 0
  allocationExtents := .none 4
  extentsOverflowExtents := .none 4
  extentsOverflowSize := 0
  hfsx := false
  journal := none
  block_range := least_block_range
  total_lt := by decide

theorem block_inside {start : ℕ} (h : start < 4) : ∀ e ∈ [(start, 1)], e.1 < 4 ∧ e.1 + e.2 ≤ 4 + 1 :=
  List.forall_mem_singleton.mpr ⟨h, Nat.succ_le_succ h.le⟩

def oneBlock (start : Fin 4) : Runs 4 := ⟨[(start.val, 1)], by simp, block_inside start.isLt⟩

def scatteredFile : FileRecord scatteredVolume.totalBlocks where
  name := []
  fileId := 20
  parentId := 2
  logicalSize := 700
  modDate := 0
  accessDate := 0
  extents := oneBlock 0

theorem second_start_lt : 1 < 2 ^ 32 := by decide

/-- A stray record, and one that goes on with the file behind it. -/
def scatteredRecords : List (ExtentRecord scatteredVolume.totalBlocks) :=
  [⟨0, 20, ⟨5, oneBlock 1, by decide⟩⟩, ⟨0, 20, ⟨1, oneBlock 3, second_start_lt⟩⟩,
    ⟨0, 21, ⟨1, oneBlock 2, second_start_lt⟩⟩]

def scatteredData : List UInt8 := List.replicate 512 1 ++ List.replicate 188 3

theorem scattered_reads : scatteredSource.readAt 3 512 = .ok (List.replicate 512 1) ∧
    scatteredSource.readAt 1539 188 = .ok (List.replicate 188 3) ∧
    forkMap scatteredFile scatteredRecords = [(0, 1), (3, 1)] := by decide +kernel

theorem scattered_block_zero :
    (List.replicate 512 1).map some = (blockBytes scatteredVolume scatteredSource 0).take 700 :=
  read_block scattered_reads.1 List.length_replicate

theorem scattered_block_three :
    (List.replicate 188 3).map some = (blockBytes scatteredVolume scatteredSource 3).take 188 :=
  read_block scattered_reads.2.1 List.length_replicate

theorem scattered_length : scatteredFile.logicalSize ≤
    (forkBytes scatteredVolume scatteredSource (forkMap scatteredFile scatteredRecords)).length := by
  rw [scattered_reads.2.2, forkBytes_cons, forkBytes_cons, List.length_append, List.length_append, length_blocks,
    length_blocks]
  rw [← Nat.add_assoc]
  exact (by decide : 700 ≤ 1 * 512 + 1 * 512).trans (Nat.le_add_right _ _)

theorem scattered_bytes : scatteredData.map some =
    (forkBytes scatteredVolume scatteredSource (forkMap scatteredFile scatteredRecords)).take
      scatteredFile.logicalSize := by
  have hlength : (blockBytes scatteredVolume scatteredSource 0).length = 512 := length_blockBytes 0
  have hnone : forkBytes scatteredVolume scatteredSource [] = [] := rfl
  have hsize : scatteredFile.logicalSize = 700 := rfl
  rw [scattered_reads.2.2, forkBytes_cons, forkBytes_cons, hnone, List.append_nil, hsize, List.range'_one, List.range'_one,
    List.flatMap_singleton, List.flatMap_singleton, List.take_append, hlength, scatteredData, List.map_append,
    scattered_block_zero, scattered_block_three]

theorem scattered_present : none ∉ scatteredData.map some := by simp

theorem scattered_exact : scatteredVolume.readFileData .release scatteredSource scatteredFile
    (gathered scatteredVolume scatteredRecords) = .ok (some scatteredData) := by
  have hoffset : scatteredVolume.offset < 2 ^ 63 := by decide
  obtain ⟨hexact, -, -, hsupplied⟩ :=
    fragmented_file_exact .release scatteredVolume scatteredSource hoffset scatteredFile
  have hthere := (hsupplied (fun _ _ => rfl) scatteredRecords).mpr
    ⟨scattered_length, scattered_bytes ▸ scattered_present⟩
  obtain ⟨o, ho, hdata⟩ := hexact scatteredRecords
  rw [ho, (hdata scatteredData).mpr ⟨hthere, scattered_bytes⟩]

end Sample

end Unearth.Hfs
