import Unearth.HfsSafety

/-!
# The nodes that the scan of a journal sees

The scan reads the journal in chunks that overlap. All the same it sees each place once, in the
order of the places, that has room for a node before the end of the journal and of the source.
-/

namespace Unearth.Hfs
open Bytes Word Loop Post

/-- What the scan takes for a leaf node. -/
def isLeafNode (ns : ℕ) (node : List UInt8) : Bool := looksLikeLeafNode .debug node ns = .ok true

/-- The number of the places, 512 bytes apart, that have room for a node before an end. -/
def placesFrom (ns pos last : ℕ) : ℕ := if pos + ns ≤ last then (last - pos - ns) / 512 + 1 else 0

/-- The leaf nodes at so many places of a buffer. -/
def leavesAt (ns : ℕ) (buf : List UInt8) (off n : ℕ) : List (List UInt8) :=
  ((List.range n).map fun i => window buf (off + 512 * i) ns).filter (isLeafNode ns)

theorem leavesAt_zero (ns : ℕ) (buf : List UInt8) (off : ℕ) : leavesAt ns buf off 0 = [] := rfl

theorem leavesAt_succ (ns : ℕ) (buf : List UInt8) (off n : ℕ) : leavesAt ns buf off (n + 1) =
    (if isLeafNode ns (window buf off ns) then [window buf off ns] else []) ++ leavesAt ns buf (off + 512) n := by
  unfold leavesAt
  rw [List.range_succ_eq_map, List.map_cons, List.filter_cons, List.map_map, Nat.mul_zero, Nat.add_zero]
  have hshift : (fun i => window buf (off + 512 * i) ns) ∘ Nat.succ = fun i => window buf (off + 512 + 512 * i) ns := by
    funext i
    rw [Function.comp_apply, Nat.mul_succ, Nat.add_comm (512 * i), Nat.add_assoc]
  rw [hshift]
  split <;> rfl

theorem leavesAt_add (ns : ℕ) (buf : List UInt8) (off m n : ℕ) :
    leavesAt ns buf off (m + n) = leavesAt ns buf off m ++ leavesAt ns buf (off + 512 * m) n := by
  induction m generalizing off with
  | zero =>
    rw [Nat.zero_add, Nat.mul_zero, Nat.add_zero, leavesAt_zero, List.nil_append]
  | succ m ih =>
    rw [Nat.succ_add, leavesAt_succ, ih, leavesAt_succ, List.append_assoc, Nat.mul_succ, Nat.add_comm (512 * m),
      Nat.add_assoc]

/-- The leaf nodes in a part of a buffer are those of the buffer. -/
theorem leavesAt_window {ns : ℕ} {data : List UInt8} {base off len n : ℕ} (h : ∀ i < n, off + 512 * i + ns ≤ len) :
    leavesAt ns (window data base len) off n = leavesAt ns data (base + off) n := by
  unfold leavesAt
  congr 1
  apply List.map_congr_left
  intro i hi
  have hin := h i (List.mem_range.mp hi)
  unfold window
  rw [List.drop_take, List.take_take, List.drop_drop, min_eq_left (by omega), Nat.add_assoc]

section Chunk

variable {b : Build} {σ : Type} {f : σ → List UInt8 → Exec σ} {ns : ℕ} (hns : 512 ≤ ns ∧ ns ≤ 32768)
include hns

omit hns in
theorem offsetsRise_eq (hns : ns ≤ 32768) {node : List UInt8} (arrayStart : ℕ) {n i prev : ℕ} (h : 2 * (i + n) ≤ ns) :
    offsetsRise b node ns arrayStart n i prev = offsetsRise .debug node ns arrayStart n i prev := by
  induction n generalizing i prev with
  | zero => rfl
  | succ n ih =>
    have hle : 2 * (i + 1) ≤ ns := by omega
    unfold offsetsRise
    rw [minus_eq hle, minus_eq hle, exec_ok_bind, exec_ok_bind, beAt_eq (by omega), beAt_eq (by omega), exec_ok_bind,
      exec_ok_bind]
    split_ifs
    · rfl
    · exact ih (by omega)

theorem looksLikeLeafNode_eq {node : List UInt8} (hlen : node.length = ns) :
    looksLikeLeafNode b node ns = .ok (isLeafNode ns node) := by
  have hdebug : looksLikeLeafNode b node ns = looksLikeLeafNode .debug node ns := by
    unfold looksLikeLeafNode
    split_ifs with hkind
    · rfl
    rw [List.getElem?_eq_getElem (show 9 < node.length by omega)]
    dsimp only
    split_ifs with hnum
    · rfl
    have hle : ¬ ns / 24 < numRecords node := fun hlt => hnum (.inr (.inr (.inl hlt)))
    have hfits : 2 * (numRecords node + 1) ≤ ns := by omega
    rw [minus_eq hfits, minus_eq hfits, exec_ok_bind, exec_ok_bind, offsetsRise_eq hns.2 _ (by omega)]
  obtain ⟨t, ht, -⟩ := (ends_looksLikeLeafNode (E := fun _ => False) hlen hns).exists_ok
  rw [hdebug, isLeafNode, ht]
  cases t <;> rfl

theorem scanChunk_eq {buf : List UInt8} {lastStart : ℕ} (hlast : lastStart + ns ≤ buf.length) {n off : ℕ}
    (h : ∀ i < n, off + 512 * i ≤ lastStart) (s : σ) :
    Volume.scanChunk b f ns buf lastStart n off s = (leavesAt ns buf off n).foldlM f s := by
  induction n generalizing off s with
  | zero => rfl
  | succ n ih =>
    have hfirst := h 0 (Nat.succ_pos n)
    have hnode : (window buf off ns).length = ns := by
      rw [length_window]
      omega
    have hrest : ∀ i < n, off + 512 + 512 * i ≤ lastStart := by
      intro i hi
      have hin := h (i + 1) (by omega)
      omega
    rw [leavesAt_succ, List.foldlM_append, Volume.scanChunk, if_neg (by omega), slice_eq (by omega)]
    change (looksLikeLeafNode b (window buf off ns) ns >>= _) = _
    rw [looksLikeLeafNode_eq hns hnode]
    change (if _ then _ else _) = _
    split_ifs with hleaf
    · rw [List.foldlM_cons]
      cases f s (window buf off ns) with
      | error e => rfl
      | ok t => exact ih hrest t
    · exact ih hrest s

end Chunk

namespace Volume

section Scan

variable (v : Volume) (src : Source) (joff jlen ns : ℕ)

/-- How much of a range of the volume the source has. -/
def rangeRead : ℕ := min jlen (src.size - (v.offset + joff))

/-- The leaf nodes of the range from a place on. -/
def rangeNodes (pos : ℕ) : List (List UInt8) :=
  leavesAt ns src.data (v.offset + joff + pos) (placesFrom ns pos (v.rangeRead src joff jlen))

/-- Where a chunk is read: at the start, and behind every chunk that the source has in full. -/
def RangeReached (pos : ℕ) : Prop :=
  pos < jlen ∧ (pos = 0 ∨ min jlen (pos + ns) ≤ src.size - (v.offset + joff))

/-- The chunks of the range from a place on that are read can be read. -/
def RangeChunksRead (pos : ℕ) : Prop :=
  ∀ k, v.RangeReached src joff jlen ns (pos + k * JOURNAL_CHUNK) → ∃ buf,
    src.readAt (v.offset + joff + (pos + k * JOURNAL_CHUNK))
      (min (jlen - (pos + k * JOURNAL_CHUNK)) (JOURNAL_CHUNK + ns)) = .ok buf

variable {v src joff jlen ns}

/-- The places of a chunk and those behind it. -/
theorem placesFrom_chunk {pos : ℕ} (h : pos + ns ≤ v.rangeRead src joff jlen) :
    placesFrom ns pos (v.rangeRead src joff jlen) =
      (min (v.rangeRead src joff jlen - pos - ns) (JOURNAL_CHUNK - 1) / 512 + 1) +
        placesFrom ns (pos + JOURNAL_CHUNK) (v.rangeRead src joff jlen) := by
  have hchunk : JOURNAL_CHUNK = 512 * 8192 := by decide
  unfold placesFrom
  rw [if_pos h, hchunk]
  by_cases hmore : pos + 512 * 8192 + ns ≤ v.rangeRead src joff jlen
  · rw [if_pos hmore, min_eq_right (by omega)]
    omega
  · rw [if_neg hmore, min_eq_left (by omega)]

theorem rangeNodes_eq_nil {pos : ℕ} (h : v.rangeRead src joff jlen < pos + ns) :
    v.rangeNodes src joff jlen ns pos = [] := by
  rw [rangeNodes, placesFrom, if_neg (not_le.mpr h), leavesAt_zero]

section Loop

variable {b : Build} {σ : Type} {f : σ → List UInt8 → Exec σ} (hword : v.offset + joff + jlen ≤ 2 ^ 64)
include hword

variable (src ns f) in
/-- The body of the loop in a state before the end of the journal. -/
theorem chunkStep_eq {pos : ℕ} (hpos : pos < jlen) (s : σ) :
    v.chunkStep b src f ns joff jlen (pos, s) =
      match src.readAt (v.offset + joff + pos) (min (jlen - pos) (JOURNAL_CHUNK + ns)) with
      | .error e => .done (.error e)
      | .ok buf =>
        if buf.length < ns then .done (.ok s)
        else
          match scanChunk b f ns buf (min (buf.length - ns) (JOURNAL_CHUNK - 1))
              (min (buf.length - ns) (JOURNAL_CHUNK - 1) / 512 + 1) 0 s with
          | .error e => .done (.error e)
          | .ok t =>
            if buf.length < min (jlen - pos) (JOURNAL_CHUNK + ns) then .done (.ok t)
            else .next (pos + JOURNAL_CHUNK, t) := by
  unfold chunkStep
  rw [if_neg (not_le.mpr hpos), word_eq (show v.offset + joff + pos < 2 ^ 64 by omega)]
  rfl

variable (hns : 512 ≤ ns ∧ ns ≤ 32768)
include hns

omit hword in
/-- What is read of a chunk, and the nodes that begin in it. -/
theorem chunk_nodes {pos : ℕ} (hpos : pos < jlen) {buf : List UInt8}
    (h : src.readAt (v.offset + joff + pos) (min (jlen - pos) (JOURNAL_CHUNK + ns)) = .ok buf) :
    buf.length = min (v.rangeRead src joff jlen - pos) (JOURNAL_CHUNK + ns) ∧
    (ns ≤ buf.length → ∀ s : σ,
      (v.rangeNodes src joff jlen ns pos).foldlM f s = (do
        let t ← scanChunk b f ns buf (min (buf.length - ns) (JOURNAL_CHUNK - 1))
          (min (buf.length - ns) (JOURNAL_CHUNK - 1) / 512 + 1) 0 s
        (v.rangeNodes src joff jlen ns (pos + JOURNAL_CHUNK)).foldlM f t)) := by
  have hbuf := Source.readAt_ok h
  have hlen : buf.length = min (v.rangeRead src joff jlen - pos) (JOURNAL_CHUNK + ns) := by
    rw [hbuf, length_window, rangeRead, Source.size]
    omega
  refine ⟨hlen, fun hroom s => ?_⟩
  have havail : v.rangeRead src joff jlen ≤ jlen := min_le_left _ _
  have hlast : min (buf.length - ns) (JOURNAL_CHUNK - 1) =
      min (v.rangeRead src joff jlen - pos - ns) (JOURNAL_CHUNK - 1) := by
    omega
  have hchunk : 512 * 8192 = JOURNAL_CHUNK := by decide
  -- Behind the places of the chunk come those of the next one, if there are any.
  have hbehind : leavesAt ns src.data (v.offset + joff + pos +
      512 * (min (v.rangeRead src joff jlen - pos - ns) (JOURNAL_CHUNK - 1) / 512 + 1))
        (placesFrom ns (pos + JOURNAL_CHUNK) (v.rangeRead src joff jlen)) =
      v.rangeNodes src joff jlen ns (pos + JOURNAL_CHUNK) := by
    by_cases hmore : pos + JOURNAL_CHUNK + ns ≤ v.rangeRead src joff jlen
    · have hcount : min (v.rangeRead src joff jlen - pos - ns) (JOURNAL_CHUNK - 1) / 512 + 1 = 8192 := by omega
      rw [rangeNodes, hcount, hchunk, Nat.add_assoc (v.offset + joff)]
    · rw [rangeNodes, placesFrom, if_neg hmore, leavesAt_zero, leavesAt_zero]
  have hwithin (n : ℕ) (hn : ∀ i < n, 512 * i + ns ≤ min (jlen - pos) (JOURNAL_CHUNK + ns)) :
      leavesAt ns buf 0 n = leavesAt ns src.data (v.offset + joff + pos) n := by
    rw [hbuf, leavesAt_window fun i hi => by rw [Nat.zero_add]; exact hn i hi, Nat.add_zero]
  rw [scanChunk_eq hns (by omega) (fun i hi => by omega), rangeNodes, placesFrom_chunk (by omega), leavesAt_add,
    List.foldlM_append, hbehind, hlast, hwithin _ fun i hi => by omega]

/-- The scan of the chunks that can be read is a fold over the nodes of the journal. -/
theorem chunkLoop_range (pos : ℕ) (s : σ) (hreads : v.RangeChunksRead src joff jlen ns pos)
    (hreached : pos < jlen → v.RangeReached src joff jlen ns pos) :
    (v.chunkLoop b src f ns joff jlen).eval (pos, s) = (v.rangeNodes src joff jlen ns pos).foldlM f s := by
  generalize hstate : (pos, s) = state
  induction state using (v.chunkLoop b src f ns joff jlen).induct generalizing pos s with
  | step state ih =>
    subst hstate
    have hdone {r : Exec σ} (h : v.chunkStep b src f ns joff jlen (pos, s) = .done r) :=
      (v.chunkLoop b src f ns joff jlen).eval_done h
    have hlen : v.rangeRead src joff jlen ≤ jlen := min_le_left _ _
    by_cases hpos : jlen ≤ pos
    · rw [hdone (if_pos hpos), rangeNodes_eq_nil (by omega)]
      rfl
    · have hlt := not_le.mp hpos
      obtain ⟨buf, hbuf⟩ := hreads 0 (by rw [Nat.zero_mul, Nat.add_zero]; exact hreached hlt)
      rw [Nat.zero_mul, Nat.add_zero] at hbuf
      obtain ⟨hbytes, hnodes⟩ := chunk_nodes (b := b) (f := f) hns hlt hbuf
      have hbody := chunkStep_eq (b := b) src ns f hword hlt s
      rw [hbuf] at hbody
      dsimp only at hbody
      by_cases hshort : buf.length < ns
      · rw [if_pos hshort] at hbody
        rw [hdone hbody, rangeNodes_eq_nil (by omega)]
        rfl
      · rw [if_neg hshort] at hbody
        rw [hnodes (not_lt.mp hshort) s]
        cases hscan : scanChunk b f ns buf (min (buf.length - ns) (JOURNAL_CHUNK - 1))
            (min (buf.length - ns) (JOURNAL_CHUNK - 1) / 512 + 1) 0 s with
        | error e =>
          rw [hscan] at hbody
          rw [hdone hbody]
          rfl
        | ok t =>
          rw [hscan] at hbody
          dsimp only at hbody
          rw [exec_ok_bind]
          by_cases hcut : buf.length < min (jlen - pos) (JOURNAL_CHUNK + ns)
          · rw [if_pos hcut] at hbody
            rw [hdone hbody, rangeNodes_eq_nil (by omega)]
            rfl
          · rw [if_neg hcut] at hbody
            rw [(v.chunkLoop b src f ns joff jlen).eval_next hbody]
            refine ih _ hbody (pos + JOURNAL_CHUNK) t (fun k hk => ?_) (fun hlt' => ⟨hlt', .inr ?_⟩) rfl
            · have hnext : pos + JOURNAL_CHUNK + k * JOURNAL_CHUNK = pos + (k + 1) * JOURNAL_CHUNK := by
                rw [Nat.succ_mul, Nat.add_assoc, Nat.add_comm JOURNAL_CHUNK]
              rw [hnext] at hk ⊢
              exact hreads (k + 1) hk
            · rw [rangeRead] at hbytes
              omega

/-- A scan that comes to its end has read every chunk that it reached. -/
theorem rangeChunksRead_of_ok (pos : ℕ) (s : σ) {r : σ}
    (h : (v.chunkLoop b src f ns joff jlen).eval (pos, s) = .ok r) : v.RangeChunksRead src joff jlen ns pos := by
  generalize hstate : (pos, s) = state at h
  induction state using (v.chunkLoop b src f ns joff jlen).induct generalizing pos s with
  | step state ih =>
    subst hstate
    intro k hk
    have hpos : pos < jlen := by
      have hlt := hk.1
      omega
    have hbody := chunkStep_eq (b := b) src ns f hword hpos s
    cases hread : src.readAt (v.offset + joff + pos) (min (jlen - pos) (JOURNAL_CHUNK + ns)) with
    | error e =>
      rw [hread] at hbody
      rw [(v.chunkLoop b src f ns joff jlen).eval_done hbody] at h
      cases h
    | ok buf =>
      cases k with
      | zero =>
        rw [Nat.zero_mul, Nat.add_zero]
        exact ⟨buf, hread⟩
      | succ k =>
        have hnext : pos + JOURNAL_CHUNK + k * JOURNAL_CHUNK = pos + (k + 1) * JOURNAL_CHUNK := by
          rw [Nat.succ_mul, Nat.add_assoc, Nat.add_comm JOURNAL_CHUNK]
        have hchunk : 32768 ≤ JOURNAL_CHUNK := by decide
        have hbytes := (chunk_nodes (b := b) (f := f) hns hpos hread).1
        obtain ⟨hlt, hzero | hfull⟩ := hk
        · omega
        rw [rangeRead] at hbytes
        -- A later chunk is reached only behind one that the source has in full.
        rw [hread] at hbody
        dsimp only at hbody
        rw [if_neg (by omega)] at hbody
        cases hscan : scanChunk b f ns buf (min (buf.length - ns) (JOURNAL_CHUNK - 1))
            (min (buf.length - ns) (JOURNAL_CHUNK - 1) / 512 + 1) 0 s with
        | error e =>
          rw [hscan] at hbody
          rw [(v.chunkLoop b src f ns joff jlen).eval_done hbody] at h
          cases h
        | ok t =>
          rw [hscan] at hbody
          dsimp only at hbody
          rw [if_neg (by omega)] at hbody
          rw [(v.chunkLoop b src f ns joff jlen).eval_next hbody] at h
          obtain ⟨buf', hbuf'⟩ := ih _ hbody (pos + JOURNAL_CHUNK) t rfl h k (by
            rw [hnext]
            exact ⟨hlt, .inr hfull⟩)
          rw [hnext] at hbuf'
          exact ⟨buf', hbuf'⟩

end Loop

end Scan

section Journal

variable (v : Volume) (src : Source) (j : Journal (v.blockSize * v.totalBlocks)) (ns : ℕ)

/-- How much of the journal the source has. -/
def available : ℕ := min j.len (src.size - (v.offset + j.start))

/-- The leaf nodes of the journal from a place on. -/
def journalNodes (pos : ℕ) : List (List UInt8) :=
  leavesAt ns src.data (v.offset + j.start + pos) (placesFrom ns pos (v.available src j))

/-- Where a chunk is read: at the start, and behind every chunk that the source has in full. -/
def ChunkReached (pos : ℕ) : Prop :=
  pos < j.len ∧ (pos = 0 ∨ min j.len (pos + ns) ≤ src.size - (v.offset + j.start))

/-- The chunks of the journal from a place on that are read can be read. -/
def ChunksRead (pos : ℕ) : Prop :=
  ∀ k, v.ChunkReached src j ns (pos + k * JOURNAL_CHUNK) → ∃ buf,
    src.readAt (v.offset + j.start + (pos + k * JOURNAL_CHUNK))
      (min (j.len - (pos + k * JOURNAL_CHUNK)) (JOURNAL_CHUNK + ns)) = .ok buf

variable {v src j ns} {σ : Type} {f : σ → List UInt8 → Exec σ} (hoffset : v.offset < 2 ^ 63)
  (hns : 512 ≤ ns ∧ ns ≤ 32768)

theorem journal_word (hoffset : v.offset < 2 ^ 63) (j : Journal (v.blockSize * v.totalBlocks)) :
    v.offset + j.start + j.len ≤ 2 ^ 64 := by
  have hin := j.inside.trans_eq (Nat.mul_comm v.blockSize v.totalBlocks)
  have hlt := offset_word hoffset hin
  omega

include hoffset hns

theorem chunkLoop_eq (pos : ℕ) (s : σ) (hreads : v.ChunksRead src j ns pos)
    (hreached : pos < j.len → v.ChunkReached src j ns pos) :
    (v.chunkLoop .debug src f ns j.start j.len).eval (pos, s) = (v.journalNodes src j ns pos).foldlM f s :=
  chunkLoop_range (journal_word hoffset j) hns pos s hreads hreached

theorem chunksRead_of_ok (pos : ℕ) (s : σ) {r : σ}
    (h : (v.chunkLoop .debug src f ns j.start j.len).eval (pos, s) = .ok r) : v.ChunksRead src j ns pos :=
  rangeChunksRead_of_ok (journal_word hoffset j) hns pos s h

end Journal

/-- The places of a journal, 512 bytes apart, at which it has a leaf node. -/
def leafPlaces (ns : ℕ) (journal : List UInt8) : List ℕ :=
  ((List.range (journal.length / 512 + 1)).map (512 * ·)).filter fun o =>
    o + ns ≤ journal.length ∧ isLeafNode ns (window journal o ns)

theorem filter_range_lt {n m : ℕ} (h : n ≤ m) {p : ℕ → Bool} (hp : ∀ i, p i = true ↔ i < n) :
    (List.range m).filter p = List.range n := by
  obtain ⟨k, rfl⟩ := Nat.exists_eq_add_of_le h
  have hfirst : (List.range n).filter p = List.range n :=
    List.filter_eq_self.mpr fun i hi => (hp i).mpr (List.mem_range.mp hi)
  have hrest : ((List.range k).map (n + ·)).filter p = [] := by
    refine List.filter_eq_nil_iff.mpr fun i hi hpi => ?_
    obtain ⟨j, -, rfl⟩ := List.mem_map.mp hi
    have hlt := (hp _).mp hpi
    omega
  rw [List.range_add, List.filter_append, hfirst, hrest, List.append_nil]

/-- The nodes at these places are those that the scan comes to. -/
theorem leavesAt_places {ns base jlen : ℕ} (hns : 0 < ns) {data : List UInt8} (hinside : base + jlen ≤ data.length) :
    leavesAt ns data base (placesFrom ns 0 jlen) =
      (leafPlaces ns (window data base jlen)).map fun o => window (window data base jlen) o ns := by
  have hlength : (window data base jlen).length = jlen := by
    rw [length_window]
    omega
  have hroom : ∀ i, i < placesFrom ns 0 jlen ↔ 512 * i + ns ≤ jlen := by
    intro i
    unfold placesFrom
    split_ifs <;> omega
  have hle : placesFrom ns 0 jlen ≤ jlen / 512 + 1 := by
    unfold placesFrom
    split_ifs <;> omega
  have hwhole : leavesAt ns (window data base jlen) 0 (placesFrom ns 0 jlen) =
      leavesAt ns data (base + 0) (placesFrom ns 0 jlen) := by
    refine leavesAt_window fun i hi => ?_
    have hin := (hroom i).mp hi
    omega
  have hplaces : (List.range (jlen / 512 + 1)).filter
      ((fun o => o + ns ≤ jlen ∧ isLeafNode ns (window (window data base jlen) o ns)) ∘ (512 * ·)) =
      (List.range (placesFrom ns 0 jlen)).filter fun i =>
        isLeafNode ns (window (window data base jlen) (512 * i) ns) := by
    rw [← filter_range_lt hle (p := fun i => i < placesFrom ns 0 jlen) fun i => decide_eq_true_iff, List.filter_filter]
    refine List.filter_congr fun i _ => ?_
    simp only [Function.comp_apply, ← hroom i, Bool.decide_and, Bool.decide_eq_true, Bool.and_comm]
  rw [Nat.add_zero] at hwhole
  rw [← hwhole, leavesAt, leafPlaces, hlength, List.filter_map, List.filter_map, List.map_map, hplaces]
  simp only [Nat.zero_add, Function.comp_def]

/-- The scan of a journal inside the source hands on each leaf node once, in the order of their places; one
that comes to its end has done so whatever could not be read. -/
theorem scan_journal_once (v : Volume) (b : Build) (src : Source) {joff jlen ns : ℕ}
    (hinside : v.offset + joff + jlen ≤ src.size) (hns : 512 ≤ ns ∧ ns ≤ 32768) {σ : Type}
    (f : σ → List UInt8 → Exec σ) (s : σ) :
    (src.Reliable → v.scanJournal b src f ns joff jlen s =
      (leafPlaces ns (window src.data (v.offset + joff) jlen)).foldlM
        (fun s o => f s (window (window src.data (v.offset + joff) jlen) o ns)) s) ∧
    ∀ t, v.scanJournal b src f ns joff jlen s = .ok t →
      (leafPlaces ns (window src.data (v.offset + joff) jlen)).foldlM
        (fun s o => f s (window (window src.data (v.offset + joff) jlen) o ns)) s = .ok t := by
  have hsize : src.data.length < 2 ^ 63 := src.size_lt
  have hword : v.offset + joff + jlen ≤ 2 ^ 64 := hinside.trans (by unfold Source.size; omega)
  have hnodes : v.rangeNodes src joff jlen ns 0 = (leafPlaces ns (window src.data (v.offset + joff) jlen)).map
      fun o => window (window src.data (v.offset + joff) jlen) o ns := by
    have hread : v.rangeRead src joff jlen = jlen := by
      unfold rangeRead
      omega
    rw [rangeNodes, hread, Nat.add_zero]
    exact leavesAt_places (by omega) hinside
  have hloop : v.RangeChunksRead src joff jlen ns 0 → v.scanJournal b src f ns joff jlen s =
      (leafPlaces ns (window src.data (v.offset + joff) jlen)).foldlM
        (fun s o => f s (window (window src.data (v.offset + joff) jlen) o ns)) s := by
    intro hreads
    unfold scanJournal
    rw [chunkLoop_range hword hns 0 s hreads fun hlt => ⟨hlt, .inl rfl⟩, hnodes, List.foldlM_map]
  refine ⟨fun hrel => hloop fun k hk => ?_, fun t ht => ?_⟩
  · have hlt := hk.1
    unfold Source.size at hinside
    exact ⟨_, hrel.readAt (by omega) _⟩
  · rw [← hloop (rangeChunksRead_of_ok hword hns 0 s ht)]
    exact ht

section Sample

/-- A node of 512 bytes with one record. -/
def leafOfOne : List UInt8 :=
  List.replicate 8 0 ++ [0xFF, 1, 0, 1, 0, 0] ++ List.replicate 494 0 ++ [0, 40, 0, 14]

theorem length_ring_lt : (List.replicate 600 0 ++ leafOfOne ++ List.replicate 100 7).length < 2 ^ 63 := by
  decide +kernel

def ringSource : Source where
  data := List.replicate 600 0 ++ leafOfOne ++ List.replicate 100 7
  size_lt := length_ring_lt

def ringVolume : Volume where
  offset := 3
  blockSize := 512
  totalBlocks := 2
  catalogExtents := .none 2
  catalogSize := 0
  allocationExtents := .none 2
  extentsOverflowExtents := .none 2
  extentsOverflowSize := 0
  hfsx := false
  journal := none
  block_range := least_block_range
  total_lt := by decide

def countNodes (n : ℕ) (_ : List UInt8) : Exec ℕ := .ok (n + 1)

theorem ring_scanned_once : ringVolume.scanJournal .release ringSource countNodes 512 85 1100 0 = .ok 1 := by
  have hinside : ringVolume.offset + 85 + 1100 ≤ ringSource.size := by decide +kernel
  rw [(scan_journal_once ringVolume .release ringSource hinside ⟨le_rfl, by decide⟩ countNodes 0).1 fun _ _ => rfl]
  decide +kernel

end Sample

end Volume

end Unearth.Hfs
