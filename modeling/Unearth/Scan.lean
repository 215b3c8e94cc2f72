import Unearth.SignatureIndex

/-!
# The scan of a source, chunk by chunk

A chunk is read with an overlap behind it, and its positions are tried one after the
other; blocks of zeros are jumped over. What is found is handed to a visitor. When the
buffer of a chunk and its overlap can be had, the scan visits exactly what a scan of
every position visits, in the same order and once.
-/

namespace Unearth
open Bytes Search Word Loop

variable {κ ρ : Type}

def zeroBlock : ℕ := 64

/-- What the scan does at a match: go on, or end with a result. -/
abbrev Visit (κ ρ : Type) := ℕ → Signature → κ → Ctl κ (Exec ρ)

structure Scanner where
  index : SignatureIndex
  overlap : ℕ
  bufLen : ℕ

def maxMagicOffset (active : List Signature) : ℕ := maxOf (active.map Signature.magicOffset)

/-- The index, the overlap and the buffer; no buffer is larger than a signed word says. -/
def Scanner.build (b : Build) (active : List Signature) (chunk : ℕ) : Exec Scanner := do
  let index ← SignatureIndex.build b active
  let overlap ← plus b index.maxLookahead (maxMagicOffset active)
  let bufLen ← plus b chunk overlap
  if 2 ^ 63 ≤ bufLen then .error .capacity
  else return ⟨index, overlap, bufLen⟩

section Position

variable (b : Build) (idx : SignatureIndex) (buf : List UInt8) (limit abs : ℕ) (visit : Visit κ ρ)

def zeroJump (i : ℕ) : Option ℕ :=
  match idx.zeroSkip zeroBlock with
  | some skip =>
    if buf[i]? = some 0 ∧ i + zeroBlock ≤ limit ∧ (window buf i zeroBlock).all (· == 0) then some skip
    else none
  | none => none

def positionBody : ℕ × κ → Ctl (ℕ × κ) (Ctl κ (Exec ρ))
  | (i, s) =>
    if i < limit then
      match zeroJump idx buf limit i with
      | some skip => .next (i + skip, s)
      | none =>
        match idx.matchAt b (buf.drop i) with
        | .error f => .done (.done (.error f))
        | .ok none => .next (i + 1, s)
        | .ok (some sig) =>
          match visit (abs + i) sig s with
          | .next s' => .next (i + 1, s')
          | .done r => .done (.done r)
    else .done (.next s)

theorem zeroJump_spec {i skip : ℕ} (h : zeroJump idx buf limit i = some skip) :
    idx.zeroSkip zeroBlock = some skip ∧ i + zeroBlock ≤ limit ∧
      (window buf i zeroBlock).all (· == 0) := by
  unfold zeroJump at h
  split at h
  · rename_i skip' hs
    split_ifs at h with hz
    cases h
    exact ⟨hs, hz.2.1, hz.2.2⟩
  · cases h

theorem zeroSkip_pos {idx : SignatureIndex} {block skip : ℕ} (h : idx.zeroSkip block = some skip) :
    0 < skip := by
  unfold SignatureIndex.zeroSkip at h
  split at h
  · split_ifs at h with hlt
    cases h
    omega
  · cases h

def positionLoop : While (ℕ × κ) (Ctl κ (Exec ρ)) where
  body := positionBody b idx buf limit abs visit
  measure p := limit - p.1
  decreases := by
    rintro ⟨i, s⟩ p h
    simp only [positionBody] at h
    split_ifs at h with hlt
    split at h
    · rename_i skip hs
      have hpos := zeroSkip_pos (zeroJump_spec idx buf limit hs).1
      cases h
      simp only
      omega
    · split at h
      · cases h
      · cases h
        simp only
        omega
      · split at h
        · cases h
          simp only
          omega
        · cases h

end Position

/-- How a chunk ends: at the position of the next one, with nothing read, or for good. -/
inductive Scanned (κ ρ : Type)
  | advance (abs : ℕ) (s : κ)
  | empty
  | exit (r : Exec ρ)

section Chunk

variable (b : Build) (src : Source) (sc : Scanner) (scanEnd : ℕ) (visit : Visit κ ρ)

/-- The bytes of a chunk and of the overlap behind it, and how many positions of them are
the chunk's own: all of them where the source ends. -/
def readChunk (abs : ℕ) : Exec (List UInt8 × ℕ) := do
  let want := min (scanEnd - abs) sc.bufLen
  let buf ← src.readAt abs want
  let n := buf.length
  return (buf, if n = want ∧ abs + n < scanEnd then n - sc.overlap else n)

def scanChunk (abs : ℕ) (s : κ) : Scanned κ ρ :=
  match readChunk src sc scanEnd abs with
  | .error f => .exit (.error f)
  | .ok ([], _) => .empty
  | .ok (buf, limit) =>
    match (positionLoop b sc.index buf limit abs visit).eval (0, s) with
    | .next s' => .advance (abs + limit) s'
    | .done r => .exit r

/-- The chunk loop of the scan, with nothing but the visits in it. -/
def scanBody : ℕ × κ → Ctl (ℕ × κ) (Ctl κ (Exec ρ))
  | (abs, s) =>
    if abs < scanEnd then
      match scanChunk b src sc scanEnd visit abs s with
      | .advance abs' s' => .next (abs', s')
      | .empty => .done (.next s)
      | .exit r => .done (.done r)
    else .done (.next s)

end Chunk

def scanEndOf (src : Source) (end_ : Option ℕ) : ℕ := min (end_.getD src.size) src.size
def baseStartOf (src : Source) (start : ℕ) (end_ : Option ℕ) : ℕ := min start (scanEndOf src end_)

/-- A visitor that collects the matches. -/
def collect : Visit (List (ℕ × Signature)) (List (ℕ × Signature)) :=
  fun p sig l => .next (l ++ [(p, sig)])

/-- The matches that the scan visits; `none` while it is still going. -/
def scanMatches (b : Build) (src : Source) (active : List Signature) (start : ℕ)
    (end_ : Option ℕ) (chunk fuel : ℕ) : Option (Exec (List (ℕ × Signature))) :=
  match Scanner.build b active chunk with
  | .error f => some (.error f)
  | .ok sc =>
    let scanEnd := scanEndOf src end_
    match run (scanBody b src sc scanEnd collect) fuel (baseStartOf src start end_, []) with
    | none => none
    | some (.next l) => some (.ok l)
    | some (.done r) => some r

/-- The first signature that matches at each position, tried one by one. -/
def naiveScan (src : Source) (active : List Signature) (start : ℕ) (end_ : Option ℕ) :
    List (ℕ × Signature) :=
  let scanEnd := scanEndOf src end_
  let first := baseStartOf src start end_
  (List.range' first (scanEnd - first)).filterMap fun p =>
    (firstMatch active (window src.data p (scanEnd - p))).map (p, ·)

section Exactness

variable {b : Build} {src : Source} {active : List Signature} {idx : SignatureIndex} {sc : Scanner}

theorem positionLoop_eq (hi : idx.Indexes active) (hr : ∀ s ∈ active, s.reach < 2 ^ 64)
    (hz : idx.maxLeadingZeros = maxLeadingZeros active) (buf : List UInt8) (limit abs : ℕ)
    (visit : Visit κ ρ) (i : ℕ) (s : κ) :
    (positionLoop b idx buf limit abs visit).eval (i, s) =
      visitAll visit (hits (firstMatch active) (limit - i) (abs + i) (buf.drop i)) s := by
  have main (p : ℕ × κ) : (positionLoop b idx buf limit abs visit).eval p =
      visitAll visit (hits (firstMatch active) (limit - p.1) (abs + p.1) (buf.drop p.1)) p.2 := by
    induction p using (positionLoop b idx buf limit abs visit).induct with
    | step p ih =>
      obtain ⟨i, s⟩ := p
      simp only
      have hbody : (positionLoop b idx buf limit abs visit).body (i, s) =
          positionBody b idx buf limit abs visit (i, s) := rfl
      simp only [positionBody] at hbody
      by_cases hlt : i < limit
      · rw [if_pos hlt] at hbody
        cases hj : zeroJump idx buf limit i with
        | some skip =>
          obtain ⟨hs, hfit, hzero⟩ := zeroJump_spec idx buf limit hj
          obtain ⟨-, hle, hskip⟩ := SignatureIndex.zeroSkip_spec hz hs
          simp only [hj] at hbody
          rw [While.eval_next _ hbody, ih _ hbody]
          have hnone : hits (firstMatch active) skip (abs + i) (buf.drop i) = [] :=
            hits_eq_nil fun d hd => firstMatch_zeros hskip hzero hd
          rw [show limit - i = skip + (limit - (i + skip)) by omega, hits_add, hnone,
            List.nil_append, List.drop_drop, Nat.add_assoc]
        | none =>
          simp only [hj, SignatureIndex.matchAt_eq hi hr] at hbody
          rw [show limit - i = limit - (i + 1) + 1 by omega, hits, List.tail_drop, Nat.add_assoc]
          cases hf : firstMatch active (buf.drop i) with
          | none =>
            simp only [hf] at hbody
            rw [While.eval_next _ hbody, ih _ hbody]
          | some sig =>
            simp only [hf] at hbody
            simp only [visitAll]
            cases hv : visit (abs + i) sig s with
            | next s' =>
              simp only [hv] at hbody
              rw [While.eval_next _ hbody, ih _ hbody]
            | done r =>
              simp only [hv] at hbody
              rw [While.eval_done _ hbody]
      · rw [if_neg hlt] at hbody
        rw [While.eval_done _ hbody, show limit - i = 0 by omega]
        rfl
  exact main (i, s)

/-- What the buffer of the scan has to hold: a chunk, the bytes that the match at its last
position looks at, and the largest distance of a magic from its file start. -/
def bufferNeed (active : List Signature) (chunk : ℕ) : ℕ :=
  chunk + (maxReach active + maxMagicOffset active)

/-- The scanner of `active` that suffers no overflow. -/
structure Scanner.Scans (sc : Scanner) (active : List Signature) (chunk : ℕ) : Prop where
  indexes : sc.index.Indexes active
  zeros : sc.index.maxLeadingZeros = maxLeadingZeros active
  overlap : sc.overlap = maxReach active + maxMagicOffset active
  bufLen : sc.bufLen = chunk + sc.overlap
  reach_lt : ∀ s ∈ active, s.reach < 2 ^ 64

theorem Scanner.build_scans {chunk : ℕ} (h : bufferNeed active chunk < 2 ^ 63) :
    ∃ sc, Scanner.build b active chunk = .ok sc ∧ sc.Scans active chunk := by
  unfold bufferNeed at h
  have hreach : ∀ s ∈ active, s.reach < 2 ^ 64 := by
    intro s hs
    have := reach_le_maxReach hs
    omega
  obtain ⟨idx, hb, hi, hz⟩ := SignatureIndex.build_indexes (b := b) hreach
  refine ⟨⟨idx, maxReach active + maxMagicOffset active,
    chunk + (maxReach active + maxMagicOffset active)⟩, ?_, ⟨hi, hz, rfl, rfl, hreach⟩⟩
  simp only [Scanner.build, hb, bind, Except.bind, hi.lookahead]
  rw [plus_eq (by omega)]
  simp only
  rw [plus_eq (by omega)]
  simp only [if_neg (not_le.mpr h)]
  rfl

namespace SignatureIndex

theorem reachOf_debug {sig : Signature} {r : ℕ} (h : reachOf .debug sig = .ok r) :
    r = sig.reach := by
  unfold reachOf at h
  unfold Signature.reach
  split at h
  · rename_i off tag hs
    simp only [hs]
    by_cases hlt : off + tag.length < 2 ^ 64
    · rw [plus_eq hlt] at h
      cases h
      rfl
    · rw [plus_debug (by omega)] at h
      cases h
  · rename_i hs
    simp only [hs]
    cases h
    rfl

/-- A build that checks its sums has the exact reach, or no index at all. -/
theorem build_debug {idx : SignatureIndex} (h : build .debug active = .ok idx) :
    idx.maxLookahead = maxReach active := by
  have hall (rest done : List Signature) (idx₀ : SignatureIndex)
      (h₀ : idx₀.maxLookahead = maxReach done) (hf : rest.foldlM (add .debug) idx₀ = .ok idx) :
      idx.maxLookahead = maxReach (done ++ rest) := by
    induction rest generalizing done idx₀ with
    | nil =>
      cases hf
      simpa using h₀
    | cons sig rest ih =>
      rw [List.foldlM_cons] at hf
      cases hr : reachOf .debug sig with
      | error f =>
        simp only [add, hr, bind, Except.bind] at hf
        cases hf
      | ok r =>
        have ha : add .debug idx₀ sig = .ok (idx₀.push sig r) := by
          rw [add, hr]
          rfl
        rw [ha] at hf
        have hnext : (idx₀.push sig r).maxLookahead = maxReach (done ++ [sig]) := by
          rw [push, maxReach_snoc, h₀, reachOf_debug hr]
        simpa using ih (done ++ [sig]) _ hnext hf
  simpa using hall active [] _ rfl h

end SignatureIndex

/-- Where a buffer is had at all, it is one that an allocation can hold. -/
theorem Scanner.build_fits {chunk : ℕ} (hb : b = .debug ∨ bufferNeed active chunk < 2 ^ 64)
    (h : Scanner.build b active chunk = .ok sc) : bufferNeed active chunk < 2 ^ 63 := by
  unfold bufferNeed at hb ⊢
  unfold Scanner.build at h
  cases hi : SignatureIndex.build b active with
  | error f =>
    rw [hi] at h
    cases h
  | ok idx =>
    have hl : idx.maxLookahead = maxReach active := by
      rcases hb with rfl | hlt
      · exact SignatureIndex.build_debug hi
      · have hreach : ∀ s ∈ active, s.reach < 2 ^ 64 := by
          intro s hs
          exact (reach_le_maxReach hs).trans_lt (by omega)
        obtain ⟨idx', hi', hidx, -⟩ := SignatureIndex.build_indexes (b := b) hreach
        rw [hi'] at hi
        cases hi
        exact hidx.lookahead
    simp only [hi, bind, Except.bind, hl] at h
    by_cases hsum : chunk + (maxReach active + maxMagicOffset active) < 2 ^ 64
    · rw [plus_eq (by omega)] at h
      simp only at h
      rw [plus_eq hsum] at h
      simp only at h
      split_ifs at h with hcap
      omega
    · obtain rfl : b = .debug := hb.resolve_right hsum
      by_cases hover : maxReach active + maxMagicOffset active < 2 ^ 64
      · rw [plus_eq hover] at h
        simp only at h
        rw [plus_debug (by omega)] at h
        cases h
      · rw [plus_debug (by omega)] at h
        cases h

/-- One chunk visits the matches of its positions. -/
theorem scanChunk_eq {chunk : ℕ} (hr : src.Reliable) (hsc : sc.Scans active chunk) (hc : 0 < chunk)
    {scanEnd abs : ℕ} (hend : scanEnd ≤ src.size) (habs : abs < scanEnd) (visit : Visit κ ρ)
    (s : κ) :
    ∃ k, 0 < k ∧ abs + k ≤ scanEnd ∧
      scanChunk b src sc scanEnd visit abs s =
        match visitAll visit (hits (firstMatch active) k abs (window src.data abs (scanEnd - abs))) s with
        | .next s' => .advance (abs + k) s'
        | .done r => .exit r := by
  have hwant : ∀ want, abs + want ≤ scanEnd → (window src.data abs want).length = want := by
    intro want hle
    have hsize : scanEnd ≤ src.data.length := hend
    rw [length_window]
    omega
  have hoff : abs < 2 ^ 63 := (habs.trans_le hend).trans src.size_lt
  have hbuf := hsc.bufLen
  have hover := hsc.overlap
  by_cases hfit : abs + sc.bufLen < scanEnd
  · -- the chunk ends inside the source
    have hmin : min (scanEnd - abs) sc.bufLen = sc.bufLen := by omega
    have hlen := hwant sc.bufLen (by omega)
    obtain ⟨x, l, hl⟩ : ∃ x l, window src.data abs sc.bufLen = x :: l :=
      List.exists_cons_of_length_pos (by omega)
    refine ⟨chunk, hc, by omega, ?_⟩
    have hread : readChunk src sc scanEnd abs = .ok (window src.data abs sc.bufLen, chunk) := by
      simp only [readChunk, hmin, hr.readAt hoff, bind, Except.bind, hlen, true_and, if_pos hfit]
      rw [show sc.bufLen - sc.overlap = chunk by omega]
      rfl
    simp only [scanChunk, hread, hl]
    rw [← hl, positionLoop_eq hsc.indexes hsc.reach_lt hsc.zeros, List.drop_zero, Nat.sub_zero,
      Nat.add_zero]
    have htext : window src.data abs sc.bufLen =
        (window src.data abs (scanEnd - abs)).take sc.bufLen := by
      simp only [window, List.take_take]
      rw [min_eq_left (by omega)]
    rw [htext, hits_take (firstMatch_local le_rfl) (by omega)]
  · have hmin : min (scanEnd - abs) sc.bufLen = scanEnd - abs := by omega
    have hlen := hwant (scanEnd - abs) (by omega)
    obtain ⟨x, l, hl⟩ : ∃ x l, window src.data abs (scanEnd - abs) = x :: l :=
      List.exists_cons_of_length_pos (by omega)
    refine ⟨scanEnd - abs, by omega, by omega, ?_⟩
    have hread : readChunk src sc scanEnd abs =
        .ok (window src.data abs (scanEnd - abs), scanEnd - abs) := by
      simp only [readChunk, hmin, hr.readAt hoff, bind, Except.bind, hlen]
      rw [if_neg (by omega)]
      rfl
    simp only [scanChunk, hread, hl]
    rw [← hl, positionLoop_eq hsc.indexes hsc.reach_lt hsc.zeros, List.drop_zero, Nat.sub_zero,
      Nat.add_zero]

/-- The matches of a scan that starts at `abs`. -/
def matchesFrom (src : Source) (active : List Signature) (scanEnd abs : ℕ) : List (ℕ × Signature) :=
  hits (firstMatch active) (scanEnd - abs) abs (window src.data abs (scanEnd - abs))

theorem matchesFrom_add {scanEnd abs k : ℕ} (h : abs + k ≤ scanEnd) :
    matchesFrom src active scanEnd abs =
      hits (firstMatch active) k abs (window src.data abs (scanEnd - abs)) ++
        matchesFrom src active scanEnd (abs + k) := by
  have htail : (window src.data abs (scanEnd - abs)).drop k =
      window src.data (abs + k) (scanEnd - (abs + k)) := by
    simp only [window, List.drop_take, List.drop_drop]
    congr 1
    omega
  rw [matchesFrom, show scanEnd - abs = k + (scanEnd - (abs + k)) by omega, hits_add,
    show k + (scanEnd - (abs + k)) = scanEnd - abs by omega, htail]
  rfl

theorem matchesFrom_end {scanEnd abs : ℕ} (h : scanEnd ≤ abs) :
    matchesFrom src active scanEnd abs = [] := by
  rw [matchesFrom, Nat.sub_eq_zero_of_le h]
  rfl

/-- The chunked scan visits the matches of all positions, in order and once. -/
theorem run_scanBody {chunk : ℕ} (hr : src.Reliable) (hsc : sc.Scans active chunk) (hc : 0 < chunk)
    {scanEnd : ℕ} (hend : scanEnd ≤ src.size) (visit : Visit κ ρ) (abs : ℕ) (s : κ) :
    run (scanBody b src sc scanEnd visit) (scanEnd - abs + 1) (abs, s) =
      some (visitAll visit (matchesFrom src active scanEnd abs) s) := by
  induction hn : scanEnd - abs using Nat.strong_induction_on generalizing abs s with
  | _ n ih =>
    subst hn
    by_cases habs : abs < scanEnd
    · obtain ⟨k, hk, hle, hchunk⟩ := scanChunk_eq (b := b) hr hsc hc hend habs visit s
      have hbody : scanBody b src sc scanEnd visit (abs, s) =
          match scanChunk b src sc scanEnd visit abs s with
          | .advance abs' s' => .next (abs', s')
          | .empty => .done (.next s)
          | .exit r => .done (.done r) := by
        simp only [scanBody, if_pos habs]
      rw [matchesFrom_add hle, visitAll_append]
      rw [hchunk] at hbody
      cases hv : visitAll visit
          (hits (firstMatch active) k abs (window src.data abs (scanEnd - abs))) s with
      | next s' =>
        simp only [hv] at hbody ⊢
        rw [run_next hbody]
        exact run_mono (ih _ (by omega) (abs + k) s' rfl) (by omega)
      | done r =>
        simp only [hv] at hbody ⊢
        exact run_done hbody _
    · rw [matchesFrom_end (by omega)]
      exact run_done (by simp only [scanBody, if_neg habs]; rfl) _

theorem naiveScan_eq (start : ℕ) (end_ : Option ℕ) :
    naiveScan src active start end_ =
      matchesFrom src active (scanEndOf src end_) (baseStartOf src start end_) := by
  rw [naiveScan, matchesFrom, hits_eq_filterMap]
  apply List.filterMap_congr
  intro p hp
  have hlo := (List.mem_range'_1.mp hp).1
  have htext : (window src.data (baseStartOf src start end_)
      (scanEndOf src end_ - baseStartOf src start end_)).drop (p - baseStartOf src start end_) =
      window src.data p (scanEndOf src end_ - p) := by
    simp only [window, List.drop_take, List.drop_drop]
    congr 1
    · omega
    · congr 1
      omega
  rw [htext]

/-- The scan sees what a scan of every single position sees, exactly when its buffer is
one that can be allocated. -/
theorem scan_exact_iff {start : ℕ} {end_ : Option ℕ} {chunk : ℕ} (hr : src.Reliable)
    (hc : 0 < chunk) (hb : b = .debug ∨ bufferNeed active chunk < 2 ^ 64) :
    (∃ fuel, scanMatches b src active start end_ chunk fuel =
      some (.ok (naiveScan src active start end_))) ↔ bufferNeed active chunk < 2 ^ 63 := by
  constructor
  · rintro ⟨fuel, h⟩
    cases hs : Scanner.build b active chunk with
    | ok sc => exact Scanner.build_fits hb hs
    | error f =>
      simp only [scanMatches, hs] at h
      cases h
  · intro hfit
    obtain ⟨sc, hs, hsc⟩ := Scanner.build_scans (b := b) hfit
    have hend : scanEndOf src end_ ≤ src.size := min_le_right _ _
    refine ⟨scanEndOf src end_ - baseStartOf src start end_ + 1, ?_⟩
    have hall : visitAll collect (naiveScan src active start end_) [] =
        .next (naiveScan src active start end_) := visitAll_collect _ []
    simp only [scanMatches, hs, run_scanBody hr hsc hc hend, ← naiveScan_eq, hall]

end Exactness

section Visits

variable {b : Build} {src : Source} {active : List Signature} {sc : Scanner} {scanEnd : ℕ}
  {visit : Visit κ ρ} {idx : SignatureIndex} {buf : List UInt8} {limit abs : ℕ}

/-- The scan of a chunk comes to a match at position `q`, with the variables `c`. -/
def ChunkVisits (b : Build) (src : Source) (sc : Scanner) (scanEnd : ℕ) (visit : Visit κ ρ)
    (abs : ℕ) (s : κ) (q : ℕ) (sig : Signature) (c : κ) : Prop :=
  ∃ buf limit i, readChunk src sc scanEnd abs = .ok (buf, limit) ∧
    Reaches (positionBody b sc.index buf limit abs visit) (0, s) (i, c) ∧ i < limit ∧
    zeroJump sc.index buf limit i = none ∧ sc.index.matchAt b (buf.drop i) = .ok (some sig) ∧
    q = abs + i

theorem positionBody_next {i i' : ℕ} {c c' : κ}
    (h : positionBody b idx buf limit abs visit (i, c) = .next (i', c')) :
    i < limit ∧ i < i' ∧ i' ≤ limit ∧
      (c' = c ∨ i' = i + 1 ∧ zeroJump idx buf limit i = none ∧
        ∃ sig, idx.matchAt b (buf.drop i) = .ok (some sig) ∧ visit (abs + i) sig c = .next c') := by
  simp only [positionBody] at h
  split_ifs at h with hlt
  refine ⟨hlt, ?_⟩
  split at h
  · rename_i skip hj
    obtain ⟨hs, hfit, -⟩ := zeroJump_spec idx buf limit hj
    have hpos := zeroSkip_pos hs
    have hle : skip ≤ zeroBlock := by
      unfold SignatureIndex.zeroSkip at hs
      split at hs
      · split_ifs at hs
        cases hs
        exact Nat.sub_le _ _
      · cases hs
    cases h
    exact ⟨by omega, by omega, .inl rfl⟩
  · rename_i hj
    split at h
    · cases h
    · cases h
      exact ⟨by omega, by omega, .inl rfl⟩
    · rename_i sig hm
      split at h
      · rename_i s' hv
        cases h
        exact ⟨by omega, by omega, .inr ⟨rfl, hj, sig, hm, hv⟩⟩
      · cases h

theorem positionBody_done {i : ℕ} {c : κ} {r : Ctl κ (Exec ρ)}
    (h : positionBody b idx buf limit abs visit (i, c) = .done r) :
    (limit ≤ i ∧ r = .next c) ∨ (∃ f, r = .done (.error f)) ∨
      (i < limit ∧ zeroJump idx buf limit i = none ∧
        ∃ sig x, idx.matchAt b (buf.drop i) = .ok (some sig) ∧ visit (abs + i) sig c = .done x ∧
          r = .done x) := by
  simp only [positionBody] at h
  split_ifs at h with hlt
  · split at h
    · cases h
    · rename_i hj
      split at h
      · cases h
        exact .inr (.inl ⟨_, rfl⟩)
      · cases h
      · rename_i sig hm
        split at h
        · cases h
        · rename_i x hv
          cases h
          exact .inr (.inr ⟨hlt, hj, sig, x, hm, hv, rfl⟩)
  · cases h
    exact .inl ⟨by omega, rfl⟩

section Invariant

variable {I : ℕ → κ → Prop} {s : κ} (mono : ∀ p q c, p ≤ q → I p c → I q c)
  (step : ∀ q sig c c', ChunkVisits b src sc scanEnd visit abs s q sig c → I q c →
    visit q sig c = .next c' → I (q + 1) c')
  (start : I abs s)

include mono step start in
/-- By induction on the positions that the loop passes through. The invariant `I p` speaks
of positions below `p`. -/
theorem position_inv (hread : readChunk src sc scanEnd abs = .ok (buf, limit)) {i : ℕ} {c : κ}
    (hr : Reaches (positionBody b sc.index buf limit abs visit) (0, s) (i, c)) :
    I (abs + i) c ∧ i ≤ limit := by
  have hall {p : ℕ × κ} (hr : Reaches (positionBody b sc.index buf limit abs visit) (0, s) p) :
      I (abs + p.1) p.2 ∧ p.1 ≤ limit := by
    induction hr with
    | refl => exact ⟨start, Nat.zero_le _⟩
    | @tail p p' hr hb ih =>
      obtain ⟨i, c⟩ := p
      obtain ⟨i', c'⟩ := p'
      obtain ⟨hlt, hlt', hle, hc⟩ := positionBody_next hb
      refine ⟨?_, hle⟩
      rcases hc with rfl | ⟨rfl, hj, sig, hm, hv⟩
      · exact mono _ _ _ (by simp only; omega) ih.1
      · exact step _ sig c c' ⟨buf, limit, i, hread, hr, hlt, hj, hm, rfl⟩ ih.1 hv
  exact hall hr

include mono step start in
/-- What every visit preserves holds wherever the chunk comes to a match. -/
theorem chunkVisits_inv {q : ℕ} {sig : Signature} {c : κ}
    (h : ChunkVisits b src sc scanEnd visit abs s q sig c) : I q c := by
  obtain ⟨buf, limit, i, hread, hr, -, -, -, rfl⟩ := h
  exact (position_inv mono step start hread hr).1

include mono step start in
/-- What every visit preserves holds when the chunk is over. A visit may end the scan. -/
theorem scanChunk_inv :
    match scanChunk b src sc scanEnd visit abs s with
    | .advance abs' s' => abs ≤ abs' ∧ I abs' s'
    | .empty => True
    | .exit r => (∃ f, r = .error f) ∨
        ∃ q sig c, ChunkVisits b src sc scanEnd visit abs s q sig c ∧ visit q sig c = .done r := by
  unfold scanChunk
  cases hread : readChunk src sc scanEnd abs with
  | error f => exact .inl ⟨f, rfl⟩
  | ok p =>
    match p with
    | ([], limit) => trivial
    | (byte :: buf, limit) =>
      simp only
      obtain ⟨⟨i, c⟩, hr, hd⟩ :=
        (positionLoop b sc.index (byte :: buf) limit abs visit).exists_reaches_done (0, s)
      obtain ⟨hI, hle⟩ := position_inv mono step start hread hr
      rcases positionBody_done hd with ⟨hge, he⟩ | ⟨f, he⟩ | ⟨hlt, hj, sig, x, hm, hv, he⟩
      · rw [he]
        obtain rfl : i = limit := le_antisymm hle hge
        exact ⟨Nat.le_add_right _ _, hI⟩
      · rw [he]
        exact .inl ⟨f, rfl⟩
      · rw [he]
        exact .inr ⟨_, sig, c, ⟨_, _, i, hread, hr, hlt, hj, hm, rfl⟩, hv⟩

end Invariant

/-- A chunk visits positions from its start on and below the end of the scan. -/
theorem chunkVisits_bounds {s c : κ} {q : ℕ} {sig : Signature} (habs : abs < scanEnd)
    (h : ChunkVisits b src sc scanEnd visit abs s q sig c) : abs ≤ q ∧ q < scanEnd := by
  obtain ⟨buf, limit, i, hread, -, hi, -, -, rfl⟩ := h
  obtain ⟨bytes, hb, hread⟩ := exec_bind_ok hread
  have hlen : bytes.length ≤ scanEnd - abs := by
    rw [Source.readAt_ok hb, length_window]
    omega
  cases hread
  split_ifs at hi <;> omega

namespace SignatureIndex

theorem mem_matchBucket {w : List UInt8} {bucket : List Signature} {sig : Signature}
    (h : matchBucket b w bucket = .ok (some sig)) : sig ∈ bucket := by
  induction bucket with
  | nil => cases h
  | cons s rest ih =>
    rw [matchBucket] at h
    split_ifs at h with hmagic
    · exact List.mem_cons_of_mem _ (ih h)
    · split at h
      · cases h
        exact List.mem_cons_self
      · obtain ⟨stop, -, h⟩ := exec_bind_ok h
        split_ifs at h
        · exact List.mem_cons_of_mem _ (ih h)
        · exact List.mem_cons_of_mem _ (ih h)
        · cases h
          exact List.mem_cons_self

theorem mem_matchAt {w : List UInt8} {sig : Signature} (h : idx.matchAt b w = .ok (some sig)) :
    ∃ first, sig ∈ idx.byFirstByte first := by
  unfold matchAt at h
  split at h
  · cases h
  · rename_i first rest
    split at h
    · split_ifs at h
      · exact ⟨first, mem_matchBucket h⟩
      · cases h
    · exact ⟨first, mem_matchBucket h⟩

theorem mem_build (h : build b active = .ok idx) {first : UInt8} {sig : Signature}
    (hs : sig ∈ idx.byFirstByte first) : sig ∈ active := by
  have hall (rest : List Signature) (idx₀ : SignatureIndex)
      (h₀ : ∀ first, ∀ s ∈ idx₀.byFirstByte first, s ∈ active) (hrest : ∀ s ∈ rest, s ∈ active)
      (hf : rest.foldlM (add b) idx₀ = .ok idx) : sig ∈ active := by
    induction rest generalizing idx₀ with
    | nil =>
      cases hf
      exact h₀ first sig hs
    | cons s rest ih =>
      rw [List.foldlM_cons] at hf
      obtain ⟨idx₁, ha, hf⟩ := exec_bind_ok hf
      obtain ⟨r, -, ha⟩ := exec_bind_ok ha
      cases ha
      refine ih _ (fun first' s' hs' => ?_) (fun s' hs' => hrest s' (List.mem_cons_of_mem _ hs')) hf
      simp only [push] at hs'
      split_ifs at hs'
      · rcases List.mem_append.mp hs' with hs' | hs'
        · exact h₀ first' s' hs'
        · rw [List.mem_singleton] at hs'
          rw [hs']
          exact hrest s List.mem_cons_self
      · exact h₀ first' s' hs'
  exact hall active _ (by simp [empty]) (fun _ h => h) h

end SignatureIndex

/-- A chunk visits matches of active signatures only. -/
theorem chunkVisits_active {s c : κ} {q : ℕ} {sig : Signature} {chunk : ℕ}
    (hb : Scanner.build b active chunk = .ok sc)
    (h : ChunkVisits b src sc scanEnd visit abs s q sig c) : sig ∈ active := by
  obtain ⟨buf, limit, i, -, -, -, -, hm, -⟩ := h
  obtain ⟨first, hs⟩ := SignatureIndex.mem_matchAt hm
  obtain ⟨idx, hi, hb⟩ := exec_bind_ok hb
  obtain ⟨overlap, -, hb⟩ := exec_bind_ok hb
  obtain ⟨bufLen, -, hb⟩ := exec_bind_ok hb
  split_ifs at hb
  cases hb
  exact SignatureIndex.mem_build hi hs

end Visits

def SCAN_CHUNK : ℕ := 8 * mb

/-- A type described at run time, with its magic as far from the start as no file is long. -/
def farSignature : Signature :=
  .mk "far".toList (ascii "FAR") (2 ^ 63) none (.fixed 16) 16

/-- A type described at run time, with three zeros before its tag. -/
def rawSignature : Signature :=
  .mk "raw".toList [0, 0, 0, 7] 2 (some (6, ascii "RAW")) (.fixed 16) 16

def rawSource : Source where
  data := [1, 0, 0, 0, 7, 1, 1] ++ ascii "RAWFAR"
  size_lt := by decide

theorem scan_exact_raw :
    ∃ fuel, scanMatches .debug rawSource [rawSignature] 0 none 64 fuel =
      some (.ok (naiveScan rawSource [rawSignature] 0 none)) :=
  (scan_exact_iff (fun _ _ => rfl) (by decide) (.inl rfl)).mpr (by decide)

/-- The scan ends before its first chunk, whatever the build, where a match is there to see. -/
theorem far_magic_scan_fails :
    (∀ b fuel, scanMatches b rawSource [farSignature] 0 none SCAN_CHUNK fuel =
      some (.error .capacity)) ∧
    naiveScan rawSource [farSignature] 0 none = [(10, farSignature)] := by
  constructor
  · intro b fuel
    cases b <;> rfl
  · rfl

end Unearth
