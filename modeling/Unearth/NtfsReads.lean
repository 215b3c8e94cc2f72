import Unearth.NtfsRuns

/-!
# The logical bytes of a run list

The bytes of a file lie in its runs, one run behind the other. A read puts what it gets of the
runs one piece behind the other, so that a run that is cut by the end of the source moves
everything that comes after it.
-/

namespace Unearth.Ntfs
open Bytes Word

section Logical

variable (src : Source) (volOffset clusterSize : ℕ)

/-- The run that holds a logical byte, and the place of the byte in it. -/
def locate : Runs → ℕ → Option (Option ℤ × ℕ)
  | [], _ => none
  | (lcn, count) :: runs, p =>
    if p < count * clusterSize then some (lcn, p) else locate runs (p - count * clusterSize)

/-- The byte of a hole is zero, and that of a run is on the disk. -/
def byteIn : Option ℤ → ℕ → Option UInt8
  | none, _ => some 0
  | some l, q => if l < 0 then none else src.data[volOffset + l.toNat * clusterSize + q]?

def logicalByte (runs : Runs) (p : ℕ) : Option UInt8 :=
  (locate clusterSize runs p).bind fun (lcn, q) => byteIn src volOffset clusterSize lcn q

/-- A byte of a run whose cluster is none. -/
def Negative (runs : Runs) (p : ℕ) : Prop := ∃ l q, locate clusterSize runs p = some (some l, q) ∧ l < 0

/-- Up to the first run whose cluster is none, no byte of the range that is there comes behind one
that the source does not have. -/
def NoGap (runs : Runs) (start len : ℕ) : Prop :=
  ∀ i j, i < j → j < len → (∀ k ≤ j, ¬ Negative clusterSize runs (start + k)) →
    logicalByte src volOffset clusterSize runs (start + i) = none →
      logicalByte src volOffset clusterSize runs (start + j) = none

/-- What the range holds, up to the first run whose cluster is none. -/
def stream : Runs → ℕ → ℕ → List (Option UInt8)
  | [], _, _ => []
  | (lcn, count) :: runs, skip, need =>
    if need = 0 then []
    else if count * clusterSize ≤ skip then stream runs (skip - count * clusterSize) need
    else if lcn.any fun l : ℤ => l < 0 then []
    else
      let take := min (count * clusterSize - skip) need
      (List.range' skip take).map (byteIn src volOffset clusterSize lcn) ++ stream runs 0 (need - take)

end Logical

/-- What is there comes before what is not exactly when leaving out the rest moves nothing. -/
theorem reduceOption_prefix_iff {α : Type} (l : List (Option α)) :
    (∀ i : ℕ, i < l.reduceOption.length → l[i]? = some l.reduceOption[i]?) ↔
      ∀ i j : ℕ, i < j → l[i]? = some none → l[j]? = some none ∨ l[j]? = none := by
  induction l with
  | nil => simp
  | cons x l ih =>
    cases x with
    | some a =>
      rw [List.reduceOption_cons_of_some]
      constructor
      · intro h i j hij hi
        obtain ⟨i, rfl⟩ : ∃ k, i = k + 1 := Nat.exists_eq_succ_of_ne_zero (by rintro rfl; cases hi)
        obtain ⟨j, rfl⟩ : ∃ k, j = k + 1 := Nat.exists_eq_succ_of_ne_zero (by omega)
        exact ih.mp (fun k hk => h (k + 1) (Nat.succ_lt_succ hk)) i j (by omega) hi
      · intro h i hi
        cases i with
        | zero => rfl
        | succ i =>
          exact ih.mpr (fun i j hij => h (i + 1) (j + 1) (by omega)) i (Nat.lt_of_succ_lt_succ hi)
    | none =>
      rw [List.reduceOption_cons_of_none]
      have hempty : l.reduceOption = [] ↔ ∀ j : ℕ, l[j]? = some none ∨ l[j]? = none := by
        rw [List.reduceOption, List.filterMap_eq_nil_iff]
        constructor
        · intro h j
          cases hj : l[j]? with
          | none => exact .inr rfl
          | some x => exact .inl (congrArg some (h x (List.mem_of_getElem? hj)))
        · intro h x hx
          obtain ⟨j, hj⟩ := List.getElem?_of_mem hx
          rcases h j with hnone | hnone
          · rw [hj] at hnone
            exact Option.some.inj hnone
          · rw [hj] at hnone
            cases hnone
      constructor
      · intro h i j hij _
        have hnil : l.reduceOption = [] := by
          by_contra hne
          have hpos := List.length_pos_of_ne_nil hne
          have hfirst := h 0 hpos
          rw [List.getElem?_cons_zero, List.getElem?_eq_getElem hpos] at hfirst
          cases hfirst
        obtain ⟨j, rfl⟩ : ∃ k, j = k + 1 := Nat.exists_eq_succ_of_ne_zero (by omega)
        exact hempty.mp hnil j
      · intro h i hi
        rw [hempty.mpr fun j => h 0 (j + 1) (by omega) rfl] at hi
        cases hi

section Stream

variable {src : Source} {volOffset clusterSize skip need : ℕ} {runs : Runs} {r : Run}

theorem locate_here {p : ℕ} (h : p < r.2 * clusterSize) : locate clusterSize (r :: runs) p = some (r.1, p) := if_pos h

theorem locate_later (clusterSize : ℕ) (r : Run) (runs : Runs) (p : ℕ) :
    locate clusterSize (r :: runs) (r.2 * clusterSize + p) = locate clusterSize runs p := by
  rw [locate, if_neg (by omega), Nat.add_sub_cancel_left]

/-- The range of a stream ends with it, with the runs, or at a run whose cluster is none. -/
structure Streamed (src : Source) (volOffset clusterSize : ℕ) (runs : Runs) (skip need : ℕ)
    (bytes : List (Option UInt8)) : Prop where
  get : ∀ i < bytes.length, bytes[i]? = some (logicalByte src volOffset clusterSize runs (skip + i))
  short : ∀ i < bytes.length, i < need ∧ ¬ Negative clusterSize runs (skip + i)
  ended : bytes.length < need → Negative clusterSize runs (skip + bytes.length) ∨
    ∀ p, skip + bytes.length ≤ p → locate clusterSize runs p = none

/-- A stream that begins in a later run is one of the later runs. -/
theorem Streamed.later {bytes : List (Option UInt8)} (hle : r.2 * clusterSize ≤ skip)
    (h : Streamed src volOffset clusterSize runs (skip - r.2 * clusterSize) need bytes) :
    Streamed src volOffset clusterSize (r :: runs) skip need bytes := by
  have hlater (p : ℕ) (hp : skip ≤ p) :
      locate clusterSize (r :: runs) p = locate clusterSize runs (p - r.2 * clusterSize) := by
    have hlocate := locate_later clusterSize r runs (p - r.2 * clusterSize)
    rwa [Nat.add_sub_cancel' (by omega)] at hlocate
  have hindex (i : ℕ) : skip + i - r.2 * clusterSize = skip - r.2 * clusterSize + i := by omega
  refine ⟨fun i hi => ?_, fun i hi => ?_, fun hend => ?_⟩
  · rw [h.get i hi, logicalByte, logicalByte, hlater _ (Nat.le_add_right _ _), hindex]
  · rw [Negative, hlater _ (Nat.le_add_right _ _), hindex]
    exact h.short i hi
  · rw [Negative, hlater _ (Nat.le_add_right _ _), hindex]
    refine (h.ended hend).imp_right fun hnone p hp => ?_
    rw [hlater p (by omega)]
    exact hnone _ (by omega)

/-- A stream that begins in a run is the rest of that run and what comes after it. -/
theorem Streamed.here {bytes : List (Option UInt8)} (hlt : skip < r.2 * clusterSize) (hneg : ∀ l ∈ r.1, ¬ l < 0)
    (h : Streamed src volOffset clusterSize runs 0 (need - min (r.2 * clusterSize - skip) need) bytes) :
    Streamed src volOffset clusterSize (r :: runs) skip need
      ((List.range' skip (min (r.2 * clusterSize - skip) need)).map (byteIn src volOffset clusterSize r.1) ++ bytes) := by
  set take := min (r.2 * clusterSize - skip) need with htake
  have hlength : ((List.range' skip take).map (byteIn src volOffset clusterSize r.1)).length = take := by
    rw [List.length_map, List.length_range']
  -- Bytes behind the run are there only when the range goes on behind it.
  have hbehind (i : ℕ) (hi : take < need) (hi' : take ≤ i) :
      locate clusterSize (r :: runs) (skip + i) = locate clusterSize runs (0 + (i - take)) := by
    have hlocate := locate_later clusterSize r runs (i - take)
    rw [show skip + i = r.2 * clusterSize + (i - take) by omega, hlocate, Nat.zero_add]
  refine ⟨fun i hi => ?_, fun i hi => ?_, fun hend => ?_⟩
  · rw [List.length_append, hlength] at hi
    by_cases hfirst : i < take
    · rw [List.getElem?_append_left (by omega), List.getElem?_map, List.getElem?_range' (by omega), Option.map_some,
        logicalByte, locate_here (by omega), Nat.one_mul]
      rfl
    · have hmore := (h.short (i - take) (by omega)).1
      rw [List.getElem?_append_right (by omega), hlength, h.get _ (by omega), logicalByte, logicalByte,
        hbehind i (by omega) (by omega)]
  · rw [List.length_append, hlength] at hi
    by_cases hfirst : i < take
    · refine ⟨by omega, ?_⟩
      rintro ⟨l, q, hlocate, hl⟩
      rw [locate_here (by omega)] at hlocate
      exact hneg l (congrArg Prod.fst (Option.some.inj hlocate)) hl
    · obtain ⟨hmore, hnot⟩ := h.short (i - take) (by omega)
      rw [Negative, hbehind i (by omega) (by omega)]
      exact ⟨by omega, hnot⟩
  · rw [List.length_append, hlength] at hend ⊢
    have hmore : take < need := by omega
    rw [Negative, hbehind _ hmore (by omega), Nat.add_sub_cancel_left]
    refine (h.ended (by omega)).imp_right fun hnone p hp => ?_
    have hp' : p = skip + (p - skip) := by omega
    rw [hp', hbehind _ hmore (by omega)]
    exact hnone _ (by omega)

theorem stream_streamed (src : Source) (volOffset clusterSize : ℕ) (runs : Runs) (skip need : ℕ) :
    Streamed src volOffset clusterSize runs skip need (stream src volOffset clusterSize runs skip need) := by
  induction runs generalizing skip need with
  | nil => exact ⟨fun i hi => (by cases hi), fun i hi => (by cases hi), fun _ => .inr fun _ _ => rfl⟩
  | cons r runs ih =>
    obtain ⟨lcn, count⟩ := r
    unfold stream
    by_cases hneed : need = 0
    · rw [if_pos hneed]
      exact ⟨fun i hi => (by cases hi), fun i hi => (by cases hi), fun hend => absurd hend (by simp [hneed])⟩
    rw [if_neg hneed]
    by_cases hle : count * clusterSize ≤ skip
    · rw [if_pos hle]
      exact (ih (skip - count * clusterSize) need).later hle
    rw [if_neg hle]
    by_cases hneg : (lcn.any fun l : ℤ => l < 0) = true
    · rw [if_pos hneg]
      refine ⟨fun i hi => (by cases hi), fun i hi => (by cases hi), fun _ => .inl ?_⟩
      cases lcn with
      | none => cases hneg
      | some l => exact ⟨l, skip, locate_here (r := (some l, count)) (not_le.mp hle), of_decide_eq_true hneg⟩
    · rw [if_neg hneg]
      refine (ih 0 _).here (r := (lcn, count)) (not_le.mp hle) fun l hl hlt => hneg ?_
      rw [show lcn = some l from hl]
      exact decide_eq_true hlt

/-- The stream of a range has no gap exactly when the range has none. -/
theorem noGap_iff {start len : ℕ} : NoGap src volOffset clusterSize runs start len ↔
    ∀ i j : ℕ, i < j → (stream src volOffset clusterSize runs start len)[i]? = some none →
      (stream src volOffset clusterSize runs start len)[j]? = some none ∨
        (stream src volOffset clusterSize runs start len)[j]? = none := by
  have hstream := stream_streamed src volOffset clusterSize runs start len
  set bytes := stream src volOffset clusterSize runs start len
  constructor
  · intro h i j hij hi
    by_cases hj : j < bytes.length
    · left
      rw [hstream.get i (by omega), Option.some_inj] at hi
      rw [hstream.get j hj, h i j hij (hstream.short j hj).1 (fun k hk => (hstream.short k (by omega)).2) hi]
    · exact .inr (List.getElem?_eq_none (by omega))
  · intro h i j hij hj hneg hi
    by_cases hlength : j < bytes.length
    · have hgap := h i j hij (by rw [hstream.get i (by omega), hi])
      rw [hstream.get j hlength, Option.some_inj, or_iff_left (by simp)] at hgap
      exact hgap
    · rcases hstream.ended (by omega) with hend | hend
      · exact absurd hend (hneg bytes.length (by omega))
      · rw [logicalByte, hend _ (by omega)]
        rfl

/-- What there is of a run from some place on is what the disk has from there on. -/
theorem reduceOption_window (f : List UInt8) (off : ℕ) (n : ℕ) :
    ((List.range' off n).map fun p => f[p]?).reduceOption = window f off n := by
  induction n generalizing off with
  | zero => rfl
  | succ n ih =>
    rw [List.range'_succ, List.map_cons]
    by_cases hoff : off < f.length
    · rw [List.getElem?_eq_getElem hoff, List.reduceOption_cons_of_some, ih, window, window,
        List.drop_eq_getElem_cons hoff, List.take_succ_cons]
    · rw [List.getElem?_eq_none (by omega), List.reduceOption_cons_of_none, ih, window, window,
        List.drop_eq_nil_of_le (by omega), List.drop_eq_nil_of_le (by omega), List.take_nil, List.take_nil]

/-- A product of two words is exact where the build checks it, and where it is a word. -/
theorem times_exact {b : Build} {x y z : ℕ} (h : times b x y = .ok z) (hexact : b = .debug ∨ x * y < 2 ^ 64) :
    z = x * y := by
  by_cases hlt : x * y < 2 ^ 64
  · rw [times_eq hlt] at h
    exact (Except.ok.inj h).symm
  · obtain rfl := hexact.resolve_right hlt
    rw [times, if_neg hlt] at h
    cases h

/-- A read puts together what there is of the stream. -/
theorem readRuns_stream {b : Build} {out result : List UInt8}
    (hexact : b = .debug ∨ ∀ r ∈ runs, r.2 * clusterSize < 2 ^ 64)
    (h : readRuns b src volOffset clusterSize runs skip need out = .ok result) :
    result = out ++ (stream src volOffset clusterSize runs skip need).reduceOption := by
  induction runs generalizing skip need out with
  | nil =>
    cases h
    exact (List.append_nil _).symm
  | cons r runs ih =>
    obtain ⟨lcn, count⟩ := r
    have hfirst : b = .debug ∨ count * clusterSize < 2 ^ 64 := hexact.imp_right fun h => h _ List.mem_cons_self
    have hrest : b = .debug ∨ ∀ r ∈ runs, r.2 * clusterSize < 2 ^ 64 :=
      hexact.imp_right fun h r hr => h r (List.mem_cons_of_mem _ hr)
    unfold readRuns at h
    unfold stream
    by_cases hneed : need = 0
    · rw [if_pos hneed] at h ⊢
      cases h
      exact (List.append_nil _).symm
    rw [if_neg hneed] at h ⊢
    obtain ⟨runBytes, hbytes, h⟩ := exec_bind_ok h
    obtain rfl := times_exact hbytes hfirst
    by_cases hle : count * clusterSize ≤ skip
    · rw [if_pos hle, minus_eq hle, exec_ok_bind] at h
      rw [if_pos hle]
      exact ih hrest h
    rw [if_neg hle, minus_eq (not_le.mp hle).le, exec_ok_bind] at h
    rw [if_neg hle]
    dsimp only at h ⊢
    cases lcn with
    | none =>
      rw [minus_eq (min_le_right _ _)] at h
      have hzeros : ((List.range' skip (min (count * clusterSize - skip) need)).map
          (byteIn src volOffset clusterSize none)).reduceOption =
            List.replicate (min (count * clusterSize - skip) need) 0 := by
        change ((List.range' skip _).map fun _ => some (0 : UInt8)).reduceOption = _
        rw [List.map_const', List.length_range', ← List.map_replicate, List.reduceOption, List.filterMap_map]
        exact List.filterMap_some
      rw [if_neg (by simp), List.reduceOption_append, hzeros, ih hrest h, List.append_assoc]
    | some l =>
      dsimp only at h
      by_cases hneg : l < 0
      · rw [if_pos hneg] at h
        cases h
        rw [if_pos (by simpa using hneg)]
        exact (List.append_nil _).symm
      · rw [if_neg hneg] at h
        obtain ⟨bytes, hread, h⟩ := exec_bind_ok h
        rw [minus_eq (min_le_right _ _)] at h
        have hplace : bytes = ((List.range' skip (min (count * clusterSize - skip) need)).map
            (byteIn src volOffset clusterSize (some l))).reduceOption := by
          have hdisk : satAdd (satAdd volOffset (satMul l.toNat clusterSize)) skip =
              volOffset + l.toNat * clusterSize + skip := by
            have hlt : satAdd (satAdd volOffset (satMul l.toNat clusterSize)) skip < 2 ^ 63 := by
              by_contra hlarge
              rw [Source.readAt, if_pos ⟨by omega, .inl (by omega)⟩] at hread
              cases hread
            simp only [satAdd, satMul] at hlt ⊢
            omega
          have hshift : (List.range' skip (min (count * clusterSize - skip) need)).map
              (byteIn src volOffset clusterSize (some l)) =
                (List.range' (volOffset + l.toNat * clusterSize + skip) (min (count * clusterSize - skip) need)).map
                  fun p => src.data[p]? := by
            rw [← List.map_add_range', List.map_map]
            refine List.map_congr_left fun q _ => ?_
            exact if_neg hneg
          rw [Source.readAt_ok hread, hdisk, hshift, reduceOption_window]
        rw [if_neg (by simpa using hneg), List.reduceOption_append, ← hplace, ih hrest h, List.append_assoc]

/-- What a read of a range returns is in its place exactly when the range has no gap. -/
theorem runs_read_in_place_iff {b : Build} {start len : ℕ} {out : List UInt8}
    (hread : readRunsRange b src volOffset clusterSize runs start len = .ok out)
    (hexact : b = .debug ∨ ∀ r ∈ runs, r.2 * clusterSize < 2 ^ 64) :
    (∀ i < out.length, logicalByte src volOffset clusterSize runs (start + i) = out[i]?) ↔
      NoGap src volOffset clusterSize runs start len := by
  have hstream := stream_streamed src volOffset clusterSize runs start len
  unfold readRunsRange at hread
  split_ifs at hread
  obtain rfl : out = (stream src volOffset clusterSize runs start len).reduceOption :=
    readRuns_stream hexact hread
  rw [noGap_iff, ← reduceOption_prefix_iff]
  have hle := List.reduceOption_length_le (stream src volOffset clusterSize runs start len)
  refine forall₂_congr fun i hi => ?_
  rw [hstream.get i (by omega), Option.some_inj]

end Stream

/-- Two clusters, the first of which holds ones. -/
def cutSource : Source where
  data := List.replicate 512 1 ++ List.replicate 512 2
  size_lt := by decide +kernel

/-- Of a run of two clusters the source has one, and the run behind it is moved to its place. -/
theorem cut_run_shifted :
    readRunsRange .debug cutSource 0 512 [(some 1, 2), (some 0, 1)] 0 1536 =
        .ok (List.replicate 512 2 ++ List.replicate 512 1) ∧
      logicalByte cutSource 0 512 [(some 1, 2), (some 0, 1)] 512 = none ∧
      ¬ ∀ (src : Source) (volOffset clusterSize : ℕ) (runs : Runs) (start len : ℕ) (out : List UInt8),
        readRunsRange .debug src volOffset clusterSize runs start len = .ok out →
          ∀ i < out.length, logicalByte src volOffset clusterSize runs (start + i) = out[i]? := by
  have hread : readRunsRange .debug cutSource 0 512 [(some 1, 2), (some 0, 1)] 0 1536 =
      .ok (List.replicate 512 2 ++ List.replicate 512 1) := by decide +kernel
  have hmissing : logicalByte cutSource 0 512 [(some 1, 2), (some 0, 1)] 512 = none := by decide +kernel
  refine ⟨hread, hmissing, fun hclaim => ?_⟩
  have hbyte := hclaim cutSource 0 512 _ 0 1536 _ hread 512 (by decide +kernel)
  rw [Nat.zero_add, hmissing] at hbyte
  exact absurd hbyte (by decide +kernel)

/-- Without the run behind the one that is cut, what is read is in its place. -/
theorem cut_last_run_in_place : NoGap cutSource 0 512 [(some 0, 1), (some 1, 2)] 0 1536 ↔
    ∀ i < (List.replicate 512 (1 : UInt8) ++ List.replicate 512 2).length,
      logicalByte cutSource 0 512 [(some 0, 1), (some 1, 2)] (0 + i) =
        (List.replicate 512 (1 : UInt8) ++ List.replicate 512 2)[i]? :=
  (runs_read_in_place_iff (b := .debug) (by decide +kernel) (.inl rfl)).symm

end Unearth.Ntfs
