import Unearth.NtfsRuns

/-!
# Run lists as they are written

A run takes as many bytes as its length needs, and as many as the distance to the last run that
is no hole needs. What is written is decoded into the same runs.
-/

namespace Unearth.Ntfs
open Bytes Word Signed

section Encode

/-- The least number of bytes, eight at most, that are enough. -/
def leastWidth (enough : ℕ → Bool) : ℕ := ((List.range' 1 8).find? enough).getD 8

def lengthWidth (n : ℕ) : ℕ := leastWidth fun k => n < 256 ^ k
def deltaWidth (d : ℤ) : ℕ := leastWidth fun k => -2 ^ (8 * k - 1) ≤ d ∧ d < 2 ^ (8 * k - 1)

/-- The field of a run behind one at a cluster. -/
def fieldOf (lcn : ℤ) : Run → Field
  | (none, n) => ⟨toLe (lengthWidth n) n, []⟩
  | (some l, n) =>
    let k := deltaWidth (l - lcn)
    ⟨toLe (lengthWidth n) n, toLe k ((l - lcn) % 2 ^ (8 * k)).toNat⟩

def Field.encode (f : Field) : List UInt8 :=
  UInt8.ofNat (16 * f.off.length + f.len.length) :: f.len ++ f.off

def fieldsOf : ℤ → Runs → List Field
  | _, [] => []
  | lcn, r :: runs => fieldOf lcn r :: fieldsOf (r.1.getD lcn) runs

def encodeRuns (runs : Runs) : List UInt8 := (fieldsOf 0 runs).flatMap Field.encode

end Encode

section RoundTrip

variable {lcn : ℤ} {r : Run} {runs : Runs}

theorem leastWidth_spec (enough : ℕ → Bool) (h : enough 8 = true) :
    1 ≤ leastWidth enough ∧ leastWidth enough ≤ 8 ∧ enough (leastWidth enough) = true := by
  unfold leastWidth
  cases hfind : (List.range' 1 8).find? enough with
  | none => exact ⟨by decide, le_rfl, h⟩
  | some k =>
    have hk := List.mem_range'_1.mp (List.mem_of_find?_eq_some hfind)
    exact ⟨hk.1, by rw [Option.getD_some]; omega, List.find?_some hfind⟩

/-- A field whose sizes are digits of a header is read back. -/
theorem fields_encode {f : Field} (hlen : 1 ≤ f.len.length ∧ f.len.length ≤ 8) (hoff : f.off.length ≤ 8) (n : ℕ)
    (rest : List UInt8) : fields (n + 1) (f.encode ++ rest) = f :: fields n rest := by
  have hheader : (UInt8.ofNat (16 * f.off.length + f.len.length)).toNat = 16 * f.off.length + f.len.length := by
    rw [UInt8.toNat_ofNat']
    omega
  have hlow : (16 * f.off.length + f.len.length) % 16 = f.len.length := by omega
  have hhigh : (16 * f.off.length + f.len.length) / 16 = f.off.length := by omega
  rw [Field.encode, List.cons_append, List.cons_append, fields]
  rw [hheader, hlow, hhigh, List.append_assoc, List.take_left, List.drop_left, List.take_left, ← List.drop_drop,
    List.drop_left, List.drop_left, if_neg]
  simp only [List.length_append]
  omega

/-- The fields end at a header of zero. -/
theorem fields_encoded {fs : List Field}
    (h : ∀ f ∈ fs, (1 ≤ f.len.length ∧ f.len.length ≤ 8) ∧ f.off.length ≤ 8) (trailing : List UInt8) {n : ℕ}
    (hn : fs.length < n) : fields n (fs.flatMap Field.encode ++ 0 :: trailing) = fs := by
  induction fs generalizing n with
  | nil =>
    obtain ⟨n, rfl⟩ : ∃ k, n = k + 1 := ⟨n - 1, by omega⟩
    rfl
  | cons f fs ih =>
    obtain ⟨n, rfl⟩ : ∃ k, n = k + 1 := ⟨n - 1, by omega⟩
    obtain ⟨hf, hfs⟩ := List.forall_mem_cons.mp h
    rw [List.flatMap_cons, List.append_assoc, fields_encode hf.1 hf.2, ih hfs (by simpa using hn)]

/-- A run at a cluster of 62 bits, with a length that a word of 62 bits counts. -/
def Encodable (r : Run) : Prop := (∀ l ∈ r.1, 0 ≤ l ∧ l < 2 ^ 62) ∧ 1 ≤ r.2 ∧ r.2 < 2 ^ 62

/-- A field is made of at most sixteen bytes, and it leads from the cluster before to the run. -/
structure Written (lcn : ℤ) (r : Run) (f : Field) : Prop where
  len : 1 ≤ f.len.length ∧ f.len.length ≤ 8
  off : f.off.length ≤ 8
  delta : lcn + f.delta = r.1.getD lcn
  run : f.run lcn = r

theorem fieldOf_written (hlcn : 0 ≤ lcn ∧ lcn < 2 ^ 62) (h : Encodable r) : Written lcn r (fieldOf lcn r) := by
  obtain ⟨lcn', n⟩ := r
  obtain ⟨hrange, -, hn⟩ := h
  obtain ⟨hlow, hhigh, hfits⟩ := leastWidth_spec (fun k => n < 256 ^ k) (by
    rw [decide_eq_true_eq]
    omega)
  have hlen : le (toLe (lengthWidth n) n) = n := le_toLe (of_decide_eq_true hfits)
  cases lcn' with
  | none =>
    refine ⟨?_, Nat.zero_le _, add_zero _, ?_⟩
    · rw [fieldOf, length_toLe]
      exact ⟨hlow, hhigh⟩
    · simp only [fieldOf, Field.run, if_true, hlen]
  | some l =>
    have hl := hrange l rfl
    obtain ⟨hpos, hwidth, hsigned⟩ := leastWidth_spec
      (fun k => -2 ^ (8 * k - 1) ≤ l - lcn ∧ l - lcn < 2 ^ (8 * k - 1)) (by
        rw [decide_eq_true_eq]
        omega)
    rw [decide_eq_true_eq] at hsigned
    have hne : (fieldOf lcn (some l, n)).off ≠ [] := by
      apply List.ne_nil_of_length_pos
      rw [fieldOf, length_toLe]
      exact hpos
    have hdelta : (fieldOf lcn (some l, n)).delta = l - lcn := by
      have hword : ((l - lcn) % 2 ^ (8 * deltaWidth (l - lcn))).toNat < 256 ^ deltaWidth (l - lcn) := by
        have hmod := Int.emod_lt_of_pos (l - lcn) (show (0 : ℤ) < 2 ^ (8 * deltaWidth (l - lcn)) by positivity)
        have hpow : (256 : ℤ) ^ deltaWidth (l - lcn) = 2 ^ (8 * deltaWidth (l - lcn)) := by
          rw [pow_mul]
          norm_num
        zify
        rw [Int.toNat_of_nonneg (Int.emod_nonneg _ (by positivity)), hpow]
        exact hmod
      rw [Field.delta, if_neg hne]
      dsimp only [fieldOf]
      rw [length_toLe, le_toLe hword]
      exact signed_emod hpos hsigned.1 hsigned.2
    refine ⟨?_, ?_, ?_, ?_⟩
    · rw [fieldOf, length_toLe]
      exact ⟨hlow, hhigh⟩
    · rw [fieldOf, length_toLe]
      exact hwidth
    · rw [hdelta]
      exact add_sub_cancel lcn l
    · rw [Field.run, if_neg hne, hdelta, add_sub_cancel]
      exact congrArg (some l, ·) hlen

/-- What is written for runs is what they are read from. -/
theorem fieldsOf_written (lcn : ℤ) (hlcn : 0 ≤ lcn ∧ lcn < 2 ^ 62) (h : ∀ r ∈ runs, Encodable r) :
    (∀ f ∈ fieldsOf lcn runs, (1 ≤ f.len.length ∧ f.len.length ≤ 8) ∧ f.off.length ≤ 8) ∧
      Fits lcn (fieldsOf lcn runs) ∧ listed lcn (fieldsOf lcn runs) = runs := by
  induction runs generalizing lcn with
  | nil => exact ⟨fun f hf => (by cases hf), trivial, rfl⟩
  | cons r runs ih =>
    obtain ⟨hr, hruns⟩ := List.forall_mem_cons.mp h
    have hwritten := fieldOf_written hlcn hr
    have hnext : 0 ≤ r.1.getD lcn ∧ r.1.getD lcn < 2 ^ 62 := by
      cases hfirst : r.1 with
      | none => exact hlcn
      | some l => exact hr.1 l hfirst
    obtain ⟨hsizes, hfits, hlisted⟩ := ih _ hnext hruns
    refine ⟨List.forall_mem_cons.mpr ⟨⟨hwritten.len, hwritten.off⟩, hsizes⟩, ⟨⟨hwritten.len.2, hwritten.off, ?_⟩, ?_⟩, ?_⟩
    · rw [hwritten.delta]
      exact ⟨by omega, by omega⟩
    · rw [hwritten.delta]
      exact hfits
    · rw [fieldsOf, listed, hwritten.delta, hlisted, hwritten.run]

/-- Runs that are written are decoded, whatever comes behind them. -/
theorem run_list_round_trip (b : Build) (runs : Runs) (trailing : List UInt8) (h : ∀ r ∈ runs, Encodable r) :
    decodeDataRuns b (encodeRuns runs ++ 0 :: trailing) = .ok runs := by
  obtain ⟨hsizes, hfits, hlisted⟩ := fieldsOf_written 0 ⟨le_rfl, by decide⟩ h
  have hlength : (fieldsOf 0 runs).length < (encodeRuns runs ++ 0 :: trailing).length := by
    have hle : (fieldsOf 0 runs).length ≤ (encodeRuns runs).length := by
      rw [encodeRuns, List.length_flatMap, ← List.length_map (f := fun f => (Field.encode f).length)]
      refine List.length_le_sum_of_one_le _ fun k hk => ?_
      obtain ⟨f, -, rfl⟩ := List.mem_map.mp hk
      rw [Field.encode, List.cons_append, List.length_cons]
      omega
    rw [List.length_append, List.length_cons]
    omega
  have hfields : fields (encodeRuns runs ++ 0 :: trailing).length (encodeRuns runs ++ 0 :: trailing) = fieldsOf 0 runs :=
    fields_encoded hsizes trailing hlength
  rw [decodeDataRuns_eq (by rwa [hfields]), hfields, hlisted]

/-- A run, a hole, and a run in front of the first one. -/
theorem backward_run_decoded : decodeDataRuns .debug
    (encodeRuns [(some 300, 5), (none, 3), (some 40, 300)] ++ 0 :: [7, 7]) =
      .ok [(some 300, 5), (none, 3), (some 40, 300)] := by
  refine run_list_round_trip .debug _ _ fun r hr => ?_
  simp only [List.mem_cons, List.not_mem_nil, or_false] at hr
  obtain rfl | rfl | rfl := hr
  · simp [Encodable]
  · simp [Encodable]
  · simp [Encodable]

end RoundTrip

end Unearth.Ntfs
