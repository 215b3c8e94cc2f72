import Unearth.Lib.Loop
import Unearth.Lib.Signed
import Unearth.LengthFields
import Unearth.Volume

/-!
# The data runs of an NTFS attribute

A run list is a sequence of fields, each of a header with two sizes, a length and a signed
distance to the run before it. What the format says a list means is read off without any
bound on the numbers, and the reader computes it in words.
-/

namespace Unearth.Ntfs
open Bytes Word Signed Loop

/-- The first cluster of a run, if it is not a hole, and the number of its clusters. -/
abbrev Run := Option ℤ × ℕ
abbrev Runs := List Run

section Words

variable (b : Build)

/-- The plain subtraction of two 32-bit words. -/
def minus32 (x y : ℕ) : Exec ℕ :=
  if y ≤ x then .ok (x - y)
  else match b with
    | .debug => .error .overflow
    | .release => .ok (2 ^ 32 + x - y)

/-- The shift of a signed word that keeps its sign. -/
def shiftRightSigned (x : ℤ) (n : ℕ) : Exec ℤ :=
  if n < 64 then .ok (x / 2 ^ n)
  else match b with
    | .debug => .error .overflow
    | .release => .ok (x / 2 ^ (n % 64))

/-- The plain addition of two signed words. -/
def plusSigned (x y : ℤ) : Exec ℤ :=
  if InRange (x + y) then .ok (x + y)
  else match b with
    | .debug => .error .overflow
    | .release => .ok (toSigned ((x + y) % 2 ^ 64).toNat)

variable {b} in
theorem plusSigned_eq {x y : ℤ} (h : InRange (x + y)) : plusSigned b x y = .ok (x + y) := if_pos h

theorem plusSigned_debug {x y : ℤ} (h : ¬ InRange (x + y)) :
    plusSigned .debug x y = .error .overflow := if_neg h

/-- The bytes from the `k`-th one on, each shifted to its place. -/
def orShifted : ℕ → ℕ → List UInt8 → Exec ℕ
  | _, acc, [] => return acc
  | k, acc, x :: bytes => do
    let y ← shiftLeft b x.toNat (8 * k)
    orShifted (k + 1) (acc ||| y) bytes

def signExtend (off offBytes : ℕ) : Exec ℤ := do
  let shift ← minus32 b 64 (8 * offBytes)
  let left ← shiftLeft b off shift
  shiftRightSigned b (toSigned left) shift

end Words

section Decode

variable (b : Build) (data : List UInt8)

structure DecodeState where
  i : ℕ
  prevLcn : ℤ
  runs : Runs

/-- The run of a length and a distance, and the cluster that the next distance is from. -/
def decodeRun (len off : List UInt8) (prevLcn : ℤ) : Exec (Run × ℤ) := do
  let length ← orShifted b 0 0 len
  if off = [] then return ((none, length), prevLcn)
  else
    let x ← orShifted b 0 0 off
    let delta ← signExtend b x off.length
    let lcn ← plusSigned b prevLcn delta
    return ((some lcn, length), lcn)

def decodeStep (s : DecodeState) : Ctl DecodeState (Exec Runs) :=
  let header := (byteAt data s.i).toNat
  let i := s.i + 1
  let lenBytes := header % 16
  let offBytes := header / 16
  if data.length ≤ s.i ∨ header = 0 then .done (.ok s.runs)
  else if lenBytes = 0 ∨ data.length < i + lenBytes + offBytes then .done (.ok s.runs)
  else
    match decodeRun b (window data i lenBytes) (window data (i + lenBytes) offBytes) s.prevLcn with
    | .error e => .done (.error e)
    | .ok (run, lcn) =>
      .next { i := i + lenBytes + offBytes, prevLcn := lcn, runs := s.runs ++ [run] }

/-- Every run moves the index on, so that the list is decoded for any bytes. -/
def decodeLoop : While DecodeState (Exec Runs) where
  body := decodeStep b data
  measure s := data.length - s.i
  decreases s s' h := by
    dsimp only [decodeStep] at h
    split_ifs at h with hend hfield
    split at h
    · cases h
    · cases h
      dsimp only
      omega

def decodeDataRuns : Exec Runs :=
  (decodeLoop b data).eval { i := 0, prevLcn := 0, runs := [] }

end Decode

/-- What a field of a run list holds. -/
structure Field where
  len : List UInt8
  off : List UInt8

/-- The fields of a run list. It ends at a field without a length and at one that is cut. -/
def fields : ℕ → List UInt8 → List Field
  | 0, _ => []
  | _ + 1, [] => []
  | n + 1, header :: rest =>
    let lenBytes := header.toNat % 16
    let offBytes := header.toNat / 16
    if lenBytes = 0 ∨ rest.length < lenBytes + offBytes then []
    else ⟨rest.take lenBytes, (rest.drop lenBytes).take offBytes⟩ ::
      fields n (rest.drop (lenBytes + offBytes))

namespace Field

/-- The distance of a run to the one before it. -/
def delta (f : Field) : ℤ := if f.off = [] then 0 else signed f.off.length (le f.off)

def run (f : Field) (lcn : ℤ) : Run := (if f.off = [] then none else some (lcn + f.delta), le f.len)

/-- The numbers of a field, and the cluster that it leads to, are words. -/
def Fits (f : Field) (lcn : ℤ) : Prop :=
  f.len.length ≤ 8 ∧ f.off.length ≤ 8 ∧ InRange (lcn + f.delta)

end Field

/-- The numbers of all fields are words. -/
def Fits : ℤ → List Field → Prop
  | _, [] => True
  | lcn, f :: fs => f.Fits lcn ∧ Fits (lcn + f.delta) fs

/-- The runs that the fields describe. -/
def listed : ℤ → List Field → Runs
  | _, [] => []
  | lcn, f :: fs => f.run lcn :: listed (lcn + f.delta) fs

section Decoded

variable {b : Build} {data : List UInt8}

/-- Up to eight bytes, each shifted to its place, make up their number. -/
theorem orShifted_eq (done : List UInt8) {bytes : List UInt8} (h : done.length + bytes.length ≤ 8) :
    orShifted b done.length (le done) bytes = .ok (le (done ++ bytes)) := by
  induction bytes generalizing done with
  | nil => simp only [List.append_nil]; rfl
  | cons x bytes ih =>
    rw [List.length_cons] at h
    have hx := x.toNat_lt
    have hpow : (256 : ℕ) ^ done.length = 2 ^ (8 * done.length) := by
      rw [pow_mul, show (2 : ℕ) ^ 8 = 256 from rfl]
    have hdone : le done < 2 ^ (8 * done.length) := hpow ▸ le_lt done
    have hplace : x.toNat * 2 ^ (8 * done.length) < 2 ^ 64 := by
      have hshort : (2 : ℕ) ^ (8 * done.length) ≤ 2 ^ 56 := Nat.pow_le_pow_right (by decide) (by omega)
      exact (Nat.mul_le_mul_left _ hshort).trans_lt (by omega)
    have hor : le done ||| x.toNat * 2 ^ (8 * done.length) = le (done ++ [x]) := by
      rw [Nat.or_comm, Nat.mul_comm, ← Nat.two_pow_add_eq_or_of_lt hdone, le_append, hpow]
      simp only [le, List.foldr_cons, List.foldr_nil]
      ring
    have hshift : shiftLeft b x.toNat (8 * done.length) = .ok (x.toNat * 2 ^ (8 * done.length)) := by
      rw [shiftLeft_eq (by omega), Nat.mod_eq_of_lt hplace]
    have hnext := ih (done ++ [x]) (by simp only [List.length_append, List.length_singleton]; omega)
    rw [List.length_append, List.length_singleton, List.append_assoc] at hnext
    rw [orShifted, hshift]
    change orShifted b (done.length + 1) (le done ||| x.toNat * 2 ^ (8 * done.length)) bytes = _
    rw [hor]
    exact hnext

/-- The ninth byte is shifted too far. -/
theorem orShifted_wide {k acc : ℕ} {bytes : List UInt8} (hk : k ≤ 8) (h : 8 < k + bytes.length) :
    orShifted .debug k acc bytes = .error .overflow := by
  induction bytes generalizing k acc with
  | nil =>
    rw [List.length_nil] at h
    omega
  | cons x bytes ih =>
    rw [List.length_cons] at h
    unfold orShifted
    by_cases hlast : k = 8
    · subst hlast
      rfl
    · have hshift : ∃ y, shiftLeft .debug x.toNat (8 * k) = .ok y := by
        exact ⟨_, shiftLeft_eq (by omega)⟩
      obtain ⟨y, hy⟩ := hshift
      rw [hy]
      exact ih (by omega) (by omega)

theorem signExtend_eq {off : List UInt8} (hne : off ≠ []) (h : off.length ≤ 8) :
    signExtend b (le off) off.length = .ok (signed off.length (le off)) := by
  have hpos := List.length_pos_of_ne_nil hne
  have hlt : le off < 2 ^ (8 * off.length) := by
    have hle := le_lt off
    rwa [show (256 : ℕ) = 2 ^ 8 from rfl, ← pow_mul] at hle
  have hminus : minus32 b 64 (8 * off.length) = .ok (64 - 8 * off.length) := if_pos (by omega)
  have hleft : shiftLeft b (le off) (64 - 8 * off.length) =
      .ok (le off * 2 ^ (64 - 8 * off.length) % 2 ^ 64) := shiftLeft_eq (by omega)
  unfold signExtend
  rw [hminus]
  change shiftLeft b (le off) (64 - 8 * off.length) >>= _ = _
  rw [hleft]
  change shiftRightSigned b _ (64 - 8 * off.length) = _
  have hright : shiftRightSigned b (toSigned (le off * 2 ^ (64 - 8 * off.length) % 2 ^ 64))
      (64 - 8 * off.length) = .ok (signed off.length (le off)) := by
    rw [← shift_back hpos (show 8 * off.length + (64 - 8 * off.length) = 64 by omega) hlt]
    exact if_pos (by omega)
  exact hright

theorem decodeRun_eq {f : Field} {lcn : ℤ} (h : f.Fits lcn) :
    decodeRun b f.len f.off lcn = .ok (f.run lcn, lcn + f.delta) := by
  obtain ⟨hlen, hoff, hrange⟩ := h
  have hlength : orShifted b 0 0 f.len = .ok (le f.len) :=
    orShifted_eq [] (by simpa using hlen)
  unfold decodeRun
  rw [hlength]
  change (if f.off = [] then _ else _) = _
  by_cases hnil : f.off = []
  · rw [if_pos hnil]
    simp only [Field.run, Field.delta, hnil, if_true, add_zero]
    rfl
  · have hx : orShifted b 0 0 f.off = .ok (le f.off) :=
      orShifted_eq [] (by simpa using hoff)
    have hdelta : f.delta = signed f.off.length (le f.off) := if_neg hnil
    rw [if_neg hnil, hx]
    change signExtend b (le f.off) f.off.length >>= _ = _
    rw [signExtend_eq hnil hoff, ← hdelta]
    change plusSigned b lcn f.delta >>= _ = _
    rw [plusSigned_eq hrange]
    simp only [Field.run, hnil, if_false]
    rfl

theorem decodeRun_wide {f : Field} {lcn : ℤ} (hlcn : InRange lcn) (h : ¬ f.Fits lcn) :
    decodeRun .debug f.len f.off lcn = .error .overflow := by
  unfold decodeRun
  by_cases hlen : f.len.length ≤ 8
  · have hlength : orShifted .debug 0 0 f.len = .ok (le f.len) :=
      orShifted_eq [] (by simpa using hlen)
    rw [hlength]
    change (if f.off = [] then _ else _) = _
    have hnil : f.off ≠ [] := by
      intro hnil
      apply h
      refine ⟨hlen, by simp [hnil], ?_⟩
      simpa only [Field.delta, hnil, if_true, add_zero] using hlcn
    rw [if_neg hnil]
    by_cases hoff : f.off.length ≤ 8
    · have hx : orShifted .debug 0 0 f.off = .ok (le f.off) :=
        orShifted_eq [] (by simpa using hoff)
      have hdelta : f.delta = signed f.off.length (le f.off) := if_neg hnil
      rw [hx]
      change signExtend .debug (le f.off) f.off.length >>= _ = _
      rw [signExtend_eq hnil hoff, ← hdelta]
      change plusSigned .debug lcn f.delta >>= _ = _
      rw [plusSigned_debug fun hrange => h ⟨hlen, hoff, hrange⟩]
      rfl
    · rw [orShifted_wide (by decide) (by omega)]
      rfl
  · rw [orShifted_wide (by decide) (by omega)]
    rfl

theorem drop_cons_iff {i : ℕ} {header : UInt8} {rest : List UInt8}
    (h : data.drop i = header :: rest) :
    i < data.length ∧ byteAt data i = header ∧ data.drop (i + 1) = rest := by
  have hi : i < data.length := by
    by_contra hi
    rw [List.drop_eq_nil_of_le (by omega)] at h
    cases h
  rw [List.drop_eq_getElem_cons hi] at h
  cases h
  refine ⟨hi, ?_, rfl⟩
  rw [byteAt, List.getD_eq_getElem?_getD, List.getElem?_eq_getElem hi, Option.getD_some]

/-- One step of the loop decodes the next field. -/
theorem decodeStep_eq (b : Build) (data : List UInt8) {n : ℕ} {s : DecodeState} (hn : data.length - s.i ≤ n) :
    (fields n (data.drop s.i) = [] ∧ decodeStep b data s = .done (.ok s.runs)) ∨
    ∃ f fs i, fields n (data.drop s.i) = f :: fs ∧ fs = fields (n - 1) (data.drop i) ∧
      s.i < i ∧ s.i < data.length ∧
      decodeStep b data s = match decodeRun b f.len f.off s.prevLcn with
        | .error e => .done (.error e)
        | .ok (run, lcn) => .next { i, prevLcn := lcn, runs := s.runs ++ [run] } := by
  cases hdrop : data.drop s.i with
  | nil =>
    have hend : data.length ≤ s.i := List.drop_eq_nil_iff.mp hdrop
    left
    refine ⟨?_, if_pos (.inl hend)⟩
    cases n <;> rfl
  | cons header rest =>
    obtain ⟨hi, hheader, hrest⟩ := drop_cons_iff hdrop
    obtain ⟨n, rfl⟩ : ∃ k, n = k + 1 := ⟨n - 1, by omega⟩
    have hlen : data.length = s.i + 1 + rest.length := by
      rw [← hrest, List.length_drop]
      omega
    dsimp only [decodeStep]
    rw [hheader]
    by_cases hzero : header.toNat = 0
    · left
      refine ⟨?_, if_pos (.inr hzero)⟩
      simp only [fields, hzero, Nat.zero_mod, true_or, if_true]
    rw [if_neg (by omega)]
    by_cases hcut : header.toNat % 16 = 0 ∨ rest.length < header.toNat % 16 + header.toNat / 16
    · left
      refine ⟨if_pos hcut, if_pos (hcut.imp_right fun h => ?_)⟩
      omega
    · right
      refine ⟨_, _, s.i + 1 + header.toNat % 16 + header.toNat / 16, if_neg hcut, ?_, by omega, hi, ?_⟩
      · rw [Nat.add_sub_cancel, ← hrest, List.drop_drop]
        congr 2
        omega
      · rw [if_neg fun h => hcut (h.imp_right fun h => by omega)]
        simp only [window, ← hrest, List.drop_drop]

theorem decodeLoop_eq {n : ℕ} {s : DecodeState} (hn : data.length - s.i ≤ n)
    (h : Fits s.prevLcn (fields n (data.drop s.i))) :
    (decodeLoop b data).eval s = .ok (s.runs ++ listed s.prevLcn (fields n (data.drop s.i))) := by
  induction n generalizing s with
  | zero =>
    rw [(decodeLoop b data).eval_done (r := .ok s.runs) (if_pos (.inl (by omega)))]
    simp only [fields, listed, List.append_nil]
  | succ n ih =>
    obtain ⟨hnil, hstep⟩ | ⟨f, fs, i, hcons, hfs, hlt, hi, hstep⟩ :=
      decodeStep_eq b data hn
    · rw [(decodeLoop b data).eval_done hstep, hnil, listed, List.append_nil]
    · rw [hcons] at h ⊢
      rw [decodeRun_eq h.1] at hstep
      rw [(decodeLoop b data).eval_next hstep]
      subst hfs
      have hnext := @ih ⟨i, s.prevLcn + f.delta, s.runs ++ [f.run s.prevLcn]⟩ (by dsimp only; omega) h.2
      rw [hnext, listed, List.append_assoc, List.singleton_append]
      rfl

theorem decodeLoop_wide {n : ℕ} {s : DecodeState} (hn : data.length - s.i ≤ n)
    (hlcn : InRange s.prevLcn) (h : ¬ Fits s.prevLcn (fields n (data.drop s.i))) :
    (decodeLoop .debug data).eval s = .error .overflow := by
  induction n generalizing s with
  | zero => exact absurd trivial h
  | succ n ih =>
    obtain ⟨hnil, hstep⟩ | ⟨f, fs, i, hcons, hfs, hlt, hi, hstep⟩ :=
      decodeStep_eq .debug data hn
    · rw [hnil] at h
      exact absurd trivial h
    · rw [hcons] at h
      by_cases hf : f.Fits s.prevLcn
      · rw [decodeRun_eq hf] at hstep
        rw [(decodeLoop .debug data).eval_next hstep]
        subst hfs
        apply ih
        · dsimp only
          omega
        · exact hf.2.2
        · exact fun hrest => h ⟨hf, hrest⟩
      · rw [decodeRun_wide hlcn hf] at hstep
        exact (decodeLoop .debug data).eval_done hstep

/-- A run list whose numbers are words is decoded into the runs that it describes. -/
theorem decodeDataRuns_eq (h : Fits 0 (fields data.length data)) :
    decodeDataRuns b data = .ok (listed 0 (fields data.length data)) := by
  exact decodeLoop_eq (s := ⟨0, 0, []⟩) (Nat.sub_le _ _) h

theorem decodeDataRuns_wide (h : ¬ Fits 0 (fields data.length data)) :
    decodeDataRuns .debug data = .error .overflow := by
  exact decodeLoop_wide (s := ⟨0, 0, []⟩) (Nat.sub_le _ _) (by decide) h

end Decoded

section Range

variable (b : Build) (src : Source) (volOffset clusterSize : ℕ)

/-- The bytes of the runs from `skip` on, as far as `need`. -/
def readRuns : Runs → ℕ → ℕ → List UInt8 → Exec (List UInt8)
  | [], _, _, out => return out
  | (lcn, count) :: runs, skip, need, out =>
    if need = 0 then return out
    else do
      let runBytes ← times b count clusterSize
      if runBytes ≤ skip then
        let skip ← minus b skip runBytes
        readRuns runs skip need out
      else
        let avail ← minus b runBytes skip
        let take := min avail need
        match lcn with
        | none =>
          let need ← minus b need take
          readRuns runs 0 need (out ++ List.replicate take 0)
        | some l =>
          if l < 0 then return out
          else
            let disk := satAdd (satAdd volOffset (satMul l.toNat clusterSize)) skip
            let bytes ← src.readAt disk take
            let need ← minus b need take
            readRuns runs 0 need (out ++ bytes)

/-- The `len` bytes from `start` on; fewer where the runs or the source end. -/
def readRunsRange (runs : Runs) (start len : ℕ) : Exec (List UInt8) :=
  if 2 ^ 63 ≤ len then .error .capacity
  else readRuns b src volOffset clusterSize runs start len []

end Range

section Reached

variable (clusterSize : ℕ)

/-- The bytes of the runs before the `i`-th one. -/
def before (runs : Runs) (i : ℕ) : ℕ := ((runs.take i).map fun r => r.2 * clusterSize).sum

/-- The bytes of a run from `skip` on can be read from some source. -/
def Passable (skip : ℕ) : Run → Prop
  | (none, _) => True
  | (some l, _) => 0 ≤ l ∧ l.toNat * clusterSize + skip < 2 ^ 63

/-- The `i`-th run is looked at for the `len` bytes from `start` on: they do not end before
it, and the runs that hold some of them before it can be read. -/
structure Reached (runs : Runs) (start len i : ℕ) : Prop where
  some_left : 0 < len ∧ before clusterSize runs i < start + len
  passed : ∀ j < i, ∀ r, runs[j]? = some r → start < before clusterSize runs (j + 1) →
    0 < r.2 * clusterSize → Passable clusterSize (start - before clusterSize runs j) r

/-- Every run that is looked at has a size that is a word. -/
def RunsFit (runs : Runs) (start len : ℕ) : Prop :=
  ∀ i r, runs[i]? = some r → Reached clusterSize runs start len i → r.2 * clusterSize < 2 ^ 64

variable {clusterSize}

theorem before_succ (clusterSize : ℕ) (r : Run) (runs : Runs) (i : ℕ) :
    before clusterSize (r :: runs) (i + 1) = r.2 * clusterSize + before clusterSize runs i := by
  simp only [before, List.take_succ_cons, List.map_cons, List.sum_cons]

theorem reached_zero {runs : Runs} {start len : ℕ} :
    Reached clusterSize runs start len 0 ↔ 0 < len := by
  constructor
  · intro h
    exact h.some_left.1
  · intro h
    refine ⟨⟨h, ?_⟩, nofun⟩
    simp only [before, List.take_zero, List.map_nil, List.sum_nil]
    omega

theorem before_add_one (clusterSize : ℕ) {runs : Runs} {r : Run} {i : ℕ} (h : runs[i]? = some r) :
    before clusterSize runs (i + 1) = before clusterSize runs i + r.2 * clusterSize := by
  simp only [before, List.take_add_one, h, Option.toList_some, List.map_append, List.sum_append,
    List.map_cons, List.map_nil, List.sum_cons, List.sum_nil, Nat.add_zero]

/-- A run before the range is passed over. -/
theorem reached_skipped {r : Run} {runs : Runs} {start len i : ℕ} (h : r.2 * clusterSize ≤ start) :
    Reached clusterSize (r :: runs) start len (i + 1) ↔
      Reached clusterSize runs (start - r.2 * clusterSize) len i := by
  have hbefore := before_succ clusterSize r runs
  constructor
  · rintro ⟨⟨hlen, hleft⟩, hpassed⟩
    rw [hbefore] at hleft
    refine ⟨⟨hlen, by omega⟩, fun j hj r' hr' hstart hpos => ?_⟩
    have hj' := hpassed (j + 1) (by omega) r' (by simpa using hr')
    rw [hbefore, hbefore] at hj'
    rw [Nat.sub_sub]
    exact hj' (by omega) hpos
  · rintro ⟨⟨hlen, hleft⟩, hpassed⟩
    refine ⟨⟨hlen, ?_⟩, fun j hj r' hr' hstart hpos => ?_⟩
    · rw [hbefore]
      omega
    · cases j with
      | zero =>
        rw [hbefore] at hstart
        simp only [before, List.take_zero, List.map_nil, List.sum_nil] at hstart
        omega
      | succ j =>
        rw [hbefore] at hstart ⊢
        have hj' := hpassed j (by omega) r' (by simpa using hr') (by omega) hpos
        rwa [Nat.sub_sub] at hj'

/-- A run of the range is read up to the end of one of them. -/
theorem reached_read {r : Run} {runs : Runs} {start len i : ℕ} (h : start < r.2 * clusterSize) :
    Reached clusterSize (r :: runs) start len (i + 1) ↔ Passable clusterSize start r ∧
      Reached clusterSize runs 0 (len - min (r.2 * clusterSize - start) len) i := by
  have hbefore := before_succ clusterSize r runs
  constructor
  · rintro ⟨⟨hlen, hleft⟩, hpassed⟩
    rw [hbefore] at hleft
    have hfirst := hpassed 0 (by omega) r rfl (by rw [hbefore]; omega) (by omega)
    refine ⟨hfirst, ⟨by omega, by omega⟩, fun j hj r' hr' hstart hpos => ?_⟩
    have hj' := hpassed (j + 1) (by omega) r' (by simpa using hr')
    rw [hbefore, hbefore, Nat.sub_eq_zero_of_le (by omega)] at hj'
    rw [Nat.zero_sub]
    exact hj' (by omega) hpos
  · rintro ⟨hfirst, ⟨hlen, hleft⟩, hpassed⟩
    refine ⟨⟨by omega, ?_⟩, fun j hj r' hr' hstart hpos => ?_⟩
    · rw [hbefore]
      omega
    · cases j with
      | zero =>
        simp only [List.getElem?_cons_zero, Option.some.injEq] at hr'
        subst hr'
        exact hfirst
      | succ j =>
        rw [hbefore, Nat.sub_eq_zero_of_le (by omega)]
        have hrun : runs[j]? = some r' := by simpa using hr'
        have hbetween := before_add_one clusterSize hrun
        have hj' := hpassed j (by omega) r' hrun (by omega) hpos
        rwa [Nat.zero_sub] at hj'

theorem runsFit_cons {r : Run} {runs : Runs} {skip need : ℕ} (hneed : 0 < need) :
    RunsFit clusterSize (r :: runs) skip need ↔ r.2 * clusterSize < 2 ^ 64 ∧
      (r.2 * clusterSize ≤ skip → RunsFit clusterSize runs (skip - r.2 * clusterSize) need) ∧
      (skip < r.2 * clusterSize → Passable clusterSize skip r →
        RunsFit clusterSize runs 0 (need - min (r.2 * clusterSize - skip) need)) := by
  constructor
  · intro h
    refine ⟨h 0 r rfl (reached_zero.mpr hneed), fun hle i r' hr' hi => ?_, fun hlt hpass i r' hr' hi => ?_⟩
    · exact h (i + 1) r' (by simpa using hr') ((reached_skipped hle).mpr hi)
    · exact h (i + 1) r' (by simpa using hr') ((reached_read hlt).mpr ⟨hpass, hi⟩)
  · rintro ⟨hfirst, hskipped, hread⟩ i r' hr' hi
    cases i with
    | zero =>
      simp only [List.getElem?_cons_zero, Option.some.injEq] at hr'
      rw [← hr']
      exact hfirst
    | succ i =>
      rw [List.getElem?_cons_succ] at hr'
      by_cases hle : r.2 * clusterSize ≤ skip
      · exact hskipped hle i r' hr' ((reached_skipped hle).mp hi)
      · obtain ⟨hpass, hi⟩ := (reached_read (by omega)).mp hi
        exact hread (by omega) hpass i r' hr' hi

end Reached

section Overflow

variable {clusterSize : ℕ}

theorem satMul_lt_offset (volOffset : ℕ) {l skip : ℕ}
    (h : satAdd (satAdd volOffset (satMul l clusterSize)) skip < 2 ^ 63) :
    l * clusterSize + skip < 2 ^ 63 := by
  simp only [satAdd, satMul] at h
  omega

/-- Reading runs whose sizes are words does not overflow. -/
theorem readRuns_fits {src : Source} {volOffset : ℕ} {runs : Runs} {skip need : ℕ} {out : List UInt8}
    (h : RunsFit clusterSize runs skip need) :
    readRuns .debug src volOffset clusterSize runs skip need out ≠ .error .overflow := by
  induction runs generalizing skip need out with
  | nil => exact nofun
  | cons r runs ih =>
    obtain ⟨lcn, count⟩ := r
    unfold readRuns
    by_cases hneed : need = 0
    · rw [if_pos hneed]
      exact nofun
    obtain ⟨hfirst, hskipped, hread⟩ := (runsFit_cons (by omega)).mp h
    dsimp only at hfirst hskipped hread
    rw [if_neg hneed, times_eq hfirst]
    simp only [bind, Except.bind]
    by_cases hle : count * clusterSize ≤ skip
    · rw [if_pos hle, minus_eq hle]
      exact ih (hskipped hle)
    · rw [if_neg hle, minus_eq (by omega)]
      simp only
      rw [minus_eq (min_le_right _ _)]
      cases lcn with
      | none => exact ih (hread (by omega) trivial)
      | some l =>
        dsimp only
        by_cases hneg : l < 0
        · rw [if_pos hneg]
          exact nofun
        · rw [if_neg hneg]
          cases hbytes : src.readAt _ _ with
          | error e =>
            rw [Source.readAt_error hbytes]
            exact nofun
          | ok bytes =>
            apply ih
            apply hread (by omega)
            refine ⟨by omega, satMul_lt_offset volOffset ?_⟩
            by_contra hlarge
            rw [Source.readAt, if_pos ⟨by omega, .inl (by omega)⟩] at hbytes
            cases hbytes

/-- A source without any bytes. -/
def emptySource : Source where
  data := []
  size_lt := by decide

/-- Reading runs of which one that is looked at is too large overflows, whatever the source. -/
theorem readRuns_wide {runs : Runs} {skip need : ℕ} {out : List UInt8}
    (h : ¬ RunsFit clusterSize runs skip need) :
    readRuns .debug emptySource 0 clusterSize runs skip need out = .error .overflow := by
  induction runs generalizing skip need out with
  | nil =>
    exfalso
    apply h
    intro i r hr
    cases hr
  | cons r runs ih =>
    obtain ⟨lcn, count⟩ := r
    have hneed : 0 < need := by
      by_contra hneed
      exact h fun i r _ hi => absurd hi.some_left.1 hneed
    rw [runsFit_cons hneed] at h
    dsimp only at h
    unfold readRuns
    rw [if_neg (by omega)]
    by_cases hfirst : count * clusterSize < 2 ^ 64
    · rw [times_eq hfirst]
      simp only [bind, Except.bind]
      by_cases hle : count * clusterSize ≤ skip
      · rw [if_pos hle, minus_eq hle]
        apply ih
        exact fun hrest => h ⟨hfirst, fun _ => hrest, fun hlt => absurd hlt (by omega)⟩
      · rw [if_neg hle, minus_eq (by omega)]
        simp only
        rw [minus_eq (min_le_right _ _)]
        have hrest : Passable clusterSize skip (lcn, count) ∧
            ¬ RunsFit clusterSize runs 0 (need - min (count * clusterSize - skip) need) := by
          by_contra hrest
          refine h ⟨hfirst, fun hle' => absurd hle' hle, fun _ hpass => ?_⟩
          by_contra hfit
          exact hrest ⟨hpass, hfit⟩
        obtain ⟨hpass, hrest⟩ := hrest
        cases lcn with
        | none => exact ih hrest
        | some l =>
          obtain ⟨hpos, hdisk⟩ := hpass
          have hread : emptySource.readAt (satAdd (satAdd 0 (satMul l.toNat clusterSize)) skip)
              (min (count * clusterSize - skip) need) = .ok [] := by
            rw [Source.readAt, if_neg]
            · simp only [window, emptySource, List.drop_nil, List.take_nil]
            · rintro ⟨-, hlarge | hfail⟩
              · simp only [satAdd, satMul] at hlarge
                omega
              · cases hfail
          dsimp only
          rw [if_neg (by omega), hread]
          exact ih hrest
    · rw [times, if_neg hfirst]
      rfl

/-- Nothing overflows while the list is decoded, nor while its runs are read from any
source. -/
structure RunsSafe (data : List UInt8) (clusterSize start len : ℕ) : Prop where
  decoded : decodeDataRuns .debug data ≠ .error .overflow
  read : ∀ runs, decodeDataRuns .debug data = .ok runs → ∀ src volOffset,
    readRunsRange .debug src volOffset clusterSize runs start len ≠ .error .overflow

/-- The run list can be decoded and read exactly when its numbers, the clusters that it
leads to and the sizes of the runs that are looked at are words. -/
theorem runs_safe_iff (data : List UInt8) (clusterSize start len : ℕ) :
    RunsSafe data clusterSize start len ↔ Fits 0 (fields data.length data) ∧
      (len < 2 ^ 63 → RunsFit clusterSize (listed 0 (fields data.length data)) start len) := by
  constructor
  · intro h
    have hfits : Fits 0 (fields data.length data) := by
      by_contra hwide
      exact h.decoded (decodeDataRuns_wide hwide)
    refine ⟨hfits, fun hlen => ?_⟩
    by_contra hwide
    apply h.read _ (decodeDataRuns_eq hfits) emptySource 0
    rw [readRunsRange, if_neg (by omega)]
    exact readRuns_wide hwide
  · rintro ⟨hfits, hrange⟩
    have hdecoded := decodeDataRuns_eq (b := .debug) hfits
    refine ⟨?_, fun runs hruns src volOffset => ?_⟩
    · rw [hdecoded]
      exact nofun
    · rw [hdecoded] at hruns
      cases hruns
      unfold readRunsRange
      by_cases hlen : 2 ^ 63 ≤ len
      · rw [if_pos hlen]
        exact nofun
      · rw [if_neg hlen]
        exact readRuns_fits (hrange (by omega))

/-- A hole whose length takes nine bytes, a distance of nine bytes, two distances whose sum
is no signed word, and a run of more bytes than a word can count. -/
theorem wide_runs_overflow :
    decodeDataRuns .debug [9, 1, 0, 0, 0, 0, 0, 0, 0, 0] = .error .overflow ∧
    decodeDataRuns .debug [0x91, 1, 1, 0, 0, 0, 0, 0, 0, 0, 0] = .error .overflow ∧
    decodeDataRuns .debug [0x81, 1, 255, 255, 255, 255, 255, 255, 255, 127, 0x11, 1, 1] =
      .error .overflow ∧
    decodeDataRuns .debug [0x18, 0, 0, 0, 0, 0, 0, 0, 1, 1] = .ok [(some 1, 2 ^ 56)] ∧
    readRunsRange .debug emptySource 0 4096 [(some 1, 2 ^ 56)] 0 1024 = .error .overflow ∧
    ¬ RunsSafe [9, 1, 0, 0, 0, 0, 0, 0, 0, 0] 4096 0 1024 := by
  have hhole : decodeDataRuns .debug [9, 1, 0, 0, 0, 0, 0, 0, 0, 0] = .error .overflow := by
    decide +kernel
  refine ⟨hhole, by decide +kernel, by decide +kernel, by decide +kernel, by decide +kernel, ?_⟩
  exact fun h => h.decoded hhole

end Overflow

end Unearth.Ntfs
