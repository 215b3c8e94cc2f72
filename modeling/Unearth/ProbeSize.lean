import Unearth.Lib.Halving
import Unearth.Lib.Until
import Unearth.Slices

/-!
# The size of a device that does not tell it

The end of such a device is looked for by reading: an offset is doubled until nothing is read there,
and then what is left is halved. A sector that cannot be read looks like the end.
-/

namespace Unearth.Probing
open Bytes Word Loop Post Halving

def SECTOR : ℕ := 512

/-- What single reads of a device make; one that was interrupted is made again, and does not count. -/
structure Device where
  data : List UInt8
  fails : ℕ → ℕ → Bool := fun _ _ => false

namespace Device

def size (d : Device) : ℕ := d.data.length

def readAtOnce (d : Device) (off len : ℕ) : Exec (List UInt8) :=
  if d.fails off len then .error .io else .ok (window d.data off len)

end Device

section Search

variable (b : Build) (d : Device)

def fillStep (off len : ℕ) (got : List UInt8) : Exec (List UInt8 ⊕ List UInt8) :=
  if got.length < len then do
    let bytes ← d.readAtOnce (← plus b off got.length) (len - got.length)
    return if bytes = [] then .inr got else .inl (got ++ bytes)
  else return .inr got

def filling (off len : ℕ) : Until Fault (List UInt8) (List UInt8) where
  step := fillStep b d off len
  measure got := len - got.length
  decreases got got' h := by
    unfold fillStep at h
    split_ifs at h with hlt
    · obtain ⟨pos, -, h⟩ := exec_bind_ok h
      obtain ⟨bytes, -, h⟩ := exec_bind_ok h
      split_ifs at h with hne
      · cases h
      · cases h
        have hpos := List.length_pos_of_ne_nil hne
        rw [List.length_append]
        omega
    · cases h

/-- Reads until the buffer is full or nothing comes. -/
def readAt (off len : ℕ) : Exec (List UInt8) := (filling b d off len).eval []

def readable (off : ℕ) : Exec Bool := do return (← tolerated [] (readAt b d off SECTOR)) ≠ []

/-- An offset that is readable, and one that is taken not to be. -/
@[ext]
structure Probe where
  lo : ℕ
  hi : ℕ
  lo_lt : lo < hi
  lo_dvd : SECTOR ∣ lo
  hi_dvd : SECTOR ∣ hi

namespace Probe

def start : Probe := ⟨0, SECTOR, by decide, dvd_zero _, dvd_rfl⟩

/-- Twice as far, unless that is beyond the word. -/
def further (p : Probe) : Option Probe :=
  if p.hi * 2 < 2 ^ 64 then
    some ⟨p.hi, p.hi * 2, by have := p.lo_lt; omega, p.hi_dvd, p.hi_dvd.mul_right 2⟩
  else none

def mid (p : Probe) : ℕ := p.lo + (p.hi - p.lo) / 2 / SECTOR * SECTOR

theorem mid_dvd (p : Probe) : SECTOR ∣ p.mid := p.lo_dvd.add (Dvd.intro_left _ rfl)

/-- The middle is between two offsets that are not next to each other. -/
theorem mid_between {p : Probe} (h : SECTOR < p.hi - p.lo) : p.lo < p.mid ∧ p.mid < p.hi := by
  have hsector : SECTOR = 512 := rfl
  obtain ⟨i, hi⟩ := p.lo_dvd
  obtain ⟨j, hj⟩ := p.hi_dvd
  rw [hsector] at h hi hj
  unfold mid
  rw [hsector]
  omega

def upper (p : Probe) (h : SECTOR < p.hi - p.lo) : Probe := ⟨p.mid, p.hi, (mid_between h).2, p.mid_dvd, p.hi_dvd⟩

def lower (p : Probe) (h : SECTOR < p.hi - p.lo) : Probe := ⟨p.lo, p.mid, (mid_between h).1, p.lo_dvd, p.mid_dvd⟩

end Probe

/-- `none` when the offset would be beyond the word. -/
def doubleStep (p : Probe) : Exec (Probe ⊕ Option Probe) := do
  if ← readable b d p.hi then
    match p.further with
    | none => return .inr none
    | some p => return .inl p
  else return .inr (some p)

def doubling : Until Fault Probe (Option Probe) where
  step := doubleStep b d
  measure p := 2 ^ 64 - p.hi
  decreases p q h := by
    have hlt := p.lo_lt
    unfold doubleStep at h
    obtain ⟨more, -, h⟩ := exec_bind_ok h
    split_ifs at h
    · unfold Probe.further at h
      split_ifs at h with hword
      · cases h
        dsimp only
        omega
      · cases h
    · cases h

def halfStep (p : Probe) : Exec (Probe ⊕ ℕ) :=
  if h : SECTOR < p.hi - p.lo then do
    return .inl (if ← readable b d p.mid then p.upper h else p.lower h)
  else return .inr p.lo

def halving : Until Fault Probe ℕ where
  step := halfStep b d
  measure p := p.hi - p.lo
  decreases p q h := by
    unfold halfStep at h
    split_ifs at h with hfar
    · obtain ⟨more, -, h⟩ := exec_bind_ok h
      obtain ⟨hlo, hhi⟩ := Probe.mid_between hfar
      cases h
      split_ifs
      · exact Nat.sub_lt_sub_left (hlo.trans hhi) hlo
      · exact Nat.sub_lt_sub_right hlo.le hhi
    · cases h

def probeSize : Exec ℕ := do
  if ← readable b d 0 then
    match ← (doubling b d).eval Probe.start with
    | none => return 0
    | some p =>
      let lo ← (halving b d).eval p
      plus b lo (← readAt b d lo SECTOR).length
  else return 0

end Search

/-- A sector answers: it is read, and the read behind the end of the device finds nothing. -/
def Device.Answers (d : Device) (k : ℕ) : Prop :=
  d.fails (SECTOR * k) SECTOR = false ∧
    (d.size < SECTOR * (k + 1) → d.fails d.size (SECTOR * (k + 1) - d.size) = false)

instance (d : Device) (k : ℕ) : Decidable (d.Answers k) := by
  unfold Device.Answers
  infer_instance

/-- A sector of the device that answers. -/
def Device.ok (d : Device) (k : ℕ) : Bool := SECTOR * k < d.size ∧ d.Answers k

/-- The last sector. -/
def Device.last (d : Device) : ℕ := (d.size - 1) / SECTOR

section Reads

variable {b : Build} {d : Device} {k : ℕ}

theorem Device.ok_beyond {m : ℕ} (hsize : 0 < d.size) (hm : d.last < m) : d.ok m = false := by
  have hsector : SECTOR = 512 := rfl
  have hend : ¬ SECTOR * m < d.size := by
    unfold last at hm
    rw [hsector] at hm ⊢
    omega
  simp [ok, hend]

/-- A read of a sector that answers has what is left of the device. -/
theorem readAt_ok (hk : SECTOR * k + SECTOR ≤ 2 ^ 64) (hok : d.ok k = true) :
    readAt b d (SECTOR * k) SECTOR = .ok (window d.data (SECTOR * k) SECTOR) := by
  have hsector : SECTOR = 512 := rfl
  obtain ⟨hinside, hread, hbehind⟩ := of_decide_eq_true hok
  have hlength : (window d.data (SECTOR * k) SECTOR).length = min SECTOR (d.size - SECTOR * k) := length_window _ _ _
  have hne : window d.data (SECTOR * k) SECTOR ≠ [] := by
    refine List.ne_nil_of_length_pos ?_
    omega
  have hfirst : (filling b d (SECTOR * k) SECTOR).step [] = .ok (.inl (window d.data (SECTOR * k) SECTOR)) := by
    change fillStep b d (SECTOR * k) SECTOR [] = _
    unfold fillStep
    rw [List.length_nil, if_pos (by decide), plus_eq (by omega), exec_ok_bind, Nat.add_zero, Nat.sub_zero,
      Device.readAtOnce, if_neg (by simp [hread]), exec_ok_bind, if_neg hne]
    rfl
  unfold readAt
  rw [Until.eval_next hfirst]
  refine Until.eval_done ?_
  change fillStep b d (SECTOR * k) SECTOR _ = _
  unfold fillStep
  by_cases hfull : SECTOR ≤ d.size - SECTOR * k
  · rw [if_neg (by omega)]
    rfl
  · have hplace : SECTOR * k + (window d.data (SECTOR * k) SECTOR).length = d.size := by omega
    have hrest : SECTOR - (window d.data (SECTOR * k) SECTOR).length = SECTOR * (k + 1) - d.size := by
      rw [Nat.mul_succ]
      omega
    have hnone : window d.data d.size (SECTOR * (k + 1) - d.size) = [] := by
      rw [window, Device.size, List.drop_length, List.take_nil]
    have hend := hbehind (by rw [Nat.mul_succ]; omega)
    rw [if_pos (by omega), plus_eq (by omega), exec_ok_bind, hplace, hrest, Device.readAtOnce, if_neg (by simp [hend]),
      exec_ok_bind, if_pos hnone]
    rfl

/-- A sector that does not answer is not read, or empty. -/
theorem readAt_not_ok (hk : SECTOR * k + SECTOR ≤ 2 ^ 64) (hok : d.ok k = false) :
    readAt b d (SECTOR * k) SECTOR = .ok [] ∨ readAt b d (SECTOR * k) SECTOR = .error .io := by
  have hsector : SECTOR = 512 := rfl
  have hstart : fillStep b d (SECTOR * k) SECTOR [] = (do
      let bytes ← d.readAtOnce (SECTOR * k) SECTOR
      return if bytes = [] then .inr [] else .inl ([] ++ bytes)) := by
    unfold fillStep
    rw [List.length_nil, if_pos (by decide), plus_eq (by omega), exec_ok_bind, Nat.add_zero, Nat.sub_zero]
  unfold readAt
  by_cases hread : d.fails (SECTOR * k) SECTOR = true
  · refine .inr (Until.eval_error ?_)
    change fillStep b d (SECTOR * k) SECTOR [] = _
    rw [hstart, Device.readAtOnce, if_pos hread]
    rfl
  by_cases hinside : SECTOR * k < d.size
  · have hbehind : d.size < SECTOR * (k + 1) ∧ d.fails d.size (SECTOR * (k + 1) - d.size) = true := by
      by_contra hno
      refine absurd hok ?_
      rw [Bool.not_eq_false]
      refine decide_eq_true ⟨hinside, Bool.eq_false_iff.mpr hread, fun hshort => ?_⟩
      exact Bool.eq_false_iff.mpr fun hfail => hno ⟨hshort, hfail⟩
    have hlength : (window d.data (SECTOR * k) SECTOR).length = d.size - SECTOR * k := by
      rw [length_window, Nat.mul_succ] at *
      unfold Device.size at *
      omega
    have hne : window d.data (SECTOR * k) SECTOR ≠ [] := List.ne_nil_of_length_pos (by omega)
    have hfirst : (filling b d (SECTOR * k) SECTOR).step [] = .ok (.inl (window d.data (SECTOR * k) SECTOR)) := by
      change fillStep b d (SECTOR * k) SECTOR [] = _
      rw [hstart, Device.readAtOnce, if_neg hread, exec_ok_bind, if_neg hne]
      rfl
    have hplace : SECTOR * k + (window d.data (SECTOR * k) SECTOR).length = d.size := by omega
    have hrest : SECTOR - (window d.data (SECTOR * k) SECTOR).length = SECTOR * (k + 1) - d.size := by
      rw [Nat.mul_succ]
      omega
    rw [Until.eval_next hfirst]
    refine .inr (Until.eval_error ?_)
    change fillStep b d (SECTOR * k) SECTOR _ = _
    unfold fillStep
    rw [if_pos (by rw [Nat.mul_succ] at hbehind; omega), plus_eq (by omega), exec_ok_bind, hplace, hrest,
      Device.readAtOnce, if_pos hbehind.2]
    rfl
  · refine .inl (Until.eval_done ?_)
    have hnone : window d.data (SECTOR * k) SECTOR = [] := by
      rw [window, List.drop_eq_nil_of_le (not_lt.mp hinside), List.take_nil]
    change fillStep b d (SECTOR * k) SECTOR [] = _
    rw [hstart, Device.readAtOnce, if_neg hread, exec_ok_bind, if_pos hnone]
    rfl

theorem readable_eq (hk : SECTOR * k + SECTOR ≤ 2 ^ 64) : readable b d (SECTOR * k) = .ok (d.ok k) := by
  have hsector : SECTOR = 512 := rfl
  unfold readable
  cases hok : d.ok k with
  | true =>
    obtain ⟨hinside, -⟩ := of_decide_eq_true hok
    have hne : window d.data (SECTOR * k) SECTOR ≠ [] := by
      refine List.ne_nil_of_length_pos ?_
      rw [length_window]
      unfold Device.size at hinside
      omega
    rw [readAt_ok hk hok]
    exact congrArg Except.ok (decide_eq_true hne)
  | false =>
    obtain hread | hread := readAt_not_ok (b := b) hk hok <;> rw [hread] <;> rfl

/-- What doubling has come to at a power. -/
def probeAt (i : ℕ) : Probe where
  lo := SECTOR * half i
  hi := SECTOR * 2 ^ i
  lo_lt := Nat.mul_lt_mul_of_pos_left (half_lt i) (by decide)
  lo_dvd := Dvd.intro _ rfl
  hi_dvd := Dvd.intro _ rfl

theorem power_lt {n i : ℕ} (h : Stops d.ok n) (hsize : d.size ≤ 2 ^ 62) (hi : i ≤ n) : SECTOR * 2 ^ i < 2 ^ 63 := by
  have hsector : SECTOR = 512 := rfl
  cases i with
  | zero => decide
  | succ i =>
    obtain ⟨hinside, -⟩ := of_decide_eq_true (h.before i hi)
    rw [hsector] at hinside ⊢
    rw [Nat.pow_succ]
    omega

theorem eval_doubling {n : ℕ} (h : Stops d.ok n) (hsize : d.size ≤ 2 ^ 62) :
    (doubling b d).eval (probeAt 0) = .ok (some (probeAt n)) := by
  have hsector : SECTOR = 512 := rfl
  have hread : ∀ i ≤ n, readable b d (probeAt i).hi = .ok (d.ok (2 ^ i)) := by
    intro i hi
    have hlt := power_lt h hsize hi
    exact readable_eq (by omega)
  have hreach : ∀ i ≤ n, (doubling b d).eval (probeAt 0) = (doubling b d).eval (probeAt i) := by
    intro i hi
    induction i with
    | zero => rfl
    | succ i ih =>
      have hlt := power_lt h hsize hi
      have hnext : (probeAt i).hi * 2 = SECTOR * 2 ^ (i + 1) := by rw [probeAt, Nat.pow_succ, Nat.mul_assoc]
      have hfurther : (probeAt i).further = some (probeAt (i + 1)) := by
        unfold Probe.further
        rw [if_pos (by omega), Option.some.injEq]
        exact Probe.ext rfl hnext
      rw [ih (Nat.le_of_succ_le hi)]
      refine Until.eval_next ?_
      change doubleStep b d (probeAt i) = _
      unfold doubleStep
      rw [hread i (Nat.le_of_succ_le hi), h.before i hi, exec_ok_bind, if_pos rfl, hfurther]
      rfl
  rw [hreach n le_rfl]
  refine Until.eval_done ?_
  change doubleStep b d (probeAt n) = _
  unfold doubleStep
  rw [hread n le_rfl, h.stop, exec_ok_bind, if_neg (by decide)]
  rfl

theorem eval_halving {a k : ℕ} {p : Probe} (hlo : p.lo = SECTOR * a) (hhi : p.hi = SECTOR * (a + 2 ^ k))
    (hbound : p.hi < 2 ^ 63) : (halving b d).eval p = .ok (SECTOR * halve d.ok a k) := by
  have hsector : SECTOR = 512 := rfl
  induction k generalizing a p with
  | zero =>
    refine Until.eval_done ?_
    change halfStep b d p = _
    unfold halfStep
    rw [Nat.pow_zero, Nat.mul_succ] at hhi
    rw [dif_neg (by omega), hlo]
    rfl
  | succ k ih =>
    have hpos := Nat.two_pow_pos k
    have hpow : 2 ^ (k + 1) = 2 ^ k + 2 ^ k := by rw [Nat.pow_succ, Nat.mul_two]
    have hfar : SECTOR < p.hi - p.lo := by
      rw [hpow, hsector] at hhi
      rw [hsector] at hlo ⊢
      omega
    have hmid : p.mid = SECTOR * (a + 2 ^ k) := by
      rw [hpow, hsector] at hhi
      rw [hsector] at hlo
      unfold Probe.mid
      rw [hsector]
      omega
    have hbetween := Probe.mid_between hfar
    have hread : readable b d p.mid = .ok (d.ok (a + 2 ^ k)) := by
      rw [hmid]
      exact readable_eq (by omega)
    have hstep : (halving b d).step p = .ok (.inl (if d.ok (a + 2 ^ k) then p.upper hfar else p.lower hfar)) := by
      change halfStep b d p = _
      unfold halfStep
      rw [dif_pos hfar, hread]
      rfl
    rw [Until.eval_next hstep, halve]
    split_ifs with hok
    · exact ih hmid (by rw [Probe.upper, hhi, hpow, Nat.add_assoc]) hbound
    · exact ih hlo hmid (hbetween.2.trans hbound)

/-- The search ends behind the sector that doubling and halving find. -/
theorem probeSize_eq {n : ℕ} (h : Stops d.ok n) (hsize : d.size ≤ 2 ^ 62) (hfirst : d.ok 0 = true) :
    probeSize b d = .ok (min (SECTOR * found d.ok n + SECTOR) d.size) := by
  have hsector : SECTOR = 512 := rfl
  have hfound := found_ok h hfirst
  obtain ⟨hinside, -⟩ := of_decide_eq_true hfound
  have hlo : (halving b d).eval (probeAt n) = .ok (SECTOR * found d.ok n) :=
    eval_halving rfl (by rw [half_add]; rfl) (power_lt h hsize le_rfl)
  have hlength : (window d.data (SECTOR * found d.ok n) SECTOR).length = min SECTOR (d.size - SECTOR * found d.ok n) :=
    length_window _ _ _
  have hstart : readable b d 0 = .ok true := by
    rw [← hfirst]
    exact readable_eq (k := 0) (by decide)
  unfold probeSize
  rw [hstart, exec_ok_bind, if_pos rfl]
  change ((doubling b d).eval (probeAt 0) >>= _) = _
  rw [eval_doubling h hsize, exec_ok_bind]
  dsimp only
  rw [hlo, exec_ok_bind, readAt_ok (by omega) hfound, exec_ok_bind, hlength, plus_eq (by omega)]
  congr 1
  omega

end Reads

/-- The size is found exactly when every sector answers whose number is a power of two, and every one
whose number has the leading digits of that of the last sector, and zeros behind them. -/
theorem probe_size_iff (b : Build) (d : Device) (hpos : 0 < d.size) (hsize : d.size ≤ 2 ^ 62) :
    probeSize b d = .ok d.size ↔
      (∀ i, 2 ^ i ≤ d.last → d.Answers (2 ^ i)) ∧ ∀ i, d.Answers (d.last / 2 ^ i * 2 ^ i) := by
  have hsector : SECTOR = 512 := rfl
  have hlast : SECTOR * d.last < d.size ∧ d.size ≤ SECTOR * d.last + SECTOR := by
    unfold Device.last
    rw [hsector]
    omega
  have hanswers : ∀ k ≤ d.last, d.ok k = true ↔ d.Answers k := by
    intro k hk
    have hinside : SECTOR * k < d.size := (Nat.mul_le_mul_left _ hk).trans_lt hlast.1
    simp [Device.ok, hinside]
  have hcondition : ((∀ i, 2 ^ i ≤ d.last → d.ok (2 ^ i) = true) ∧ ∀ i, d.ok (d.last / 2 ^ i * 2 ^ i) = true) ↔
      (∀ i, 2 ^ i ≤ d.last → d.Answers (2 ^ i)) ∧ ∀ i, d.Answers (d.last / 2 ^ i * 2 ^ i) :=
    and_congr (forall₂_congr fun i hi => hanswers _ hi) (forall_congr' fun i => hanswers _ (Nat.div_mul_le_self _ _))
  rw [← hcondition]
  by_cases hfirst : d.ok 0 = true
  · have hend : ∀ m, d.last < m → d.ok m = false := fun m hm => d.ok_beyond hpos hm
    obtain ⟨n, hstops⟩ : ∃ n, Stops d.ok n := exists_stops hend
    have hiff : found d.ok n = d.last ↔ _ := found_eq_iff hstops hfirst hend
    have hfound := found_ok hstops hfirst
    obtain ⟨hinside, -⟩ := of_decide_eq_true hfound
    rw [probeSize_eq hstops hsize hfirst, Except.ok.injEq, ← hiff]
    rw [hsector] at hinside hlast ⊢
    omega
  · have hnone : probeSize b d = .ok 0 := by
      have hstart : readable b d 0 = .ok false := by
        rw [← Bool.eq_false_iff.mpr hfirst]
        exact readable_eq (k := 0) (by decide)
      unfold probeSize
      rw [hstart, exec_ok_bind, if_neg (by decide)]
      rfl
    rw [hnone, Except.ok.injEq]
    refine iff_of_false (by omega) fun h => hfirst ?_
    have hzero := h.2 d.last
    rwa [Nat.div_eq_of_lt Nat.lt_two_pow_self, Nat.zero_mul] at hzero

section Sample

/-- A device of six sectors and a part of another one, some of them damaged. -/
def wornDevice (bad : ℕ → Bool) : Device where
  data := List.replicate 3172 0x55
  fails off _ := bad (off / SECTOR)

theorem size_worn (bad : ℕ → Bool) : (wornDevice bad).size = 3172 := List.length_replicate

theorem last_worn (bad : ℕ → Bool) : (wornDevice bad).last = 6 := by
  rw [Device.last, size_worn]
  rfl

theorem answers_worn {bad : ℕ → Bool} (hlast : bad 6 = false) {k : ℕ} (hk : bad k = false) :
    (wornDevice bad).Answers k := by
  refine ⟨?_, fun _ => ?_⟩
  · change bad (SECTOR * k / SECTOR) = false
    rwa [Nat.mul_div_cancel_left k (by decide)]
  · change bad ((wornDevice bad).size / SECTOR) = false
    rw [size_worn]
    exact hlast

/-- The search does not come to the fourth and the sixth sector. -/
theorem worn_probe_size : probeSize .debug (wornDevice fun k => k = 3 ∨ k = 5) = .ok 3172 := by
  have hsize := size_worn fun k => k = 3 ∨ k = 5
  have hlast := last_worn fun k => k = 3 ∨ k = 5
  have hiff := probe_size_iff .debug (wornDevice fun k => k = 3 ∨ k = 5) (by rw [hsize]; decide)
    (by rw [hsize]; decide)
  have heven : ∀ i c, c * 2 ^ (i + 1) ≠ 3 ∧ c * 2 ^ (i + 1) ≠ 5 := by
    intro i c
    have hdouble : c * 2 ^ (i + 1) = 2 * (c * 2 ^ i) := by
      rw [Nat.pow_succ]
      ring
    omega
  rw [hsize, hlast] at hiff
  refine hiff.mpr ⟨fun i _ => ?_, fun i => ?_⟩
  · cases i with
    | zero => exact answers_worn rfl rfl
    | succ i =>
      have hodd := heven i 1
      rw [Nat.one_mul] at hodd
      exact answers_worn rfl (decide_eq_false fun h => h.elim hodd.1 hodd.2)
  · cases i with
    | zero => exact answers_worn rfl rfl
    | succ i => exact answers_worn rfl (decide_eq_false fun h => h.elim (heven i _).1 (heven i _).2)

theorem worn_found : Stops (wornDevice fun k => k = 4).ok 2 ∧ (wornDevice fun k => k = 4).ok 0 = true ∧
    found (wornDevice fun k => k = 4).ok 2 = 3 := by
  refine ⟨⟨?_, ?_⟩, ?_, ?_⟩ <;> decide +kernel

/-- The size of a device is cut when its fifth sector is damaged. -/
theorem worn_device_cut : ¬ ∀ (b : Build) (d : Device), 512 ≤ d.size → d.size ≤ 2 ^ 62 → d.Answers 0 →
    d.Answers d.last → probeSize b d = .ok d.size := by
  intro hall
  have hsize := size_worn fun k => k = 4
  have hlast := last_worn fun k => k = 4
  obtain ⟨hstops, hfirst, hfound⟩ := worn_found
  have hexact := hall .debug (wornDevice fun k => k = 4) (by rw [hsize]; decide) (by rw [hsize]; decide)
    (answers_worn rfl rfl) (by rw [hlast]; exact answers_worn rfl rfl)
  rw [probeSize_eq hstops (by rw [hsize]; decide) hfirst, hfound, hsize] at hexact
  cases hexact

end Sample

end Unearth.Probing
