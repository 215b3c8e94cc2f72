import Unearth.Lib.Calendar
import Unearth.Lib.Signed
import Unearth.Times

/-!
# Days and civil dates

The closed formulas count the days of the calendar: a year begins in March, so that the leap day is its
last one, and four hundred years are an era.
-/

namespace Unearth
open Word Signed Calendar

section Words

variable (b : Build)

/-- What a build makes of a sum or a product of words with a sign. -/
def int64 (x : ℤ) : Exec ℤ :=
  if InRange x then .ok x
  else match b with
    | .debug => .error .overflow
    | .release => .ok (toSigned (x % 2 ^ 64).toNat)

variable {b} in
theorem int64_eq {x : ℤ} (h : -2 ^ 63 ≤ x ∧ x < 2 ^ 63) : int64 b x = .ok x := if_pos h

/-- `daysFromCivil` in words of 64 bits. -/
def daysFromCivil64 (year m d : ℤ) : Exec ℤ := do
  let y ← int64 b (if m ≤ 2 then year - 1 else year)
  let era := (← int64 b (if 0 ≤ y then y else y - 399)).tdiv 400
  let yoe ← int64 b (y - (← int64 b (era * 400)))
  let mp ← int64 b (if 2 < m then m - 3 else m + 9)
  let doy ← int64 b ((← int64 b ((← int64 b (153 * mp)) + 2)).tdiv 5 + d)
  let doy ← int64 b (doy - 1)
  let doe ← int64 b ((← int64 b (yoe * 365)) + yoe.tdiv 4)
  let doe ← int64 b ((← int64 b (doe - yoe.tdiv 100)) + doy)
  let days ← int64 b ((← int64 b (era * 146097)) + doe)
  int64 b (days - 719468)

/-- The year, the month and the day of a number of days from the epoch. -/
def civilFromDays (days : ℤ) : ℤ × ℤ × ℤ :=
  let z := days + 719468
  let era := (if 0 ≤ z then z else z - 146096).tdiv 146097
  let doe := z - era * 146097
  let yoe := (doe - doe.tdiv 1460 + doe.tdiv 36524 - doe.tdiv 146096).tdiv 365
  let y := yoe + era * 400
  let doy := doe - (365 * yoe + yoe.tdiv 4 - yoe.tdiv 100)
  let mp := (5 * doy + 2).tdiv 153
  let d := doy - (153 * mp + 2).tdiv 5 + 1
  let m := if mp < 10 then mp + 3 else mp - 9
  (y + if m ≤ 2 then 1 else 0, m, d)

/-- The year of an era, from the day of it. -/
def yearOfEra64 (doe : ℤ) : Exec ℤ := do
  let yoe ← int64 b ((← int64 b (doe - doe.tdiv 1460)) + doe.tdiv 36524)
  return (← int64 b (yoe - doe.tdiv 146096)).tdiv 365

/-- The date, from the day of an era and the year of it. -/
def dateOfEra64 (era doe yoe : ℤ) : Exec (ℤ × ℤ × ℤ) := do
  let y ← int64 b (yoe + (← int64 b (era * 400)))
  let before ← int64 b ((← int64 b (365 * yoe)) + yoe.tdiv 4)
  let doy ← int64 b (doe - (← int64 b (before - yoe.tdiv 100)))
  let mp := (← int64 b ((← int64 b (5 * doy)) + 2)).tdiv 153
  let d ← int64 b (doy - (← int64 b ((← int64 b (153 * mp)) + 2)).tdiv 5)
  let d ← int64 b (d + 1)
  let m ← int64 b (if mp < 10 then mp + 3 else mp - 9)
  return (← int64 b (y + if m ≤ 2 then 1 else 0), m, d)

/-- `civilFromDays` in words of 64 bits. -/
def civilFromDays64 (days : ℤ) : Exec (ℤ × ℤ × ℤ) := do
  let z ← int64 b (days + 719468)
  let era := (← int64 b (if 0 ≤ z then z else z - 146096)).tdiv 146097
  let doe ← int64 b (z - (← int64 b (era * 146097)))
  dateOfEra64 b era doe (← yearOfEra64 b doe)

end Words

section Formula

/-- The year that begins in March, and its number of months before one. -/
def marchYear (year m : ℤ) : ℤ := if m ≤ 2 then year - 1 else year

def marchMonth (m : ℤ) : ℤ := if 2 < m then m - 3 else m + 9

/-- The days of an era before a year of it. -/
def eraDays (y : ℤ) : ℤ := 365 * y + y / 4 - y / 100

theorem tdiv_400 (y : ℤ) : (if 0 ≤ y then y else y - 399).tdiv 400 = y / 400 := by
  have hsign : Int.sign 400 = 1 := rfl
  split_ifs with h
  · exact Int.tdiv_eq_ediv_of_nonneg h
  · rw [Int.tdiv_eq_ediv]
    omega

theorem tdiv_146097 (z : ℤ) : (if 0 ≤ z then z else z - 146096).tdiv 146097 = z / 146097 := by
  have hsign : Int.sign 146097 = 1 := rfl
  split_ifs with h
  · exact Int.tdiv_eq_ediv_of_nonneg h
  · rw [Int.tdiv_eq_ediv]
    omega

theorem marchMonth_range {m : ℤ} (hm : 1 ≤ m ∧ m ≤ 12) : 0 ≤ marchMonth m ∧ marchMonth m ≤ 11 := by
  unfold marchMonth
  split_ifs <;> omega

theorem daysFromCivil_eq (year : ℤ) {m : ℤ} (hm : 1 ≤ m ∧ m ≤ 12) (d : ℤ) :
    daysFromCivil year m d = marchYear year m / 400 * 146097 + eraDays (marchYear year m % 400) +
      (153 * marchMonth m + 2) / 5 + d - 719469 := by
  obtain ⟨hmonth, -⟩ := marchMonth_range hm
  unfold daysFromCivil eraDays marchYear
  unfold marchMonth at hmonth ⊢
  generalize (if m ≤ 2 then year - 1 else year) = y
  generalize (if 2 < m then m - 3 else m + 9) = mp at hmonth ⊢
  dsimp only
  have hyoe : y - y / 400 * 400 = y % 400 := by omega
  have hrange : 0 ≤ y % 400 := by omega
  rw [tdiv_400, hyoe, Int.tdiv_eq_ediv_of_nonneg hrange, Int.tdiv_eq_ediv_of_nonneg hrange,
    Int.tdiv_eq_ediv_of_nonneg (by omega)]
  omega

/-- The days before a year that begins in March. -/
theorem eraDays_add (y : ℤ) : y / 400 * 146097 + eraDays (y % 400) = 365 * y + y / 4 - y / 100 + y / 400 := by
  unfold eraDays
  omega

theorem days_monthEnd (year : ℤ) {m : ℤ} (hm : 1 ≤ m ∧ m < 12) :
    daysFromCivil year (m + 1) 1 = daysFromCivil year m (monthDays year m) + 1 := by
  rw [daysFromCivil_eq year (by omega), daysFromCivil_eq year (by omega), eraDays_add, eraDays_add]
  unfold marchYear marchMonth monthDays Leap
  obtain ⟨hlow, hhigh⟩ := hm
  by_cases hfebruary : m = 2
  · subst hfebruary
    norm_num
    split_ifs <;> omega
  · interval_cases m <;> simp at hfebruary <;> norm_num <;> omega

theorem days_yearEnd (year : ℤ) : daysFromCivil (year + 1) 1 1 = daysFromCivil year 12 (monthDays year 12) + 1 := by
  have hsame : marchYear (year + 1) 1 = marchYear year 12 := add_sub_cancel_right _ _
  have hdays : monthDays year 12 = 31 := rfl
  rw [daysFromCivil_eq _ (by decide), daysFromCivil_eq _ (by decide), hsame, hdays]
  change _ + (153 * 10 + 2) / 5 + 1 - 719469 = _ + (153 * 9 + 2) / 5 + 31 - 719469 + 1
  omega

/-- The day after a date is one day later. -/
theorem days_tomorrow (d : Date) : daysFromCivil (tomorrow d).year (tomorrow d).month (tomorrow d).day =
    daysFromCivil d.year d.month d.day + 1 := by
  have hmonth := d.month_range
  change daysFromCivil d.next.year d.next.month d.next.day = _
  by_cases h : d.day < monthDays d.year d.month
  · obtain ⟨hy, hm, hd⟩ := Date.next_within h
    rw [hy, hm, hd, daysFromCivil_eq _ hmonth, daysFromCivil_eq _ hmonth]
    omega
  rw [Date.eq_last h]
  by_cases hm : d.month < 12
  · rw [Date.next_last d.month_range hm]
    exact days_monthEnd d.year ⟨hmonth.1, hm⟩
  · rw [Date.december d.month_range hm, Date.next_december]
    exact days_yearEnd d.year

/-- In an era the year is known from the day. -/
theorem yearOfEra_eq {Y D : ℤ} (hY : 0 ≤ Y ∧ Y < 400) (hD : 0 ≤ D ∧ D ≤ 365)
    (hleap : D = 365 → Leap (Y + 1)) {N : ℤ} (hN : N = eraDays Y + D) :
    (N - N / 1460 + N / 36524 - N / 146096) / 365 = Y := by
  unfold eraDays at hN
  unfold Leap at hleap
  have hcentury : 0 ≤ Y / 100 ∧ Y / 100 ≤ 3 := by omega
  have hsplit : N = 36524 * (Y / 100) + (365 * (Y % 100) + Y % 100 / 4 + D) := by omega
  have hrest : 0 ≤ 365 * (Y % 100) + Y % 100 / 4 + D ∧ 365 * (Y % 100) + Y % 100 / 4 + D ≤ 36524 ∧
      (365 * (Y % 100) + Y % 100 / 4 + D = 36524 → Y / 100 = 3) := by
    by_cases hlast : D = 365
    · have := hleap hlast
      omega
    · omega
  have hcenturies : N / 36524 = Y / 100 + N / 146096 := by
    generalize 365 * (Y % 100) + Y % 100 / 4 + D = rest at hsplit hrest
    generalize Y / 100 = century at hcentury hsplit hrest ⊢
    obtain hend | hend : rest = 36524 ∨ rest < 36524 := by omega
    · omega
    · have hzero : N / 146096 = 0 := by omega
      omega
  have hcycles : N / 1460 = Y / 4 + if 1460 ≤ Y / 4 - Y / 100 + 365 * (Y % 4) + D then 1 else 0 := by
    split_ifs with h <;> omega
  rw [hcycles, hcenturies]
  split_ifs with h <;> omega

/-- The date of a day of a year that begins in March. -/
def ofMarch (y doy : ℤ) : ℤ × ℤ × ℤ :=
  let mp := (5 * doy + 2) / 153
  let m := if mp < 10 then mp + 3 else mp - 9
  (y + if m ≤ 2 then 1 else 0, m, doy - (153 * mp + 2) / 5 + 1)

theorem eraDays_range {Y D : ℤ} (hY : 0 ≤ Y ∧ Y < 400) (hD : 0 ≤ D ∧ D ≤ 365) :
    0 ≤ eraDays Y + D ∧ eraDays Y + D < 146097 := by
  unfold eraDays
  omega

theorem civilFromDays_eq {era Y D : ℤ} (hY : 0 ≤ Y ∧ Y < 400) (hD : 0 ≤ D ∧ D ≤ 365) (hleap : D = 365 → Leap (Y + 1)) :
    civilFromDays (era * 146097 + (eraDays Y + D) - 719468) = ofMarch (Y + era * 400) D := by
  obtain ⟨hlow, hhigh⟩ := eraDays_range hY hD
  have hyear := yearOfEra_eq hY hD hleap rfl
  have hera : (era * 146097 + (eraDays Y + D)) / 146097 = era := by omega
  have hdoy : eraDays Y + D - (365 * Y + Y / 4 - Y / 100) = D := by
    unfold eraDays
    omega
  unfold civilFromDays ofMarch
  dsimp only
  rw [sub_add_cancel, tdiv_146097, hera, add_sub_cancel_left, Int.tdiv_eq_ediv_of_nonneg hlow,
    Int.tdiv_eq_ediv_of_nonneg hlow, Int.tdiv_eq_ediv_of_nonneg hlow, Int.tdiv_eq_ediv_of_nonneg (by omega), hyear,
    Int.tdiv_eq_ediv_of_nonneg hY.1, Int.tdiv_eq_ediv_of_nonneg hY.1, hdoy, Int.tdiv_eq_ediv_of_nonneg (by omega),
    Int.tdiv_eq_ediv_of_nonneg (by omega)]

/-- A day of a month, as a day of the year that begins in March. -/
theorem month_of_day {year m d : ℤ} (hm : 1 ≤ m ∧ m ≤ 12) (hd : 1 ≤ d ∧ d ≤ monthDays year m) :
    (5 * ((153 * marchMonth m + 2) / 5 + (d - 1)) + 2) / 153 = marchMonth m := by
  unfold monthDays at hd
  unfold marchMonth
  obtain ⟨hlow, hhigh⟩ := hm
  interval_cases m <;> norm_num at hd ⊢ <;> omega

/-- The leap day is the last one. -/
theorem day_le {year m d : ℤ} (hm : 1 ≤ m ∧ m ≤ 12) (hd : 1 ≤ d ∧ d ≤ monthDays year m) :
    (153 * marchMonth m + 2) / 5 + (d - 1) ≤ 365 ∧
      ((153 * marchMonth m + 2) / 5 + (d - 1) = 365 → Leap (marchYear year m % 400 + 1)) := by
  unfold monthDays at hd
  unfold marchMonth marchYear
  unfold Leap at hd ⊢
  obtain ⟨hlow, hhigh⟩ := hm
  by_cases hfebruary : m = 2
  · subst hfebruary
    norm_num at hd ⊢
    split_ifs at hd <;> omega
  · rw [if_neg hfebruary] at hd
    interval_cases m <;> simp at hfebruary <;> norm_num at hd ⊢ <;> omega

theorem ofMarch_date {year m d : ℤ} (hm : 1 ≤ m ∧ m ≤ 12) (hd : 1 ≤ d ∧ d ≤ monthDays year m) :
    ofMarch (marchYear year m) ((153 * marchMonth m + 2) / 5 + (d - 1)) = (year, m, d) := by
  have hmonth : (if marchMonth m < 10 then marchMonth m + 3 else marchMonth m - 9) = m := by
    unfold marchMonth
    split_ifs <;> omega
  have hyear : (marchYear year m + if m ≤ 2 then 1 else 0) = year := by
    unfold marchYear
    split_ifs <;> omega
  unfold ofMarch
  dsimp only
  rw [month_of_day hm hd, hmonth, hyear, add_sub_cancel_left, sub_add_cancel]

/-- The date of the number of days of a date is that date. -/
theorem civilFromDays_days (d : Date) :
    civilFromDays (daysFromCivil d.year d.month d.day) = (d.year, d.month, d.day) := by
  have hmonth := marchMonth_range d.month_range
  have hday := d.day_range
  have hsplit : marchYear d.year d.month % 400 + marchYear d.year d.month / 400 * 400 = marchYear d.year d.month := by
    omega
  have hleap := day_le d.month_range hday
  have hdays : daysFromCivil d.year d.month d.day = marchYear d.year d.month / 400 * 146097 +
      (eraDays (marchYear d.year d.month % 400) + ((153 * marchMonth d.month + 2) / 5 + (d.day - 1))) - 719468 := by
    rw [daysFromCivil_eq _ d.month_range]
    omega
  rw [hdays, civilFromDays_eq (by omega) ⟨by omega, hleap.1⟩ hleap.2, hsplit, ofMarch_date d.month_range hday]

theorem january_range : (1 : ℤ) ≤ 1 ∧ (1 : ℤ) ≤ 12 := by decide

def epoch : Date := .first 1970 1 january_range

theorem days_injective : Function.Injective fun d : Date => daysFromCivil d.year d.month d.day := by
  intro d e h
  have hsame := (civilFromDays_days d).symm.trans ((congrArg civilFromDays h).trans (civilFromDays_days e))
  simp only [Prod.mk.injEq] at hsame
  exact Date.ext hsame.1 hsame.2.1 hsame.2.2

/-- A date is its number of days after the epoch. -/
theorem days_since (d : Date) : (tomorrow ^ daysFromCivil d.year d.month d.day) epoch = d :=
  zpow_eq days_tomorrow days_injective rfl d

theorem days_after (n : ℤ) : daysFromCivil ((tomorrow ^ n) epoch).year ((tomorrow ^ n) epoch).month
    ((tomorrow ^ n) epoch).day = n :=
  (zpow_count (f := fun d : Date => daysFromCivil d.year d.month d.day) days_tomorrow n epoch).trans (zero_add n)

end Formula

section Range

variable {b : Build}

theorem int64_bind {α : Type} {x : ℤ} (h : -2 ^ 63 ≤ x ∧ x < 2 ^ 63) (f : ℤ → Exec α) : int64 b x >>= f = f x := by
  rw [int64_eq h, exec_ok_bind]

theorem tdiv_range {x B : ℤ} (h : -B ≤ x ∧ x ≤ B) (n : ℤ) : -B ≤ x.tdiv n ∧ x.tdiv n ≤ B := by
  have hle := Int.natAbs_tdiv_le_natAbs x n
  omega

/-- No word overflows on a date within a billion years, by far. -/
theorem daysFromCivil64_eq {year m d : ℤ} (hyear : -10 ^ 12 ≤ year ∧ year ≤ 10 ^ 12) (hm : 1 ≤ m ∧ m ≤ 12)
    (hd : 1 ≤ d ∧ d ≤ 31) : daysFromCivil64 b year m d = .ok (daysFromCivil year m d) := by
  unfold daysFromCivil64 daysFromCivil
  rw [int64_bind (by split_ifs <;> omega)]
  dsimp only
  have hy : -2 ^ 40 ≤ (if m ≤ 2 then year - 1 else year) ∧ (if m ≤ 2 then year - 1 else year) ≤ 2 ^ 40 := by
    split_ifs <;> omega
  generalize (if m ≤ 2 then year - 1 else year) = y at hy ⊢
  rw [int64_bind (by split_ifs <;> omega), tdiv_400]
  have hera : -2 ^ 40 ≤ y / 400 ∧ y / 400 ≤ 2 ^ 40 := by omega
  have hyoe : -400 ≤ y - y / 400 * 400 ∧ y - y / 400 * 400 ≤ 400 := by omega
  rw [int64_bind (by omega), int64_bind (by omega)]
  generalize y - y / 400 * 400 = yoe at hyoe ⊢
  generalize y / 400 = era at hera ⊢
  rw [int64_bind (by split_ifs <;> omega)]
  have hmp : 0 ≤ (if 2 < m then m - 3 else m + 9) ∧ (if 2 < m then m - 3 else m + 9) ≤ 14 := by
    split_ifs <;> omega
  generalize (if 2 < m then m - 3 else m + 9) = mp at hmp ⊢
  have hfive : -2144 ≤ (153 * mp + 2).tdiv 5 ∧ (153 * mp + 2).tdiv 5 ≤ 2144 := tdiv_range (by omega) 5
  have hfour := tdiv_range hyoe 4
  have hhundred := tdiv_range hyoe 100
  rw [int64_bind (by omega), int64_bind (by omega), int64_bind (by omega), int64_bind (by omega),
    int64_bind (by omega), int64_bind (by omega), int64_bind (by omega), int64_bind (by omega),
    int64_bind (by omega), int64_bind (by omega)]
  exact int64_eq (by omega)

theorem yearOfEra64_eq {doe : ℤ} (hdoe : -146097 ≤ doe ∧ doe ≤ 146097) :
    yearOfEra64 b doe = .ok ((doe - doe.tdiv 1460 + doe.tdiv 36524 - doe.tdiv 146096).tdiv 365) := by
  have h1460 := tdiv_range hdoe 1460
  have h36524 := tdiv_range hdoe 36524
  have h146096 := tdiv_range hdoe 146096
  unfold yearOfEra64
  rw [int64_bind (by omega), int64_bind (by omega), int64_bind (by omega)]
  rfl

theorem dateOfEra64_eq {era doe yoe : ℤ} (hera : -2 ^ 50 ≤ era ∧ era ≤ 2 ^ 50) (hdoe : -2 ^ 20 ≤ doe ∧ doe ≤ 2 ^ 20)
    (hyoe : -2 ^ 20 ≤ yoe ∧ yoe ≤ 2 ^ 20) :
    let doy := doe - (365 * yoe + yoe.tdiv 4 - yoe.tdiv 100)
    let mp := (5 * doy + 2).tdiv 153
    let m := if mp < 10 then mp + 3 else mp - 9
    dateOfEra64 b era doe yoe =
      .ok (yoe + era * 400 + if m ≤ 2 then 1 else 0, m, doy - (153 * mp + 2).tdiv 5 + 1) := by
  have hfour := tdiv_range hyoe 4
  have hhundred := tdiv_range hyoe 100
  dsimp only
  unfold dateOfEra64
  rw [int64_bind (by omega), int64_bind (by omega), int64_bind (by omega), int64_bind (by omega),
    int64_bind (by omega), int64_bind (by omega)]
  have hy : -2 ^ 60 ≤ yoe + era * 400 ∧ yoe + era * 400 ≤ 2 ^ 60 := by omega
  have hdoy : -2 ^ 30 ≤ doe - (365 * yoe + yoe.tdiv 4 - yoe.tdiv 100) ∧
      doe - (365 * yoe + yoe.tdiv 4 - yoe.tdiv 100) ≤ 2 ^ 30 := by omega
  generalize yoe + era * 400 = y at hy ⊢
  generalize doe - (365 * yoe + yoe.tdiv 4 - yoe.tdiv 100) = doy at hdoy ⊢
  clear hfour hhundred hyoe hdoe hera
  rw [int64_bind (by omega), int64_bind (by omega)]
  have hmp : -2 ^ 40 ≤ (5 * doy + 2).tdiv 153 ∧ (5 * doy + 2).tdiv 153 ≤ 2 ^ 40 := tdiv_range (by omega) 153
  generalize (5 * doy + 2).tdiv 153 = mp at hmp ⊢
  have hfive : -2 ^ 50 ≤ (153 * mp + 2).tdiv 5 ∧ (153 * mp + 2).tdiv 5 ≤ 2 ^ 50 := tdiv_range (by omega) 5
  dsimp only
  rw [int64_bind (by omega), int64_bind (by omega), int64_bind (by omega), int64_bind (by omega),
    int64_bind (by split_ifs <;> omega), int64_bind (by split_ifs <;> omega)]
  rfl

theorem civilFromDays64_eq {days : ℤ} (hdays : -10 ^ 15 ≤ days ∧ days ≤ 10 ^ 15) :
    civilFromDays64 b days = .ok (civilFromDays days) := by
  have hera := tdiv_146097 (days + 719468)
  unfold civilFromDays64 civilFromDays
  rw [int64_bind (by omega)]
  dsimp only
  have hz : -2 ^ 60 ≤ days + 719468 ∧ days + 719468 ≤ 2 ^ 60 := by omega
  generalize days + 719468 = z at hera hz ⊢
  rw [int64_bind (by split_ifs <;> omega), hera]
  have hdoe : -146097 ≤ z - z / 146097 * 146097 ∧ z - z / 146097 * 146097 ≤ 146097 := by omega
  have hbound : -2 ^ 50 ≤ z / 146097 ∧ z / 146097 ≤ 2 ^ 50 := by omega
  rw [int64_bind (by omega), int64_bind (by omega), yearOfEra64_eq hdoe, exec_ok_bind]
  generalize z - z / 146097 * 146097 = doe at hdoe ⊢
  have h1460 := tdiv_range hdoe 1460
  have h36524 := tdiv_range hdoe 36524
  have h146096 := tdiv_range hdoe 146096
  exact dateOfEra64_eq hbound (by omega) (tdiv_range (by omega) 365)

end Range

end Unearth
