import Mathlib

/-!
# The proleptic Gregorian calendar

Its dates, and the day that follows each: a permutation of them, so that one date is a whole number of
days after another.
-/

namespace Unearth.Calendar

def Leap (year : ℤ) : Prop := year % 4 = 0 ∧ (year % 100 ≠ 0 ∨ year % 400 = 0)

instance (year : ℤ) : Decidable (Leap year) := inferInstanceAs (Decidable (_ ∧ _))

def monthDays (year month : ℤ) : ℤ :=
  if month = 2 then if Leap year then 29 else 28
  else if month = 4 ∨ month = 6 ∨ month = 9 ∨ month = 11 then 30
  else 31

theorem monthDays_range (year month : ℤ) : 28 ≤ monthDays year month ∧ monthDays year month ≤ 31 := by
  unfold monthDays
  split_ifs <;> omega

@[ext]
structure Date where
  year : ℤ
  month : ℤ
  day : ℤ
  month_range : 1 ≤ month ∧ month ≤ 12
  day_range : 1 ≤ day ∧ day ≤ monthDays year month
  deriving DecidableEq

namespace Date

def first (year month : ℤ) (h : 1 ≤ month ∧ month ≤ 12) : Date where
  year := year
  month := month
  day := 1
  month_range := h
  day_range := ⟨le_rfl, (by decide : (1 : ℤ) ≤ 28).trans (monthDays_range year month).1⟩

def last (year month : ℤ) (h : 1 ≤ month ∧ month ≤ 12) : Date where
  year := year
  month := month
  day := monthDays year month
  month_range := h
  day_range := ⟨(by decide : (1 : ℤ) ≤ 28).trans (monthDays_range year month).1, le_rfl⟩

variable (d : Date)

def next : Date :=
  if h : d.day < monthDays d.year d.month then
    ⟨d.year, d.month, d.day + 1, d.month_range, by have := d.day_range; omega⟩
  else if hm : d.month < 12 then first d.year (d.month + 1) (by have := d.month_range; omega)
  else first (d.year + 1) 1 (by decide)

def previous : Date :=
  if h : 1 < d.day then ⟨d.year, d.month, d.day - 1, d.month_range, by have := d.day_range; omega⟩
  else if hm : 1 < d.month then last d.year (d.month - 1) (by have := d.month_range; omega)
  else last (d.year - 1) 12 (by decide)

variable {d}

theorem next_within (h : d.day < monthDays d.year d.month) :
    d.next.year = d.year ∧ d.next.month = d.month ∧ d.next.day = d.day + 1 := by
  rw [next, dif_pos h]
  exact ⟨rfl, rfl, rfl⟩

theorem next_last {year month : ℤ} (h : 1 ≤ month ∧ month ≤ 12) (hm : month < 12) :
    (last year month h).next = first year (month + 1) (by omega) := by
  have hlast : ¬ (last year month h).day < monthDays year month := lt_irrefl _
  exact (dif_neg hlast).trans (dif_pos hm)

theorem next_december (year : ℤ) : (last year 12 (by decide)).next = first (year + 1) 1 (by decide) := by
  have hlast : ¬ (last year 12 (by decide)).day < monthDays year 12 := lt_irrefl _
  exact (dif_neg hlast).trans (dif_neg (lt_irrefl 12))

theorem previous_first {year month : ℤ} (h : 1 ≤ month ∧ month ≤ 12) (hm : 1 < month) :
    (first year month h).previous = last year (month - 1) (by omega) := by
  have hfirst : ¬ 1 < (first year month h).day := lt_irrefl 1
  exact (dif_neg hfirst).trans (dif_pos hm)

theorem previous_january (year : ℤ) : (first year 1 (by decide)).previous = last (year - 1) 12 (by decide) := by
  have hfirst : ¬ 1 < (first year 1 (by decide)).day := lt_irrefl 1
  exact (dif_neg hfirst).trans (dif_neg (lt_irrefl 1))

theorem eq_last (h : ¬ d.day < monthDays d.year d.month) : d = last d.year d.month d.month_range :=
  Date.ext rfl rfl (le_antisymm d.day_range.2 (not_lt.mp h))

theorem eq_first (h : ¬ 1 < d.day) : d = first d.year d.month d.month_range :=
  Date.ext rfl rfl (le_antisymm (not_lt.mp h) d.day_range.1)

theorem december {year month : ℤ} (h : 1 ≤ month ∧ month ≤ 12) (hm : ¬ month < 12) :
    last year month h = last year 12 (by decide) := by
  obtain rfl : month = 12 := by omega
  rfl

theorem january {year month : ℤ} (h : 1 ≤ month ∧ month ≤ 12) (hm : ¬ 1 < month) :
    first year month h = first year 1 (by decide) := by
  obtain rfl : month = 1 := by omega
  rfl

theorem previous_next (d : Date) : d.next.previous = d := by
  have hmonth := d.month_range
  by_cases h : d.day < monthDays d.year d.month
  · obtain ⟨hy, hm, hd⟩ := next_within h
    have hday := d.day_range
    have hlater : 1 < d.next.day := by omega
    rw [previous, dif_pos hlater]
    exact Date.ext hy hm (by simp only [hd, add_sub_cancel_right])
  rw [eq_last h]
  by_cases hm : d.month < 12
  · rw [next_last d.month_range hm, previous_first _ (by omega)]
    simp only [add_sub_cancel_right]
  · rw [december d.month_range hm, next_december, previous_january]
    simp only [add_sub_cancel_right]

theorem next_previous (d : Date) : d.previous.next = d := by
  have hmonth := d.month_range
  by_cases h : 1 < d.day
  · have hday := d.day_range
    rw [previous, dif_pos h, next, dif_pos (show d.day - 1 < monthDays d.year d.month by omega)]
    exact Date.ext rfl rfl (sub_add_cancel _ _)
  rw [eq_first h]
  by_cases hm : 1 < d.month
  · rw [previous_first d.month_range hm, next_last _ (by omega)]
    simp only [sub_add_cancel]
  · rw [january d.month_range hm, previous_january, next_december]
    simp only [sub_add_cancel]

end Date

/-- A date goes to the one that follows it. -/
def tomorrow : Equiv.Perm Date := ⟨Date.next, Date.previous, Date.previous_next, Date.next_previous⟩

/-- A second of a day. -/
structure Moment where
  date : Date
  hour : ℕ
  min : ℕ
  sec : ℕ
  hour_lt : hour < 24
  min_lt : min < 60
  sec_lt : sec < 60

/-- A moment is so many seconds after the first one of a date. -/
def Moment.Since (e : Date) (m : Moment) (t : ℤ) : Prop :=
  ∃ n : ℤ, (tomorrow ^ n) e = m.date ∧ t = n * 86400 + m.hour * 3600 + m.min * 60 + m.sec

/-- What goes up by one with each step counts the steps. -/
theorem zpow_count {α : Type} {σ : Equiv.Perm α} {f : α → ℤ} (h : ∀ a, f (σ a) = f a + 1) (n : ℤ) (a : α) :
    f ((σ ^ n) a) = f a + n := by
  induction n using Int.induction_on with
  | zero => rw [zpow_zero, Equiv.Perm.one_apply, add_zero]
  | succ n ih => rw [add_comm (n : ℤ) 1, zpow_add, zpow_one, Equiv.Perm.mul_apply, h, ih, add_assoc, add_comm 1]
  | pred n ih =>
    have hstep := h ((σ ^ (-(n : ℤ) - 1)) a)
    rw [← Equiv.Perm.mul_apply, ← zpow_one_add, add_sub_cancel] at hstep
    omega

/-- Where a count tells all apart, it is the number of steps from where it is zero. -/
theorem zpow_eq {α : Type} {σ : Equiv.Perm α} {f : α → ℤ} (h : ∀ a, f (σ a) = f a + 1) (hinj : f.Injective) {e : α}
    (he : f e = 0) (a : α) : (σ ^ f a) e = a :=
  hinj (by rw [zpow_count h, he, zero_add])

end Unearth.Calendar
