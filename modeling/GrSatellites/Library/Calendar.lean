import Mathlib

/-!
# Dates and times

The proleptic Gregorian calendar from year 1 to year 9999, with times of the day down to the
microsecond. A moment is counted in microseconds, so that the difference of two moments is a
whole number.
-/

namespace GrSatellites.Calendar

/-- A leap year. -/
def isLeap (year : ℕ) : Bool := year % 4 = 0 ∧ (year % 100 ≠ 0 ∨ year % 400 = 0)

/-- The days of a month, from January as month 1. -/
def daysInMonth (leap : Bool) (month : ℕ) : ℕ :=
  if month = 2 then (if leap then 29 else 28)
  else if month = 4 ∨ month = 6 ∨ month = 9 ∨ month = 11 then 30
  else 31

/-- The days of a year before a month. -/
def daysBeforeMonth (leap : Bool) (month : ℕ) : ℕ :=
  ((List.range (month - 1)).map fun m => daysInMonth leap (m + 1)).sum

/-- The days before a year. -/
def daysBeforeYear (year : ℕ) : ℕ :=
  (year - 1) * 365 + (year - 1) / 4 - (year - 1) / 100 + (year - 1) / 400

/-- The parts of a date and time. -/
structure Parts where
  year : ℕ
  month : ℕ
  day : ℕ
  hour : ℕ
  minute : ℕ
  second : ℕ
  microsecond : ℕ
  deriving DecidableEq

/-- The calendar has a moment with these parts. -/
structure Parts.Valid (p : Parts) : Prop where
  year_mem : 1 ≤ p.year ∧ p.year ≤ 9999
  month_mem : 1 ≤ p.month ∧ p.month ≤ 12
  day_mem : 1 ≤ p.day ∧ p.day ≤ daysInMonth (isLeap p.year) p.month
  hour_lt : p.hour < 24
  minute_lt : p.minute < 60
  second_lt : p.second < 60
  microsecond_lt : p.microsecond < 10 ^ 6

instance (p : Parts) : Decidable p.Valid :=
  decidable_of_iff ((1 ≤ p.year ∧ p.year ≤ 9999) ∧ (1 ≤ p.month ∧ p.month ≤ 12) ∧
      (1 ≤ p.day ∧ p.day ≤ daysInMonth (isLeap p.year) p.month) ∧ p.hour < 24 ∧ p.minute < 60 ∧
      p.second < 60 ∧ p.microsecond < 10 ^ 6)
    ⟨fun ⟨hy, hm, hd, hh, hmin, hs, hus⟩ => ⟨hy, hm, hd, hh, hmin, hs, hus⟩,
      fun ⟨hy, hm, hd, hh, hmin, hs, hus⟩ => ⟨hy, hm, hd, hh, hmin, hs, hus⟩⟩

/-- A moment of the calendar. -/
structure DateTime extends Parts where
  valid : toParts.Valid

/-- The moment with the given parts, if there is one. -/
def DateTime.ofInts (year month day hour minute second microsecond : ℤ) : Option DateTime :=
  let p : Parts := ⟨year.toNat, month.toNat, day.toNat, hour.toNat, minute.toNat, second.toNat,
    microsecond.toNat⟩
  if h : (0 ≤ hour ∧ 0 ≤ minute ∧ 0 ≤ second ∧ 0 ≤ microsecond) ∧ p.Valid then some ⟨p, h.2⟩
  else none

namespace DateTime

variable (t : DateTime)

/-- The day of the year, from 1. -/
def dayOfYear : ℕ := daysBeforeMonth (isLeap t.year) t.month + t.day

/-- The day of the calendar, from 1. -/
def ordinal : ℕ := daysBeforeYear t.year + t.dayOfYear

/-- The microseconds since the day before the calendar starts. -/
def microseconds : ℕ :=
  (((t.ordinal * 24 + t.hour) * 60 + t.minute) * 60 + t.second) * 10 ^ 6 + t.microsecond

theorem dayOfYear_mem : 1 ≤ t.dayOfYear ∧ t.dayOfYear ≤ 366 := by
  have hyear : ∀ leap : Bool, ∀ month < 13,
      daysBeforeMonth leap month + daysInMonth leap month ≤ 366 := by decide
  have hmonth := hyear (isLeap t.year) t.month (Nat.lt_succ_of_le t.valid.month_mem.2)
  have hday := t.valid.day_mem
  unfold dayOfYear
  omega

theorem day_le : t.day ≤ 31 := by
  refine t.valid.day_mem.2.trans ?_
  unfold daysInMonth
  split_ifs <;> norm_num

theorem dayOfYear_le : t.dayOfYear ≤ if isLeap t.year then 366 else 365 := by
  have hyear : ∀ leap : Bool, ∀ month < 13,
      daysBeforeMonth leap month + daysInMonth leap month ≤ if leap then 366 else 365 := by decide
  have hmonth := hyear (isLeap t.year) t.month (Nat.lt_succ_of_le t.valid.month_mem.2)
  have hday := t.valid.day_mem
  unfold dayOfYear
  omega

/-- The calendar has 3652059 days. -/
theorem ordinal_mem : 1 ≤ t.ordinal ∧ t.ordinal ≤ 3652059 := by
  have hyear := t.valid.year_mem
  have hday := t.dayOfYear_mem
  have hlast := t.dayOfYear_le
  unfold ordinal daysBeforeYear
  split_ifs at hlast with hleap
  · simp only [isLeap, decide_eq_true_eq] at hleap
    omega
  · omega

theorem ordinal_lt : t.ordinal < 366 * 10000 := by
  have hlast := t.ordinal_mem
  omega

theorem microseconds_lt : t.microseconds < 366 * 10000 * 86400 * 10 ^ 6 := by
  have hday := t.ordinal_lt
  have hhour := t.valid.hour_lt
  have hminute := t.valid.minute_lt
  have hsecond := t.valid.second_lt
  have hmicrosecond := t.valid.microsecond_lt
  unfold microseconds
  omega

/-- A whole second. -/
theorem dvd_microseconds (h : t.microsecond = 0) : 10 ^ 6 ∣ t.microseconds := by
  rw [microseconds, h, add_zero]
  exact Nat.dvd_mul_left _ _

/-- The microseconds from a moment to another. -/
def since (t epoch : DateTime) : ℤ := t.microseconds - epoch.microseconds

/-- Two moments of the calendar are less than 2^39 seconds apart. -/
theorem abs_since_lt (epoch : DateTime) : |t.since epoch| < 366 * 10000 * 86400 * 10 ^ 6 := by
  have ht := t.microseconds_lt
  have hepoch := epoch.microseconds_lt
  unfold since
  rw [abs_lt]
  omega

end DateTime

end GrSatellites.Calendar
