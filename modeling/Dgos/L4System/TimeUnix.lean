import Dgos.L3Files.Fat32Date

/-!
# Seconds since the epoch (kernel/lib/time.cc)

`time_unix` counts the leap days of the years that are over from the full year. Whether the year
itself has a leap day is decided by `time_day_of_year`, from the `year` field alone, which holds
the year of the century, and by a chain of tests that only year 0 passes.

Results:
* `sum_yearDays`: the days of the years that are over, as `time_unix` counts them.
* `time_unix_iff`: the dates whose seconds are right.
-/
namespace Dgos.L4.TimeUnix

open Finset Dgos.L3.Fat32

/-- The months, for a length of February. -/
def days (february : Nat) : List Nat := [31, february, 31, 30, 31, 30, 31, 31, 30, 31, 30, 31]

/-- mirrors time.cc:38-41 -/
def february (year : Nat) : Nat :=
  if year % 400 ≠ 0 then 28 else if year % 100 ≠ 0 then 29 else if year % 4 ≠ 0 then 28 else 29

/-- mirrors time.cc:34-60 -/
def timeDayOfYear (t : TimeOfDay) : Nat :=
  ((days (february t.year.toNat)).take (t.month.toNat - 1)).sum + (t.day.toNat - 1)

/-- mirrors time.cc:62-74 -/
def timeUnix (t : TimeOfDay) : UInt64 :=
  let y : UInt64 := .ofNat t.fullYear - 1900
  t.second.toUInt64 + t.minute.toUInt64 * 60 + t.hour.toUInt64 * 3600 +
    .ofNat (timeDayOfYear t) * 86400 + (y - 70) * 365 * 86400 + (y - 69) / 4 * 86400 -
    (y - 1) / 100 * 86400 + (y + 299) / 400 * 86400

/-! ## The calendar -/

def leapDay (year : Nat) : Nat :=
  if year % 4 = 0 ∧ (year % 100 ≠ 0 ∨ year % 400 = 0) then 1 else 0

/-- The days from the beginning of 1970. -/
def daysElapsed (t : TimeOfDay) : Nat :=
  ∑ year ∈ Ico 1970 t.fullYear, (365 + leapDay year) +
    ((days (28 + leapDay t.fullYear)).take (t.month.toNat - 1)).sum + (t.day.toNat - 1)

def posixSeconds (t : TimeOfDay) : Nat :=
  86400 * daysElapsed t + (3600 * t.hour.toNat + 60 * t.minute.toNat + t.second.toNat)

/-- A date and time from 1970 on. -/
structure Date where
  tod : TimeOfDay
  year : 1970 ≤ tod.fullYear
  month : 1 ≤ tod.month.toNat ∧ tod.month.toNat ≤ 12
  day : 1 ≤ tod.day.toNat ∧
    tod.day.toNat ≤ (days (28 + leapDay tod.fullYear)).getD (tod.month.toNat - 1) 0
  hour : tod.hour.toNat ≤ 23
  minute : tod.minute.toNat ≤ 59
  second : tod.second.toNat ≤ 59

/-! ## The days -/

theorem sum_yearDays {year : Nat} (h : 1970 ≤ year) :
    ∑ y ∈ Ico 1970 year, (365 + leapDay y) + (year - 1901) / 100 =
      365 * (year - 1970) + (year - 1969) / 4 + (year - 1601) / 400 := by
  induction year, h using Nat.le_induction with
  | base => rfl
  | succ year h ih =>
    rw [sum_Ico_succ_top h, leapDay]
    split <;> omega

/-- From March on, February counts. -/
theorem sum_take_days (feb : Nat) {month : Nat} (h : 1 ≤ month ∧ month ≤ 12) :
    ((days feb).take (month - 1)).sum =
      ((days 0).take (month - 1)).sum + if month ≤ 2 then 0 else feb := by
  obtain ⟨hge, hle⟩ := h
  interval_cases month <;> simp [days] <;> omega

theorem february_eq (year : UInt8) : february year.toNat = if year.toNat = 0 then 29 else 28 := by
  have := year.toNat_lt
  rw [february]
  split_ifs <;> omega

theorem timeDayOfYear_lt (t : TimeOfDay) : timeDayOfYear t < 2 ^ 10 := by
  have hday := t.day.toNat_lt
  have htake := (List.take_sublist (t.month.toNat - 1) (days (february t.year.toNat))).sum_le_sum
    fun _ _ => Nat.zero_le _
  have hdays : (days (february t.year.toNat)).sum ≤ 366 := by
    rw [february_eq]
    split <;> decide
  rw [timeDayOfYear]
  omega

theorem sub_mod {a b : Nat} (hb : b ≤ a) (ha : a < 2 ^ 64) : (2 ^ 64 - b + a) % 2 ^ 64 = a - b := by
  omega

theorem timeUnix_eq (d : Date) : (timeUnix d.tod).toNat + (d.tod.fullYear - 1901) / 100 * 86400 =
      86400 * (timeDayOfYear d.tod + 365 * (d.tod.fullYear - 1970) + (d.tod.fullYear - 1969) / 4 +
        (d.tod.fullYear - 1601) / 400) +
      (3600 * d.tod.hour.toNat + 60 * d.tod.minute.toNat + d.tod.second.toNat) := by
  obtain ⟨t, hyear, -, -, hhour, hmin, hsec⟩ := d
  have hlt : t.fullYear < 2 ^ 15 := by
    have := t.century.toNat_lt
    have := t.year.toNat_lt
    rw [TimeOfDay.fullYear]
    omega
  have hday := timeDayOfYear_lt t
  simp only [timeUnix, UInt64.toNat_add, UInt64.toNat_mul, UInt64.toNat_sub, UInt64.toNat_div,
    UInt8.toNat_toUInt64, UInt64.toNat_ofNat', UInt64.reduceToNat]
  simp (disch := omega) only [sub_mod, Nat.mod_eq_of_lt]
  omega

/-- **Seconds since the epoch.** A date is converted right exactly when it is in January or
February, or its year has a leap day just when it is the first of its century. -/
theorem time_unix_iff (d : Date) : (timeUnix d.tod).toNat = posixSeconds d.tod ↔
    d.tod.month.toNat ≤ 2 ∨ (leapDay d.tod.fullYear = 1 ↔ d.tod.year = 0) := by
  have hunix := timeUnix_eq d
  have hyears := sum_yearDays d.year
  rw [timeDayOfYear, sum_take_days _ d.month, february_eq] at hunix
  rw [posixSeconds, daysElapsed, sum_take_days _ d.month]
  have hleap : leapDay d.tod.fullYear ≤ 1 := by
    rw [leapDay]
    split <;> decide
  rw [← UInt8.toNat_inj, UInt8.toNat_zero]
  split_ifs at hunix ⊢ <;> omega

/-- 2024-03-01. -/
def marchFirst : Date :=
  ⟨⟨0, 0, 0, 0, 1, 3, 24, 20⟩, by decide, by decide, by decide, by decide, by decide, by decide⟩

/-- A day is missing: the day before has the same seconds. -/
theorem leap_day_lost : (timeUnix marchFirst.tod).toNat + 86400 = posixSeconds marchFirst.tod ∧
      timeUnix ⟨0, 0, 0, 0, 29, 2, 24, 20⟩ = timeUnix marchFirst.tod := by
  decide

end Dgos.L4.TimeUnix
