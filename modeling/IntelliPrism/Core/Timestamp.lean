import IntelliPrism.Core.Id

/-!
# Moments, to the second

`Timestamp` is a count of whole seconds since the epoch that chrono's calendar can hold.  The months are
the proleptic Gregorian calendar's, with the days of a date counted from the epoch in years that begin
in March, so that the leap day is the last of its year.

* `Date.days`, `Date.ofDays` — the day a date falls on, and the date of a day;
* `Timestamp.monthBegan`, `Timestamp.nextMonth` — the source's two steps through the calendar, each with
  the fallback it takes when chrono has no such moment.
-/

namespace IntelliPrism.Core

/-- A date of the proleptic Gregorian calendar. -/
structure Date where
  year : ℤ
  month : ℤ
  day : ℤ
  deriving Repr, DecidableEq

def isLeapYear (year : ℤ) : Bool := year % 4 == 0 && (year % 100 != 0 || year % 400 == 0)

def daysInMonth (year month : ℤ) : ℤ :=
  if month = 2 then (if isLeapYear year then 29 else 28)
  else if month = 4 ∨ month = 6 ∨ month = 9 ∨ month = 11 then 30
  else 31

namespace Date

/-- Whether the calendar has this date. -/
def valid (d : Date) : Bool :=
  1 ≤ d.month && d.month ≤ 12 && 1 ≤ d.day && d.day ≤ daysInMonth d.year d.month

/-- Days from the epoch to the first of March of a year. -/
def daysToYear (year : ℤ) : ℤ :=
  let yearOfEra := year % 400
  year / 400 * 146097 + (yearOfEra * 365 + yearOfEra / 4 - yearOfEra / 100) - 719468

def days (d : Date) : ℤ :=
  let year := if d.month ≤ 2 then d.year - 1 else d.year
  daysToYear year + ((153 * ((d.month + 9) % 12) + 2) / 5 + d.day - 1)

/-- The date of a day of a year that begins in March. -/
def ofYearDay (year dayOfYear : ℤ) : Date :=
  let monthOfYear := (5 * dayOfYear + 2) / 153
  let month := if monthOfYear < 10 then monthOfYear + 3 else monthOfYear - 9
  ⟨if month ≤ 2 then year + 1 else year, month, dayOfYear - (153 * monthOfYear + 2) / 5 + 1⟩

/-- The date so many days from the epoch: eras of 400 years, then centuries, then leap cycles of four
years, the last of each a day longer or shorter than the others. -/
def ofDays (n : ℤ) : Date :=
  let era := (n + 719468) / 146097
  let dayOfEra := (n + 719468) % 146097
  let century := min 3 (dayOfEra / 36524)
  let dayOfCentury := dayOfEra - century * 36524
  let cycle := dayOfCentury / 1461
  let dayOfCycle := dayOfCentury % 1461
  let yearOfCycle := min 3 (dayOfCycle / 365)
  ofYearDay (era * 400 + century * 100 + cycle * 4 + yearOfCycle) (dayOfCycle - yearOfCycle * 365)

theorem days_ofYearDay {year dayOfYear : ℤ} (h : 0 ≤ dayOfYear) (h' : dayOfYear ≤ 365) :
    (ofYearDay year dayOfYear).days = daysToYear year + dayOfYear := by
  unfold ofYearDay days
  have hmonth : 0 ≤ (5 * dayOfYear + 2) / 153 ∧ (5 * dayOfYear + 2) / 153 ≤ 11 := by omega
  generalize (5 * dayOfYear + 2) / 153 = monthOfYear at hmonth ⊢
  by_cases hlate : monthOfYear < 10
  · have hmarch : ¬monthOfYear + 3 ≤ 2 := by omega
    simp only [if_pos hlate, if_neg hmarch]
    omega
  · have hjanuary : monthOfYear - 9 ≤ 2 := by omega
    simp only [if_neg hlate, if_pos hjanuary, Int.add_sub_cancel]
    omega

theorem daysToYear_eq {era century cycle yearOfCycle : ℤ} (hc : 0 ≤ century) (hc' : century ≤ 3)
    (hq : 0 ≤ cycle) (hq' : cycle ≤ 24) (hy : 0 ≤ yearOfCycle) (hy' : yearOfCycle ≤ 3) :
    daysToYear (era * 400 + century * 100 + cycle * 4 + yearOfCycle)
      = era * 146097 + century * 36524 + cycle * 1461 + yearOfCycle * 365 - 719468 := by
  unfold daysToYear
  have hera : (era * 400 + century * 100 + cycle * 4 + yearOfCycle) / 400 = era := by omega
  have hyear : (era * 400 + century * 100 + cycle * 4 + yearOfCycle) % 400
      = century * 100 + cycle * 4 + yearOfCycle := by omega
  simp only [hera, hyear]
  omega

/-- A day of a year that begins in March: the year, and how far into it. -/
theorem exists_yearDay (n : ℤ) : ∃ year dayOfYear, ofDays n = ofYearDay year dayOfYear ∧
    0 ≤ dayOfYear ∧ dayOfYear ≤ 365 ∧ n = daysToYear year + dayOfYear ∧
    n < daysToYear (year + 1) := by
  unfold ofDays
  have hday : 0 ≤ (n + 719468) % 146097 ∧ (n + 719468) % 146097 < 146097 := by omega
  have hn : n = (n + 719468) / 146097 * 146097 + (n + 719468) % 146097 - 719468 := by omega
  generalize (n + 719468) / 146097 = era, (n + 719468) % 146097 = dayOfEra at hday hn ⊢
  simp only
  refine ⟨_, _, rfl, by omega, by omega, ?_, ?_⟩
  · rw [daysToYear_eq (by omega) (by omega) (by omega) (by omega) (by omega) (by omega)]
    omega
  · -- the next year is of this cycle, begins a cycle, begins a century, or begins an era
    generalize hcentury : min 3 (dayOfEra / 36524) = century
    generalize hcycle : (dayOfEra - century * 36524) / 1461 = cycle
    generalize hyear : min 3 ((dayOfEra - century * 36524) % 1461 / 365) = yearOfCycle
    by_cases hlastYear : yearOfCycle < 3
    · have hsame : era * 400 + century * 100 + cycle * 4 + yearOfCycle + 1
          = era * 400 + century * 100 + cycle * 4 + (yearOfCycle + 1) := by omega
      rw [hsame, daysToYear_eq (by omega) (by omega) (by omega) (by omega) (by omega) (by omega)]
      omega
    · by_cases hlastCycle : cycle < 24
      · have hnext : era * 400 + century * 100 + cycle * 4 + yearOfCycle + 1
            = era * 400 + century * 100 + (cycle + 1) * 4 + 0 := by omega
        rw [hnext, daysToYear_eq (by omega) (by omega) (by omega) (by omega) (by omega) (by omega)]
        omega
      · by_cases hlastCentury : century < 3
        · have hnext : era * 400 + century * 100 + cycle * 4 + yearOfCycle + 1
              = era * 400 + (century + 1) * 100 + 0 * 4 + 0 := by omega
          rw [hnext, daysToYear_eq (by omega) (by omega) (by omega) (by omega) (by omega) (by omega)]
          omega
        · have hnext : era * 400 + century * 100 + cycle * 4 + yearOfCycle + 1
              = (era + 1) * 400 + 0 * 100 + 0 * 4 + 0 := by omega
          rw [hnext, daysToYear_eq (by omega) (by omega) (by omega) (by omega) (by omega) (by omega)]
          omega

/-- **A day's date falls on that day.** -/
theorem days_ofDays (n : ℤ) : (ofDays n).days = n := by
  obtain ⟨year, dayOfYear, hdate, hlow, hhigh, hn, -⟩ := exists_yearDay n
  rw [hdate, days_ofYearDay hlow hhigh, ← hn]

theorem ofDays_day_pos (n : ℤ) : 1 ≤ (ofDays n).day := by
  unfold ofDays ofYearDay
  simp only
  omega

theorem days_first (d : Date) : Date.days { d with day := 1 } = d.days - (d.day - 1) := by
  unfold days
  simp only
  omega

end Date

def minute : ℤ := 60

def hour : ℤ := 60 * minute

def day : ℤ := 24 * hour

/-- The first second chrono can hold: the beginning of the year -262143. -/
def minSeconds : ℤ := Date.days ⟨-262143, 1, 1⟩ * day

/-- The last one: the end of the year 262142. -/
def maxSeconds : ℤ := Date.days ⟨262143, 1, 1⟩ * day - 1

/-- A point in time, held to whole seconds, that chrono can hold. -/
structure Timestamp where
  unixSeconds : ℤ
  notBefore : minSeconds ≤ unixSeconds
  notAfter : unixSeconds ≤ maxSeconds
  deriving DecidableEq

namespace Timestamp

theorem eq_iff {t u : Timestamp} : t = u ↔ t.unixSeconds = u.unixSeconds := by
  cases t
  cases u
  exact Timestamp.mk.injEq .. ▸ Iff.rfl

/-- Where the count of seconds begins. -/
def epoch : Timestamp := ⟨0, by decide, by decide⟩

/-- Wraps a count of whole seconds since the epoch. -/
def fromUnixSeconds (seconds : ℤ) : Except CoreError Timestamp :=
  if h : minSeconds ≤ seconds ∧ seconds ≤ maxSeconds then .ok ⟨seconds, h.1, h.2⟩
  else .error (.timestamp seconds)

def date (t : Timestamp) : Date := .ofDays (t.unixSeconds / day)

def timeOfDay (t : Timestamp) : ℤ := t.unixSeconds % day

/-- A moment of a date, or nothing when the calendar or chrono has no such moment. -/
def atDate (d : Date) (timeOfDay : ℤ) : Option Timestamp :=
  if d.valid then (fromUnixSeconds (d.days * day + timeOfDay)).toOption else none

/-- Midnight on the first of the month this moment falls in. -/
def monthBegan (t : Timestamp) : Timestamp :=
  ((atDate { t.date with day := 1 } t.timeOfDay).bind fun first => atDate first.date 0).getD t

theorem atDate_unixSeconds {d : Date} {timeOfDay : ℤ} {t : Timestamp} (h : atDate d timeOfDay = some t) :
    t.unixSeconds = d.days * day + timeOfDay := by
  unfold atDate fromUnixSeconds at h
  split at h
  · split at h
    · rw [← Option.some.inj h]
    · cases h
  · cases h

theorem unixSeconds_eq (t : Timestamp) : t.unixSeconds = t.date.days * day + t.timeOfDay := by
  rw [date, Date.days_ofDays, timeOfDay, Int.mul_comm]
  exact (Int.mul_ediv_add_emod _ _).symm

theorem monthBegan_le (t : Timestamp) : t.monthBegan.unixSeconds ≤ t.unixSeconds := by
  unfold monthBegan
  cases hfirst : atDate { t.date with day := 1 } t.timeOfDay with
  | none => exact Int.le_refl _
  | some first =>
    cases hmidnight : atDate first.date 0 with
    | none =>
      rw [Option.bind_some, hmidnight]
      exact Int.le_refl _
    | some began =>
      have hday : 1 ≤ t.date.day := Date.ofDays_day_pos _
      have htime : 0 ≤ first.timeOfDay := Int.emod_nonneg _ (by decide)
      have hbegan := atDate_unixSeconds hmidnight
      have hf := atDate_unixSeconds hfirst
      rw [Date.days_first] at hf
      rw [Option.bind_some, hmidnight, Option.getD_some]
      have h₁ := t.unixSeconds_eq
      have h₂ := first.unixSeconds_eq
      simp only [day, hour, minute] at hbegan hf h₁ h₂
      omega

/-- Midnight on the first of the month after the one this moment falls in. -/
def nextMonth (t : Timestamp) : Timestamp :=
  let first := t.monthBegan
  let next :=
    if first.date.month = 12 then
      (atDate { first.date with year := first.date.year + 1 } first.timeOfDay).bind fun y =>
        atDate { y.date with month := 1 } y.timeOfDay
    else atDate { first.date with month := first.date.month + 1 } first.timeOfDay
  next.getD first

end Timestamp

end IntelliPrism.Core
