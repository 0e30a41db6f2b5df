import IntelliPrism.Core.Limit
import IntelliPrism.Lib.Stretches

/-!
# The clock cut into periods

Every period cuts the clock: the fixed ones at the multiples of their length, and the month at midnight on
the first of each month of the proleptic Gregorian calendar.  The source computes where a period began and
where it ends by division and by steps through the calendar, each with a fallback for what chrono cannot
hold.

* `firstDay`, `firstDay_succ` — the first of each month, one month's days after the one before;
* `firstDay_monthIndex` — every day falls in its month;
* `Period.stretches` — the cut each period makes;
* `began_unixSeconds`, `ends_unixSeconds` — **the source computes the start and the end of the cut**, where
  chrono can hold them;
* `Period.longest`, `Period.lt_began_add` — how long a period can last;
* `periods_partition` — **periods partition the clock**.
-/

namespace IntelliPrism.Core

open IntelliPrism.Lib

/-! ### Months -/

/-- The day the month of a number begins on, months counted from the beginning of year 0. -/
def firstDay (month : ℤ) : ℤ := Date.days ⟨month / 12, month % 12 + 1, 1⟩

def Date.monthIndex (d : Date) : ℤ := d.year * 12 + d.month - 1

theorem firstDay_march (year : ℤ) {k : ℤ} (h : 0 ≤ k) (h' : k ≤ 11) :
    firstDay (12 * year + 2 + k) = Date.daysToYear year + (153 * k + 2) / 5 := by
  unfold firstDay Date.days
  simp only
  by_cases hearly : k ≤ 9
  · have hyear : (12 * year + 2 + k) / 12 = year := by omega
    have hmonth : (12 * year + 2 + k) % 12 + 1 = k + 3 := by omega
    rw [hyear, hmonth, if_neg (by omega)]
    omega
  · have hyear : (12 * year + 2 + k) / 12 = year + 1 := by omega
    have hmonth : (12 * year + 2 + k) % 12 + 1 = k - 9 := by omega
    rw [hyear, hmonth, if_pos (by omega), Int.add_sub_cancel]
    omega

/-- A year that begins in March has a day more when the February it ends with has. -/
theorem daysToYear_succ (year : ℤ) :
    Date.daysToYear (year + 1) = Date.daysToYear year + (337 + daysInMonth (year + 1) 2) := by
  unfold Date.daysToYear daysInMonth isLeapYear
  simp only [if_true, Bool.and_eq_true, Bool.or_eq_true, beq_iff_eq, bne_iff_ne]
  split <;> omega

/-- **A month begins where the days of the one before it end.** -/
theorem firstDay_succ (month : ℤ) :
    firstDay (month + 1) = firstDay month + daysInMonth (month / 12) (month % 12 + 1) := by
  obtain ⟨year, k, hk, hk', rfl⟩ : ∃ year k : ℤ, 0 ≤ k ∧ k ≤ 11 ∧ month = 12 * year + 2 + k :=
    ⟨(month - 2) / 12, (month - 2) % 12, by omega, by omega, by omega⟩
  rw [firstDay_march year hk hk']
  by_cases hlast : k = 11
  · -- the month after February begins the next year
    have hnext : 12 * year + 2 + k + 1 = 12 * (year + 1) + 2 + 0 := by omega
    have hyear : (12 * year + 2 + k) / 12 = year + 1 := by omega
    have hmonth : (12 * year + 2 + k) % 12 + 1 = 2 := by omega
    rw [hnext, firstDay_march (year + 1) (le_refl 0) (by omega), hyear, hmonth, daysToYear_succ, hlast]
    omega
  · rw [Int.add_assoc, firstDay_march year (by omega) (by omega)]
    have hmonth : (12 * year + 2 + k) % 12 + 1 = (k + 2) % 12 + 1 := by omega
    have hmonths : k = 0 ∨ k = 1 ∨ k = 2 ∨ k = 3 ∨ k = 4 ∨ k = 5 ∨ k = 6 ∨ k = 7 ∨ k = 8 ∨ k = 9 ∨
        k = 10 := by
      omega
    rw [hmonth]
    rcases hmonths with rfl | rfl | rfl | rfl | rfl | rfl | rfl | rfl | rfl | rfl | rfl
    all_goals
      simp only [daysInMonth]
      omega

theorem firstDay_lt (month : ℤ) : firstDay month < firstDay (month + 1) := by
  rw [firstDay_succ]
  unfold daysInMonth
  split
  · split <;> omega
  · split <;> omega

theorem monthIndex_ofYearDay {year dayOfYear : ℤ} (h : 0 ≤ dayOfYear) (h' : dayOfYear ≤ 365) :
    (Date.ofYearDay year dayOfYear).monthIndex = 12 * year + 2 + (5 * dayOfYear + 2) / 153 := by
  unfold Date.ofYearDay Date.monthIndex
  simp only
  have hmonth : 0 ≤ (5 * dayOfYear + 2) / 153 ∧ (5 * dayOfYear + 2) / 153 ≤ 11 := by omega
  generalize (5 * dayOfYear + 2) / 153 = monthOfYear at hmonth ⊢
  split
  · split <;> omega
  · split <;> omega

/-- **Every day falls in its month.** -/
theorem firstDay_monthIndex (n : ℤ) :
    firstDay (Date.ofDays n).monthIndex = n - ((Date.ofDays n).day - 1) ∧
      n < firstDay ((Date.ofDays n).monthIndex + 1) := by
  obtain ⟨year, dayOfYear, hdate, hlow, hhigh, hn, hnext⟩ := Date.exists_yearDay n
  rw [hdate, monthIndex_ofYearDay hlow hhigh]
  have hk : 0 ≤ (5 * dayOfYear + 2) / 153 ∧ (5 * dayOfYear + 2) / 153 ≤ 11 := by omega
  refine ⟨?_, ?_⟩
  · rw [firstDay_march year hk.1 hk.2, hn]
    unfold Date.ofYearDay
    simp only
    omega
  · by_cases hlast : (5 * dayOfYear + 2) / 153 = 11
    · have hmarch : 12 * year + 2 + (5 * dayOfYear + 2) / 153 + 1 = 12 * (year + 1) + 2 + 0 := by omega
      rw [hmarch, firstDay_march (year + 1) (le_refl 0) (by omega)]
      omega
    · rw [Int.add_assoc, firstDay_march year (by omega) (by omega)]
      omega

theorem month_ofDays (n : ℤ) : 1 ≤ (Date.ofDays n).month ∧ (Date.ofDays n).month ≤ 12 := by
  obtain ⟨year, dayOfYear, hdate, hlow, hhigh, -⟩ := Date.exists_yearDay n
  rw [hdate]
  unfold Date.ofYearDay
  simp only
  split <;> omega

/-! ### The cuts -/

theorem midnight_lt (month : ℤ) : firstDay month * day < firstDay (month + 1) * day := by
  have := firstDay_lt month
  simp only [day, hour, minute]
  omega

theorem midnight_le (seconds : ℤ) : firstDay (Date.ofDays (seconds / day)).monthIndex * day ≤ seconds := by
  have hfirst := (firstDay_monthIndex (seconds / day)).1
  have hday := Date.ofDays_day_pos (seconds / day)
  simp only [day, hour, minute] at *
  omega

theorem lt_midnight (seconds : ℤ) :
    seconds < firstDay ((Date.ofDays (seconds / day)).monthIndex + 1) * day := by
  have hnext := (firstDay_monthIndex (seconds / day)).2
  simp only [day, hour, minute] at *
  omega

/-- The clock cut at midnight on the first of each month. -/
def months : Stretches ℤ where
  first month := firstDay month * day
  index seconds := (Date.ofDays (seconds / day)).monthIndex
  first_lt := midnight_lt
  first_le := midnight_le
  lt_first := lt_midnight

/-- The clock cut at the multiples of a length. -/
def multiples (length : ℤ) (h : 0 < length) : Stretches ℤ where
  first i := i * length
  index seconds := seconds / length
  first_lt i := by
    rw [Int.add_mul, Int.one_mul]
    omega
  first_le seconds := Int.ediv_mul_le _ (Int.ne_of_gt h)
  lt_first seconds := Int.lt_ediv_add_one_mul_self _ h

def Period.stretches : Period → Stretches ℤ
  | .minute => multiples Core.minute (by decide)
  | .hour => multiples Core.hour (by decide)
  | .day => multiples Core.day (by decide)
  | .month => months

/-- Chrono holds the start and the end of the period a moment stands in. -/
def Period.Representable (period : Period) (t : Timestamp) : Prop :=
  minSeconds ≤ period.stretches.start t.unixSeconds ∧ period.stretches.stop t.unixSeconds ≤ maxSeconds

/-! ### What the source computes -/

theorem fromUnixSeconds_of_le {seconds : ℤ} (h : minSeconds ≤ seconds) (h' : seconds ≤ maxSeconds) :
    Timestamp.fromUnixSeconds seconds = .ok ⟨seconds, h, h'⟩ := by
  rw [Timestamp.fromUnixSeconds, dif_pos ⟨h, h'⟩]

theorem ofDays_firstDay (month : ℤ) : Date.ofDays (firstDay month) = ⟨month / 12, month % 12 + 1, 1⟩ := by
  have hindex : (Date.ofDays (firstDay month)).monthIndex = month := by
    have := months.index_first month
    have hmidnight : firstDay month * day / day = firstDay month := Int.mul_ediv_cancel _ (by decide)
    simpa [months, hmidnight] using this
  have hday := (firstDay_monthIndex (firstDay month)).1
  rw [hindex] at hday
  obtain ⟨hlow, hhigh⟩ := month_ofDays (firstDay month)
  unfold Date.monthIndex at hindex
  cases hdate : Date.ofDays (firstDay month) with
  | mk year number first =>
    rw [hdate] at hindex hday hlow hhigh
    simp only at hindex hday hlow hhigh
    rw [Date.mk.injEq]
    omega

/-- The calendar has the first of every month, and chrono holds its moments within its range. -/
theorem atDate_first {month timeOfDay : ℤ} (h : minSeconds ≤ firstDay month * day + timeOfDay)
    (h' : firstDay month * day + timeOfDay ≤ maxSeconds) :
    Timestamp.atDate ⟨month / 12, month % 12 + 1, 1⟩ timeOfDay
      = some ⟨firstDay month * day + timeOfDay, h, h'⟩ := by
  have hvalid : Date.valid ⟨month / 12, month % 12 + 1, 1⟩ = true := by
    have hdays : 1 ≤ daysInMonth (month / 12) (month % 12 + 1) := by
      have hlt := firstDay_lt month
      rw [firstDay_succ] at hlt
      omega
    simp only [Date.valid, Bool.and_eq_true, decide_eq_true_eq]
    omega
  have hmoment : Date.days ⟨month / 12, month % 12 + 1, 1⟩ * day + timeOfDay
      = firstDay month * day + timeOfDay := rfl
  rw [Timestamp.atDate, if_pos hvalid, hmoment, fromUnixSeconds_of_le h h']
  rfl

theorem date_first {t : Timestamp} {month timeOfDay : ℤ} (h : t.unixSeconds = firstDay month * day + timeOfDay)
    (hlow : 0 ≤ timeOfDay) (hhigh : timeOfDay < day) :
    t.date = ⟨month / 12, month % 12 + 1, 1⟩ ∧ t.timeOfDay = timeOfDay := by
  have hdiv : t.unixSeconds / day = firstDay month := by
    rw [h]
    simp only [day, hour, minute] at *
    omega
  have hmod : t.unixSeconds % day = timeOfDay := by
    rw [h]
    simp only [day, hour, minute] at *
    omega
  rw [Timestamp.date, hdiv, ofDays_firstDay, Timestamp.timeOfDay, hmod]
  exact ⟨rfl, rfl⟩

/-- **Where a month began**, as the source steps to it. -/
theorem monthBegan_unixSeconds {t : Timestamp} (h : minSeconds ≤ months.start t.unixSeconds) :
    t.monthBegan.unixSeconds = months.start t.unixSeconds := by
  have hstart : months.start t.unixSeconds = firstDay t.date.monthIndex * day := rfl
  have hle := months.start_le t.unixSeconds
  have htime : 0 ≤ t.timeOfDay ∧ t.timeOfDay < day :=
    ⟨Int.emod_nonneg _ (by decide), Int.emod_lt_of_pos _ (by decide)⟩
  have hmonth := month_ofDays (t.unixSeconds / day)
  have hfirst : ({ t.date with day := 1 } : Date)
      = ⟨t.date.monthIndex / 12, t.date.monthIndex % 12 + 1, 1⟩ := by
    rw [Date.mk.injEq]
    unfold Date.monthIndex Timestamp.date
    omega
  have hdays : firstDay t.date.monthIndex ≤ t.date.days := by
    have hbegan := (firstDay_monthIndex (t.unixSeconds / day)).1
    have hday := Date.ofDays_day_pos (t.unixSeconds / day)
    rw [Timestamp.date, Date.days_ofDays]
    omega
  have hthere := t.unixSeconds_eq
  have hafter := t.notAfter
  rw [hstart] at h hle ⊢
  have hmoment : minSeconds ≤ firstDay t.date.monthIndex * day + t.timeOfDay ∧
      firstDay t.date.monthIndex * day + t.timeOfDay ≤ maxSeconds := by
    simp only [day, hour, minute] at *
    omega
  have hmidnight : firstDay t.date.monthIndex * day + 0 ≤ maxSeconds := by omega
  obtain ⟨hdate, -⟩ := @date_first ⟨_, hmoment.1, hmoment.2⟩ t.date.monthIndex t.timeOfDay rfl htime.1 htime.2
  rw [Timestamp.monthBegan, hfirst, atDate_first hmoment.1 hmoment.2, Option.bind_some, hdate,
    atDate_first (by omega) hmidnight]
  exact Int.add_zero _

/-- The last month chrono holds is the December before this one. -/
def monthsEnd : ℤ := 262143 * 12

theorem maxSeconds_eq : maxSeconds = firstDay monthsEnd * day - 1 := by decide

/-- What begins by the end of chrono's calendar is of a year it holds to its end. -/
theorem firstDay_le_of_december {month : ℤ} (hdecember : month % 12 = 11)
    (h : firstDay (month + 1) * day ≤ maxSeconds) : firstDay (month + 12) * day ≤ maxSeconds := by
  have hmono := strictMono_int_of_lt_succ firstDay_lt
  rw [maxSeconds_eq] at h ⊢
  have hbefore : firstDay (month + 1) < firstDay monthsEnd := by
    simp only [day, hour, minute] at h
    omega
  have hmonth := hmono.lt_iff_lt.mp hbefore
  have hyear : month + 12 < monthsEnd := by
    unfold monthsEnd at *
    omega
  have hlast := hmono hyear
  simp only [day, hour, minute]
  omega

/-- **Where a month ends**, as the source steps to it. -/
theorem nextMonth_unixSeconds {t : Timestamp} (h : minSeconds ≤ months.start t.unixSeconds)
    (h' : months.stop t.unixSeconds ≤ maxSeconds) :
    t.nextMonth.unixSeconds = months.stop t.unixSeconds := by
  have hbegan := monthBegan_unixSeconds h
  have hmono := (strictMono_int_of_lt_succ firstDay_lt).monotone
  generalize hmonth : t.date.monthIndex = month
  have hstart : months.start t.unixSeconds = firstDay month * day := by
    rw [← hmonth]
    rfl
  have hstop : months.stop t.unixSeconds = firstDay (month + 1) * day := by
    rw [← hmonth]
    rfl
  rw [hstart] at h hbegan
  rw [hstop] at h' ⊢
  obtain ⟨hdate, htime⟩ := @date_first t.monthBegan month 0 (by rw [hbegan]; omega) (le_refl 0) (by decide)
  have hnext : minSeconds ≤ firstDay (month + 1) * day + 0 ∧ firstDay (month + 1) * day + 0 ≤ maxSeconds := by
    have := firstDay_lt month
    simp only [day, hour, minute] at *
    omega
  unfold Timestamp.nextMonth
  simp only [hdate, htime]
  split
  · rename_i htwelve
    have hdecember : month % 12 = 11 := by omega
    have hyear : (⟨month / 12 + 1, month % 12 + 1, 1⟩ : Date)
        = ⟨(month + 12) / 12, (month + 12) % 12 + 1, 1⟩ := by
      rw [Date.mk.injEq]
      omega
    have hlater : firstDay month ≤ firstDay (month + 12) := hmono (by omega)
    have hheld : minSeconds ≤ firstDay (month + 12) * day + 0 ∧
        firstDay (month + 12) * day + 0 ≤ maxSeconds := by
      have := firstDay_le_of_december hdecember h'
      simp only [day, hour, minute] at *
      omega
    obtain ⟨hdate', htime'⟩ := @date_first ⟨_, hheld.1, hheld.2⟩ (month + 12) 0 rfl (le_refl 0) (by decide)
    have hjanuary : (⟨(month + 12) / 12, 1, 1⟩ : Date) = ⟨(month + 1) / 12, (month + 1) % 12 + 1, 1⟩ := by
      rw [Date.mk.injEq]
      omega
    rw [hyear, atDate_first hheld.1 hheld.2, Option.bind_some, hdate', htime', hjanuary,
      atDate_first hnext.1 hnext.2]
    exact Int.add_zero _
  · have hsame : (⟨month / 12, month % 12 + 1 + 1, 1⟩ : Date)
        = ⟨(month + 1) / 12, (month + 1) % 12 + 1, 1⟩ := by
      rw [Date.mk.injEq]
      omega
    rw [hsame, atDate_first hnext.1 hnext.2]
    exact Int.add_zero _

namespace Period

theorem fixedBegan_unixSeconds {length : ℤ} (hpos : 0 < length) {t : Timestamp}
    (h : minSeconds ≤ (multiples length hpos).start t.unixSeconds) :
    (fixedBegan length t).unixSeconds = (multiples length hpos).start t.unixSeconds := by
  have hle : (multiples length hpos).start t.unixSeconds ≤ maxSeconds :=
    le_trans ((multiples length hpos).start_le _) t.notAfter
  have hsame : t.unixSeconds / length * length = (multiples length hpos).start t.unixSeconds := rfl
  rw [fixedBegan, hsame, fromUnixSeconds_of_le h hle]
  rfl

theorem fixedEnds_unixSeconds {length : ℤ} (hpos : 0 < length) {began t : Timestamp}
    (hbegan : began.unixSeconds = (multiples length hpos).start t.unixSeconds)
    (h : (multiples length hpos).stop t.unixSeconds ≤ maxSeconds) :
    (fixedEnds length began t).unixSeconds = (multiples length hpos).stop t.unixSeconds := by
  have hge : minSeconds ≤ (multiples length hpos).stop t.unixSeconds :=
    le_trans t.notBefore (le_of_lt ((multiples length hpos).lt_stop _))
  have hsame : began.unixSeconds + length = (multiples length hpos).stop t.unixSeconds := by
    rw [hbegan]
    show t.unixSeconds / length * length + length = (t.unixSeconds / length + 1) * length
    rw [Int.add_mul, Int.one_mul]
  rw [fixedEnds, hsame, fromUnixSeconds_of_le hge h]
  rfl

/-- **A period began at the start of its stretch**, where chrono can hold it. -/
theorem began_unixSeconds {period : Period} {t : Timestamp}
    (h : minSeconds ≤ period.stretches.start t.unixSeconds) :
    (period.began t).unixSeconds = period.stretches.start t.unixSeconds := by
  cases period with
  | minute => exact fixedBegan_unixSeconds (by decide) h
  | hour => exact fixedBegan_unixSeconds (by decide) h
  | day => exact fixedBegan_unixSeconds (by decide) h
  | month => exact monthBegan_unixSeconds h

/-- **It ends at the end of its stretch**, where chrono can hold both. -/
theorem ends_unixSeconds {period : Period} {t : Timestamp} (h : period.Representable t) :
    (period.ends t).unixSeconds = period.stretches.stop t.unixSeconds := by
  have hbegan := began_unixSeconds h.1
  cases period with
  | minute => exact fixedEnds_unixSeconds (by decide) hbegan h.2
  | hour => exact fixedEnds_unixSeconds (by decide) hbegan h.2
  | day => exact fixedEnds_unixSeconds (by decide) hbegan h.2
  | month =>
    have hstart : months.start (t.monthBegan.unixSeconds) = months.start t.unixSeconds := by
      rw [monthBegan_unixSeconds h.1, Stretches.start_start]
    have hstop : months.stop (t.monthBegan.unixSeconds) = months.stop t.unixSeconds := by
      rw [monthBegan_unixSeconds h.1, Stretches.stop, Stretches.start, Stretches.index_first]
      rfl
    have hnext := @nextMonth_unixSeconds t.monthBegan (by rw [hstart]; exact h.1) (by rw [hstop]; exact h.2)
    exact hnext.trans hstop

/-! ### How long a period can last -/

/-- The seconds of the longest stretch of each period. -/
def longest : Period → ℤ
  | .minute => Core.minute
  | .hour => Core.hour
  | .day => Core.day
  | .month => 31 * Core.day

/-- The first second chrono can hold begins a stretch of every period. -/
theorem start_minSeconds (period : Period) : period.stretches.start minSeconds = minSeconds := by
  cases period <;> decide

theorem minSeconds_le_start (period : Period) (t : Timestamp) :
    minSeconds ≤ period.stretches.start t.unixSeconds := by
  have hmono := period.stretches.start_mono t.notBefore
  rw [start_minSeconds] at hmono
  exact hmono

theorem multiples_stop {length : ℤ} (h : 0 < length) (seconds : ℤ) :
    (multiples length h).stop seconds = (multiples length h).start seconds + length := by
  show (seconds / length + 1) * length = seconds / length * length + length
  rw [Int.add_mul, Int.one_mul]

theorem stop_le (period : Period) (seconds : ℤ) :
    period.stretches.stop seconds ≤ period.stretches.start seconds + period.longest := by
  cases period with
  | minute => exact Int.le_of_eq (multiples_stop (by decide) seconds)
  | hour => exact Int.le_of_eq (multiples_stop (by decide) seconds)
  | day => exact Int.le_of_eq (multiples_stop (by decide) seconds)
  | month =>
    show firstDay (months.index seconds + 1) * Core.day
      ≤ firstDay (months.index seconds) * Core.day + 31 * Core.day
    have hdays : ∀ year month, daysInMonth year month ≤ 31 := by
      intro year month
      unfold daysInMonth
      split
      · split <;> omega
      · split <;> omega
    have hmonth := hdays (months.index seconds / 12) (months.index seconds % 12 + 1)
    rw [firstDay_succ, Int.add_mul]
    simp only [Core.day, Core.hour, Core.minute]
    omega

/-- **A moment is less than the longest stretch past the beginning of its own.** -/
theorem lt_began_add (period : Period) (t : Timestamp) :
    t.unixSeconds < (period.began t).unixSeconds + period.longest := by
  rw [began_unixSeconds (minSeconds_le_start period t)]
  exact Int.lt_of_lt_of_le (period.stretches.lt_stop t.unixSeconds) (period.stop_le t.unixSeconds)

theorem lastSecond_range (period : Period) :
    minSeconds ≤ period.longest - 1 ∧ period.longest - 1 ≤ maxSeconds := by
  cases period <;> decide

/-- The last second of the first stretch from the epoch on, which is a longest one. -/
def lastSecond (period : Period) : Timestamp :=
  ⟨period.longest - 1, (lastSecond_range period).1, (lastSecond_range period).2⟩

theorem began_lastSecond (period : Period) : period.began period.lastSecond = .epoch := by
  cases period <;> decide

end Period

/-- **Periods partition the clock.**  Where chrono can hold its ends, a period begins at or before each of
its moments and ends behind it, begins and ends where periods begin, follows the clock, and is that of
exactly the moments that neither are at or past its end nor have it at or past theirs. -/
theorem periods_partition {period : Period} {t : Timestamp} (h : period.Representable t) :
    (period.began t).unixSeconds ≤ t.unixSeconds ∧ t.unixSeconds < (period.ends t).unixSeconds ∧
      period.began (period.began t) = period.began t ∧ period.began (period.ends t) = period.ends t ∧
      ∀ u, period.Representable u →
        (t.unixSeconds ≤ u.unixSeconds →
          (period.began t).unixSeconds ≤ (period.began u).unixSeconds) ∧
        (period.began t = period.began u ↔
          ¬(period.ends t).unixSeconds ≤ u.unixSeconds ∧ ¬(period.ends u).unixSeconds ≤ t.unixSeconds) := by
  have hbegan := Period.began_unixSeconds h.1
  have hends := Period.ends_unixSeconds h
  refine ⟨?_, ?_, ?_, ?_, ?_⟩
  · rw [hbegan]
    exact Stretches.start_le _ _
  · rw [hends]
    exact Stretches.lt_stop _ _
  · have hstart : period.stretches.start (period.began t).unixSeconds
        = period.stretches.start t.unixSeconds := by
      rw [hbegan, Stretches.start_start]
    rw [Timestamp.eq_iff, Period.began_unixSeconds (by rw [hstart]; exact h.1), hstart, hbegan]
  · have hstart : period.stretches.start (period.ends t).unixSeconds = (period.ends t).unixSeconds := by
      rw [hends, Stretches.start_stop]
    rw [Timestamp.eq_iff, Period.began_unixSeconds (by rw [hstart]; exact (period.ends t).notBefore), hstart]
  · intro u hu
    rw [Timestamp.eq_iff, hbegan, hends, Period.began_unixSeconds hu.1, Period.ends_unixSeconds hu]
    exact ⟨fun hle => Stretches.start_mono _ hle, Stretches.start_eq_iff _⟩

/-- The last second before the epoch. -/
def beforeEpoch : Timestamp := ⟨-1, by decide, by decide⟩

/-- Its month is the December that ends there. -/
theorem partition_before_epoch :
    Period.month.Representable beforeEpoch ∧
      (Period.month.began beforeEpoch).unixSeconds ≤ -1 ∧
      -1 < (Period.month.ends beforeEpoch).unixSeconds := by
  have hrepresentable : Period.month.Representable beforeEpoch :=
    ⟨by decide +kernel, by decide +kernel⟩
  have hpartition := periods_partition hrepresentable
  exact ⟨hrepresentable, hpartition.1, hpartition.2.1⟩

end IntelliPrism.Core
