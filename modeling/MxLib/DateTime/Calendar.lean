import Mathlib.Tactic.IntervalCases
import MxLib.DateTime.Format

/-!
# The calendar

`SetDateTime` counts the days before a date and puts the time of day behind them;
`GetDateTime` takes the ticks apart again.  Both rest on the days before a year: a date is
a year and a day of it, and the days of a year are fewer than those to the next one.

The numbers of a date are those that its tests let through, so they are natural numbers.
Negative ones fail the same tests.
-/

namespace MxLib.DateTime

/-! ### Dates and ticks -/

/-- `X_MAX_VALUE_TICKS` -/
def xMaxValueTicks : Nat := 3155378975999999999

/-- What `GetDateTime` gives. -/
structure DateFields where
  nYear : Nat
  nMonth : Nat
  nDay : Nat
  nHours : Nat
  nMinutes : Nat
  nSeconds : Nat
  nMilliSeconds : Nat
deriving DecidableEq

/-- The fields from the largest to the smallest. -/
def DateFields.toList (f : DateFields) : List Nat :=
  [f.nYear, f.nMonth, f.nDay, f.nHours, f.nMinutes, f.nSeconds, f.nMilliSeconds]

/-- A date of the calendar and a time of day. -/
structure DateFields.Valid (f : DateFields) : Prop where
  date : isDateValid f.nYear f.nMonth f.nDay = true
  hours : f.nHours ≤ 23
  minutes : f.nMinutes ≤ 59
  seconds : f.nSeconds ≤ 59
  milliSeconds : f.nMilliSeconds ≤ 999

/-- `GetDayOfYear(nYear, nMonth, nDay)` -/
def getDayOfYear (nYear nMonth nDay : Nat) : Int :=
  if !isDateValid nYear nMonth nDay then -1
  else (aDateTimeMonthDays.getD (nMonth - 1) 0 + (nDay - 1) +
    if isLeapYear nYear && nMonth > 2 then 1 else 0 : Nat)

/-- The loop of `GetAbsoluteDay` over the first months of a year. -/
def monthsBefore (nYear : Nat) : Nat → Nat
  | 0 => 0
  | nM + 1 => monthsBefore nYear nM + monthDays (nM + 1) nYear

/-- `GetAbsoluteDay` -/
def getAbsoluteDay (nYear nMonth nDay : Nat) : Int :=
  if !isDateValid nYear nMonth nDay then -1
  else
    let nTemp := monthsBefore nYear (nMonth - 1)
    let nYear := nYear - 1
    (nDay - 1 + nTemp + 365 * nYear + nYear / 4 - nYear / 100 + nYear / 400 : Nat)

/-- `CalculateTicks`; `none` is an overflow. -/
def calculateTicks (nDays nHours nMinutes nSeconds nMilliSeconds : Nat) : Option Nat :=
  if nHours > 23 || nMinutes > 59 || nSeconds > 59 || nMilliSeconds > 999 then none
  else
    let t := ((nHours * 3600 + nMinutes * 60 + nSeconds) * 1000 + nMilliSeconds) * 10000
    -- the sum wraps to a negative number
    let t := (t + ticksPerDay * nDays) % 2 ^ 64
    if t ≥ 2 ^ 63 then none else some t

/-- `CTimeSpan::SetFrom` -/
def setFrom (nDays nHours nMinutes nSeconds nMilliSeconds : Nat) : Except HResult Nat :=
  match calculateTicks nDays nHours nMinutes nSeconds nMilliSeconds with
  | none => .error .eInvalidArg
  | some nTicks => .ok nTicks

section Fields

variable (nTicks : Nat)

/-- `CTimeSpan::GetDays`, and the functions for the parts of a day. -/
def getDays : Nat := nTicks / ticksPerDay
def getHours : Nat := nTicks % ticksPerDay / ticksPerHour
def getMinutes : Nat := nTicks % ticksPerHour / ticksPerMinute
def getSeconds : Nat := nTicks % ticksPerMinute / ticksPerSecond
def getMilliSeconds : Nat := nTicks % ticksPerSecond / ticksPerMillisecond

/-- `SetDate`: the time of day stays, but for its milliseconds. -/
def setDate (nYear nMonth nDay : Nat) : Except HResult Nat :=
  let nAbsDay := getAbsoluteDay nYear nMonth nDay
  if nAbsDay < 0 then .error .eInvalidArg
  else setFrom nAbsDay.toNat (getHours nTicks) (getMinutes nTicks) (getSeconds nTicks) 0

/-- `SetTime` -/
def setTime (nHours nMinutes nSeconds nMilliSeconds : Nat) : Except HResult Nat :=
  setFrom (getDays nTicks) nHours nMinutes nSeconds nMilliSeconds

/-- `SetDateTime`: the ticks that are stored; where it fails they stay. -/
def setDateTime (f : DateFields) : Except HResult Nat :=
  match setDate nTicks f.nYear f.nMonth f.nDay with
  | .error hRes => .error hRes
  | .ok nTicks => setTime nTicks f.nHours f.nMinutes f.nSeconds f.nMilliSeconds

/-- `GetDayOfYear()` -/
def getDayOfYearOf : Nat := (ticksToYearAndDayOfYear nTicks).2

/-- `GetDateTime` -/
def getDateTime : DateFields :=
  let (nYear, nDayOfYear) := ticksToYearAndDayOfYear nTicks
  let (nMonth, nDay) := calculateDayMonth nDayOfYear nYear
  ⟨nYear, nMonth, nDay, getHours nTicks, getMinutes nTicks, getSeconds nTicks,
    getMilliSeconds nTicks⟩

end Fields

/-! ### Years and their days -/

/-- The days before a year. -/
def yearStart (nYear : Nat) : Nat :=
  365 * (nYear - 1) + (nYear - 1) / 4 - (nYear - 1) / 100 + (nYear - 1) / 400

def yearDays (nYear : Nat) : Nat := 365 + if isLeapYear nYear then 1 else 0

theorem isLeapYear_iff {nYear : Nat} (h : 1 ≤ nYear) :
    isLeapYear nYear = true ↔ nYear % 4 = 0 ∧ (nYear % 100 ≠ 0 ∨ nYear % 400 = 0) := by
  simp [isLeapYear, h]

/-- The days before the year behind `a` times 400, `b` times 100, `c` times 4 and `e` years. -/
theorem yearStart_eq {nYear a b c e : Nat} (hn : nYear = 400 * a + 100 * b + 4 * c + e + 1)
    (hb : b ≤ 3) (hc : c ≤ 24) (he : e ≤ 3) :
    yearStart nYear = 146097 * a + 36524 * b + 1461 * c + 365 * e := by
  subst hn
  have h4 : (400 * a + 100 * b + 4 * c + e) / 4 = 100 * a + 25 * b + c := by omega
  have h100 : (400 * a + 100 * b + 4 * c + e) / 100 = 4 * a + b := by omega
  have h400 : (400 * a + 100 * b + 4 * c + e) / 400 = a := by omega
  rw [yearStart, Nat.add_sub_cancel, h4, h100, h400]
  omega

theorem yearStart_succ {nYear : Nat} (h : 1 ≤ nYear) :
    yearStart (nYear + 1) = yearStart nYear + yearDays nYear := by
  obtain ⟨a, b, c, e, hb, hc, he, hn⟩ : ∃ a b c e, b ≤ 3 ∧ c ≤ 24 ∧ e ≤ 3 ∧
      nYear = 400 * a + 100 * b + 4 * c + e + 1 :=
    ⟨(nYear - 1) / 400, (nYear - 1) % 400 / 100, (nYear - 1) % 100 / 4, (nYear - 1) % 4, by omega,
      by omega, by omega, by omega⟩
  have hleap := isLeapYear_iff h
  rw [yearStart_eq hn hb hc he, yearDays]
  by_cases he3 : e = 3
  · -- the last of four years, perhaps of 100 and of 400
    by_cases hc24 : c = 24
    · by_cases hb3 : b = 3
      · have hnext : yearStart (nYear + 1) = 146097 * (a + 1) + 36524 * 0 + 1461 * 0 + 365 * 0 :=
          yearStart_eq (by omega) (by omega) (by omega) (by omega)
        rw [hnext, if_pos (hleap.mpr (by omega))]
        omega
      · have hnext : yearStart (nYear + 1) = 146097 * a + 36524 * (b + 1) + 1461 * 0 + 365 * 0 :=
          yearStart_eq (by omega) (by omega) (by omega) (by omega)
        rw [hnext, if_neg fun hl => by have := hleap.mp hl; omega]
        omega
    · have hnext : yearStart (nYear + 1) = 146097 * a + 36524 * b + 1461 * (c + 1) + 365 * 0 :=
        yearStart_eq (by omega) hb (by omega) (by omega)
      rw [hnext, if_pos (hleap.mpr (by omega))]
      omega
  · have hnext : yearStart (nYear + 1) = 146097 * a + 36524 * b + 1461 * c + 365 * (e + 1) :=
      yearStart_eq (by omega) hb hc (by omega)
    rw [hnext, if_neg fun hl => by have := hleap.mp hl; omega]
    omega

/-- A later year starts behind the days of an earlier one. -/
theorem yearStart_le {nYear nYear' : Nat} (h : 1 ≤ nYear) (hlt : nYear < nYear') :
    yearStart nYear + yearDays nYear ≤ yearStart nYear' := by
  induction nYear', hlt using Nat.le_induction with
  | base => exact Nat.le_of_eq (yearStart_succ h).symm
  | succ n hn ih => exact ih.trans (by rw [yearStart_succ (by omega)]; omega)

/-- **The ticks give the year of the day, and its day there.** -/
theorem ticksToYearAndDayOfYear_spec (nTicks : Nat) :
    1 ≤ (ticksToYearAndDayOfYear nTicks).1 ∧ 1 ≤ (ticksToYearAndDayOfYear nTicks).2 ∧
      (ticksToYearAndDayOfYear nTicks).2 ≤ yearDays (ticksToYearAndDayOfYear nTicks).1 ∧
      yearStart (ticksToYearAndDayOfYear nTicks).1 + ((ticksToYearAndDayOfYear nTicks).2 - 1) =
        getDays nTicks := by
  rw [getDays, ticksToYearAndDayOfYear]
  generalize nTicks / ticksPerDay = N
  obtain ⟨a, ha⟩ : ∃ a, a = N / 146097 := ⟨_, rfl⟩
  obtain ⟨b, hb⟩ : ∃ b, b = N % 146097 / 36524 := ⟨_, rfl⟩
  obtain ⟨c, hc⟩ : ∃ c, c = N % 146097 % 36524 / 1461 := ⟨_, rfl⟩
  obtain ⟨e, he⟩ : ∃ e, e = N % 146097 % 36524 % 1461 / 365 := ⟨_, rfl⟩
  obtain ⟨f, hf⟩ : ∃ f, f = N % 146097 % 36524 % 1461 % 365 := ⟨_, rfl⟩
  have hsum : N = 146097 * a + 36524 * b + 1461 * c + 365 * e + f := by omega
  rw [← ha, ← hb, ← hc, ← he, ← hf]
  split
  · rename_i hlast
    rw [Bool.or_eq_true, beq_iff_eq, beq_iff_eq] at hlast
    dsimp only
    -- the last day of 400 years, or of four
    obtain ⟨b', c', hb', hc', hyear, hsum', hcentury⟩ : ∃ b' c', b' ≤ 3 ∧ c' ≤ 24 ∧
        400 * a + 100 * b + 4 * c + e = 400 * a + 100 * b' + 4 * c' + 3 + 1 ∧
        N = 146097 * a + 36524 * b' + 1461 * c' + 365 * 3 + 365 ∧ (c' = 24 → b' = 3) := by
      by_cases hb4 : b = 4
      · exact ⟨3, 24, by omega, by omega, by omega, by omega, by omega⟩
      · exact ⟨b, c, by omega, by omega, by omega, by omega, by omega⟩
    have hleap : isLeapYear (400 * a + 100 * b + 4 * c + e) = true := by
      rw [isLeapYear_iff (by omega)]
      omega
    rw [yearStart_eq hyear hb' hc' (by omega), yearDays, if_pos hleap]
    omega
  · rename_i hlast
    rw [Bool.or_eq_true, beq_iff_eq, beq_iff_eq] at hlast
    dsimp only
    have hb' : b ≤ 3 := by omega
    have hc' : c ≤ 24 := by omega
    have he' : e ≤ 3 := by omega
    have hf' : f < 365 := by omega
    rw [yearStart_eq rfl hb' hc' he', yearDays]
    omega

/-! ### Months and their days -/

/-- The table has the days before each month of a year that is no leap year. -/
theorem monthsBefore_eq (nYear : Nat) {nMonth : Nat} (h : nMonth ≤ 12) :
    monthsBefore nYear nMonth = aDateTimeMonthDays.getD nMonth 0 +
      if isLeapYear nYear && nMonth ≥ 2 then 1 else 0 := by
  have hmono : ∀ n < 12, aDateTimeMonthDays.getD n 0 ≤ aDateTimeMonthDays.getD (n + 1) 0 := by
    decide
  induction nMonth with
  | zero => simp [monthsBefore, aDateTimeMonthDays]
  | succ n ih =>
    have hn := hmono n (by omega)
    rw [monthsBefore, ih (by omega), monthDays, Nat.add_sub_cancel]
    cases isLeapYear nYear with
    | false =>
      simp only [Bool.false_and, Bool.false_eq_true, if_false]
      omega
    | true =>
      simp only [Bool.true_and, decide_eq_true_eq, beq_iff_eq]
      split <;> split <;> split <;> omega

theorem monthsBefore_twelve (nYear : Nat) : monthsBefore nYear 12 = yearDays nYear := by
  rw [monthsBefore_eq nYear (Nat.le_refl 12), yearDays]
  simp [aDateTimeMonthDays]

theorem monthsBefore_mono (nYear : Nat) {m n : Nat} (h : m ≤ n) :
    monthsBefore nYear m ≤ monthsBefore nYear n := by
  induction h with
  | refl => exact Nat.le_refl _
  | step _ ih => exact ih.trans (Nat.le_add_right _ _)

theorem monthDays_pos (nYear : Nat) {nMonth : Nat} (h1 : 1 ≤ nMonth) (h12 : nMonth ≤ 12) :
    0 < monthDays nMonth nYear := by
  interval_cases nMonth <;> simp [monthDays, aDateTimeMonthDays]

theorem isDateValid_iff (nYear nMonth nDay : Nat) :
    isDateValid nYear nMonth nDay = true ↔
      (1 ≤ nYear ∧ nYear ≤ 9999) ∧ (1 ≤ nMonth ∧ nMonth ≤ 12) ∧
        1 ≤ nDay ∧ nDay ≤ monthDays nMonth nYear := by
  rw [isDateValid, getDaysInMonth]
  split
  · rename_i hbad
    simp only [Bool.or_eq_true, decide_eq_true_eq] at hbad
    refine iff_of_false (by simp) ?_
    omega
  · rename_i hgood
    simp only [Bool.or_eq_true, decide_eq_true_eq, not_or] at hgood
    have hpos : 0 < monthDays nMonth nYear := monthDays_pos nYear (by omega) (by omega)
    simp only [Bool.and_eq_true, decide_eq_true_eq]
    omega

/-- The loop of `CalculateDayMonth` finds the month of a day, and its day there. -/
theorem dayMonthFrom_spec {nYear fuel nMonth nDayOfYear : Nat} (h1 : 1 ≤ nMonth)
    (hfuel : nMonth + fuel = 13) (hpos : 1 ≤ nDayOfYear)
    (hle : nDayOfYear + monthsBefore nYear (nMonth - 1) ≤ yearDays nYear) :
    let r := dayMonthFrom nYear fuel nMonth nDayOfYear
    (1 ≤ r.1 ∧ r.1 ≤ 12) ∧ (1 ≤ r.2 ∧ r.2 ≤ monthDays r.1 nYear) ∧
      monthsBefore nYear (r.1 - 1) + r.2 = nDayOfYear + monthsBefore nYear (nMonth - 1) := by
  induction fuel generalizing nMonth nDayOfYear with
  | zero =>
    -- no day is left behind the last month
    obtain rfl : nMonth = 13 := by omega
    rw [show (13 : Nat) - 1 = 12 from rfl, monthsBefore_twelve] at hle
    omega
  | succ fuel ih =>
    rw [dayMonthFrom]
    split
    · rename_i hin
      exact ⟨⟨h1, by omega⟩, ⟨hpos, hin⟩, Nat.add_comm _ _⟩
    · rename_i hout
      have hstep : monthsBefore nYear (nMonth + 1 - 1) =
          monthsBefore nYear (nMonth - 1) + monthDays nMonth nYear := by
        obtain ⟨m, rfl⟩ : ∃ m, nMonth = m + 1 := ⟨nMonth - 1, by omega⟩
        rfl
      have hrest := @ih (nMonth + 1) (nDayOfYear - monthDays nMonth nYear) (by omega) (by omega)
        (by omega) (by rw [hstep]; omega)
      obtain ⟨hmonth, hday, hsum⟩ := hrest
      exact ⟨hmonth, hday, by rw [hsum, hstep]; omega⟩

theorem calculateDayMonth_spec {nYear nDayOfYear : Nat} (h1 : 1 ≤ nYear) (h9999 : nYear ≤ 9999)
    (hpos : 1 ≤ nDayOfYear) (hle : nDayOfYear ≤ yearDays nYear) :
    isDateValid nYear (calculateDayMonth nDayOfYear nYear).1
        (calculateDayMonth nDayOfYear nYear).2 = true ∧
      monthsBefore nYear ((calculateDayMonth nDayOfYear nYear).1 - 1) +
        (calculateDayMonth nDayOfYear nYear).2 = nDayOfYear := by
  have hcalc : calculateDayMonth nDayOfYear nYear = dayMonthFrom nYear 12 1 nDayOfYear := by
    rw [calculateDayMonth, if_neg, if_neg]
    · rw [yearDays] at hle
      omega
    · simp only [Bool.or_eq_true, decide_eq_true_eq, not_or]
      omega
  obtain ⟨hmonth, hday, hsum⟩ :=
    @dayMonthFrom_spec nYear 12 1 nDayOfYear (Nat.le_refl 1) rfl hpos (by
      rw [Nat.sub_self, monthsBefore]
      omega)
  rw [hcalc, isDateValid_iff]
  exact ⟨⟨⟨h1, h9999⟩, hmonth, hday⟩, by rw [hsum, Nat.sub_self, monthsBefore, Nat.add_zero]⟩

/-! ### Dates and their day -/

/-- The place of a date in its year, from 0 on. -/
def dayOfYear (nYear nMonth nDay : Nat) : Nat := monthsBefore nYear (nMonth - 1) + (nDay - 1)

theorem dayOfYear_lt {nYear nMonth nDay : Nat} (h : isDateValid nYear nMonth nDay = true) :
    dayOfYear nYear nMonth nDay < yearDays nYear := by
  obtain ⟨-, ⟨h1, h12⟩, hpos, hle⟩ := (isDateValid_iff _ _ _).mp h
  have hmono := monthsBefore_mono nYear h12
  rw [monthsBefore_twelve] at hmono
  obtain ⟨m, rfl⟩ : ∃ m, nMonth = m + 1 := ⟨nMonth - 1, by omega⟩
  rw [monthsBefore] at hmono
  rw [dayOfYear, Nat.add_sub_cancel]
  omega

theorem getDayOfYear_eq {nYear nMonth nDay : Nat} (h : isDateValid nYear nMonth nDay = true) :
    getDayOfYear nYear nMonth nDay = dayOfYear nYear nMonth nDay := by
  obtain ⟨-, ⟨h1, h12⟩, -⟩ := (isDateValid_iff _ _ _).mp h
  rw [getDayOfYear, h, Bool.not_true, if_neg Bool.false_ne_true, dayOfYear,
    monthsBefore_eq nYear (by omega)]
  have hmarch : (decide (nMonth > 2)) = decide (nMonth - 1 ≥ 2) := by
    rw [decide_eq_decide]
    omega
  rw [hmarch]
  omega

/-- The day of a date, counted from the first day of year 1. -/
theorem getAbsoluteDay_eq {nYear nMonth nDay : Nat} (h : isDateValid nYear nMonth nDay = true) :
    getAbsoluteDay nYear nMonth nDay = (yearStart nYear + dayOfYear nYear nMonth nDay : Nat) := by
  rw [getAbsoluteDay, h, Bool.not_true, if_neg Bool.false_ne_true, yearStart, dayOfYear]
  dsimp only
  omega

/-- The day of a date, from 0 on. -/
def absoluteDay (nYear nMonth nDay : Nat) : Nat := yearStart nYear + dayOfYear nYear nMonth nDay

theorem absoluteDay_lt {nYear nMonth nDay : Nat} (h : isDateValid nYear nMonth nDay = true) :
    absoluteDay nYear nMonth nDay < 3652059 := by
  have hday := dayOfYear_lt h
  obtain ⟨⟨h1, h9999⟩, -⟩ := (isDateValid_iff _ _ _).mp h
  have hle : yearStart nYear + yearDays nYear ≤ yearStart 10000 := yearStart_le h1 (by omega)
  rw [show yearStart 10000 = 3652059 by decide] at hle
  rw [absoluteDay]
  omega

/-- **A later date has a later day.** -/
theorem absoluteDay_mono {y m d y' m' d' : Nat} (h : isDateValid y m d = true)
    (h' : isDateValid y' m' d' = true)
    (hlt : y < y' ∨ y = y' ∧ (m < m' ∨ m = m' ∧ d < d')) :
    absoluteDay y m d < absoluteDay y' m' d' := by
  have hday := dayOfYear_lt h
  obtain ⟨⟨hy, -⟩, ⟨hm, -⟩, hd, hdle⟩ := (isDateValid_iff _ _ _).mp h
  obtain ⟨-, ⟨hm', -⟩, hd', -⟩ := (isDateValid_iff _ _ _).mp h'
  rw [absoluteDay, absoluteDay]
  rcases hlt with hlt | ⟨rfl, hlt | ⟨rfl, hlt⟩⟩
  · have hle := yearStart_le hy hlt
    omega
  · -- the days of a month are fewer than those to the next one
    have hmono := monthsBefore_mono y (show m ≤ m' - 1 by omega)
    obtain ⟨k, rfl⟩ : ∃ k, m = k + 1 := ⟨m - 1, by omega⟩
    rw [monthsBefore] at hmono
    rw [dayOfYear, dayOfYear, Nat.add_sub_cancel]
    omega
  · rw [dayOfYear, dayOfYear]
    omega

theorem date_unique {y m d y' m' d' : Nat} (h : isDateValid y m d = true)
    (h' : isDateValid y' m' d' = true) (heq : absoluteDay y m d = absoluteDay y' m' d') :
    y = y' ∧ m = m' ∧ d = d' := by
  have hlt := mt (absoluteDay_mono h h') (by omega)
  have hgt := mt (absoluteDay_mono h' h) (by omega)
  omega

/-- The date that the ticks give is the one of their day. -/
theorem getDateTime_date {nTicks : Nat} (h : nTicks ≤ xMaxValueTicks) :
    isDateValid (getDateTime nTicks).nYear (getDateTime nTicks).nMonth
        (getDateTime nTicks).nDay = true ∧
      absoluteDay (getDateTime nTicks).nYear (getDateTime nTicks).nMonth
        (getDateTime nTicks).nDay = getDays nTicks ∧
      dayOfYear (getDateTime nTicks).nYear (getDateTime nTicks).nMonth
        (getDateTime nTicks).nDay + 1 = getDayOfYearOf nTicks := by
  obtain ⟨h1, hpos, hle, hsum⟩ := ticksToYearAndDayOfYear_spec nTicks
  have h9999 : (ticksToYearAndDayOfYear nTicks).1 ≤ 9999 := by
    by_contra hgt
    have hle' : yearStart 9999 + yearDays 9999 ≤ yearStart (ticksToYearAndDayOfYear nTicks).1 :=
      yearStart_le (by decide) (by omega)
    rw [show yearStart 9999 + yearDays 9999 = 3652059 by decide] at hle'
    rw [getDays, ticksPerDay] at hsum
    rw [xMaxValueTicks] at h
    omega
  obtain ⟨hvalid, hday⟩ := calculateDayMonth_spec h1 h9999 hpos hle
  obtain ⟨-, -, hday1, -⟩ := (isDateValid_iff _ _ _).mp hvalid
  have hdayOfYear : dayOfYear (getDateTime nTicks).nYear (getDateTime nTicks).nMonth
      (getDateTime nTicks).nDay = (ticksToYearAndDayOfYear nTicks).2 - 1 := by
    rw [← hday]
    exact (Nat.add_sub_assoc hday1 _).symm
  refine ⟨hvalid, ?_, ?_⟩
  · rw [absoluteDay, hdayOfYear]
    exact hsum
  · rw [hdayOfYear, getDayOfYearOf]
    omega

/-! ### Ticks -/

/-- The ticks of a time of day. -/
def timeTicks (nHours nMinutes nSeconds nMilliSeconds : Nat) : Nat :=
  ((nHours * 3600 + nMinutes * 60 + nSeconds) * 1000 + nMilliSeconds) * 10000

/-- The ticks of a date and a time of day. -/
def DateFields.ticks (f : DateFields) : Nat :=
  ticksPerDay * absoluteDay f.nYear f.nMonth f.nDay +
    timeTicks f.nHours f.nMinutes f.nSeconds f.nMilliSeconds

theorem setFrom_eq {nDays nHours nMinutes nSeconds nMilliSeconds : Nat} (hdays : nDays < 3652059)
    (hh : nHours ≤ 23) (hm : nMinutes ≤ 59) (hs : nSeconds ≤ 59) (hms : nMilliSeconds ≤ 999) :
    setFrom nDays nHours nMinutes nSeconds nMilliSeconds =
      .ok (ticksPerDay * nDays + timeTicks nHours nMinutes nSeconds nMilliSeconds) := by
  have hvalid : ¬ (nHours > 23 || nMinutes > 59 || nSeconds > 59 || nMilliSeconds > 999) = true := by
    simp only [Bool.or_eq_true, decide_eq_true_eq]
    omega
  have hlt : ticksPerDay * nDays + timeTicks nHours nMinutes nSeconds nMilliSeconds < 2 ^ 63 := by
    rw [ticksPerDay, timeTicks]
    omega
  have hsum : (timeTicks nHours nMinutes nSeconds nMilliSeconds + ticksPerDay * nDays) % 2 ^ 64 =
      ticksPerDay * nDays + timeTicks nHours nMinutes nSeconds nMilliSeconds := by
    omega
  rw [setFrom, calculateTicks, if_neg hvalid]
  rw [timeTicks] at hsum hlt
  dsimp only
  rw [hsum, if_neg (by omega)]
  rfl

theorem time_le (nTicks : Nat) : getHours nTicks ≤ 23 ∧ getMinutes nTicks ≤ 59 ∧
    getSeconds nTicks ≤ 59 ∧ getMilliSeconds nTicks ≤ 999 := by
  rw [getHours, getMinutes, getSeconds, getMilliSeconds, ticksPerDay, ticksPerHour, ticksPerMinute,
    ticksPerSecond, ticksPerMillisecond]
  omega

theorem timeTicks_lt {nHours nMinutes nSeconds nMilliSeconds : Nat} (hh : nHours ≤ 23)
    (hm : nMinutes ≤ 59) (hs : nSeconds ≤ 59) (hms : nMilliSeconds ≤ 999) :
    timeTicks nHours nMinutes nSeconds nMilliSeconds < ticksPerDay := by
  rw [timeTicks, ticksPerDay]
  omega

/-- **A valid date and time is stored as its ticks**, whatever was there. -/
theorem setDateTime_eq {f : DateFields} (h : f.Valid) (nTicks : Nat) :
    setDateTime nTicks f = .ok f.ticks := by
  have habs := getAbsoluteDay_eq h.date
  have hlt := absoluteDay_lt h.date
  obtain ⟨hh, hm, hs, -⟩ := time_le nTicks
  have hdate : setDate nTicks f.nYear f.nMonth f.nDay =
      .ok (ticksPerDay * absoluteDay f.nYear f.nMonth f.nDay +
        timeTicks (getHours nTicks) (getMinutes nTicks) (getSeconds nTicks) 0) := by
    rw [setDate, habs, if_neg (by omega), Int.toNat_natCast]
    exact setFrom_eq hlt hh hm hs (by omega)
  have hdays : getDays (ticksPerDay * absoluteDay f.nYear f.nMonth f.nDay +
      timeTicks (getHours nTicks) (getMinutes nTicks) (getSeconds nTicks) 0) =
        absoluteDay f.nYear f.nMonth f.nDay := by
    have htime := timeTicks_lt hh hm hs (Nat.zero_le 999)
    rw [getDays, Nat.mul_add_div (by decide), Nat.div_eq_of_lt htime, Nat.add_zero]
  rw [setDateTime, hdate]
  dsimp only
  rw [setTime, hdays, setFrom_eq hlt h.hours h.minutes h.seconds h.milliSeconds]
  rfl

theorem ticks_le {f : DateFields} (h : f.Valid) : f.ticks ≤ xMaxValueTicks := by
  have hlt := absoluteDay_lt h.date
  have htime := timeTicks_lt h.hours h.minutes h.seconds h.milliSeconds
  rw [DateFields.ticks, xMaxValueTicks]
  rw [ticksPerDay] at htime ⊢
  omega

/-- The parts of the time of day. -/
theorem time_of_ticks {nDays nHours nMinutes nSeconds nMilliSeconds nTicks : Nat}
    (hh : nHours ≤ 23) (hm : nMinutes ≤ 59) (hs : nSeconds ≤ 59) (hms : nMilliSeconds ≤ 999)
    (h : nTicks = ticksPerDay * nDays + timeTicks nHours nMinutes nSeconds nMilliSeconds) :
    getDays nTicks = nDays ∧ getHours nTicks = nHours ∧ getMinutes nTicks = nMinutes ∧
      getSeconds nTicks = nSeconds ∧ getMilliSeconds nTicks = nMilliSeconds := by
  rw [getDays, getHours, getMinutes, getSeconds, getMilliSeconds]
  rw [timeTicks] at h
  rw [ticksPerDay] at h ⊢
  rw [ticksPerHour, ticksPerMinute, ticksPerSecond, ticksPerMillisecond]
  omega

/-- The ticks of the parts are all but the last digits. -/
theorem ticks_of_time (nTicks : Nat) :
    ticksPerDay * getDays nTicks + timeTicks (getHours nTicks) (getMinutes nTicks)
      (getSeconds nTicks) (getMilliSeconds nTicks) = nTicks - nTicks % ticksPerMillisecond := by
  rw [getDays, timeTicks, getHours, getMinutes, getSeconds, getMilliSeconds, ticksPerDay,
    ticksPerHour, ticksPerMinute, ticksPerSecond, ticksPerMillisecond]
  omega

/-- **The fields that were stored are given back.** -/
theorem getDateTime_ticks {f : DateFields} (h : f.Valid) : getDateTime f.ticks = f := by
  obtain ⟨hvalid, hday, -⟩ := getDateTime_date (ticks_le h)
  obtain ⟨hdays, hhours, hminutes, hseconds, hms⟩ :=
    time_of_ticks h.hours h.minutes h.seconds h.milliSeconds rfl
  obtain ⟨hy, hm, hd⟩ := date_unique hvalid h.date (hday.trans hdays)
  cases f
  exact DateFields.mk.injEq .. ▸ ⟨hy, hm, hd, hhours, hminutes, hseconds, hms⟩

theorem valid_getDateTime {nTicks : Nat} (h : nTicks ≤ xMaxValueTicks) :
    (getDateTime nTicks).Valid := by
  obtain ⟨hh, hm, hs, hms⟩ := time_le nTicks
  exact ⟨(getDateTime_date h).1, hh, hm, hs, hms⟩

theorem ticks_getDateTime {nTicks : Nat} (h : nTicks ≤ xMaxValueTicks) :
    (getDateTime nTicks).ticks = nTicks - nTicks % ticksPerMillisecond := by
  rw [DateFields.ticks, (getDateTime_date h).2.1]
  exact ticks_of_time nTicks

/-- **Later fields have more ticks.** -/
theorem ticks_lt {f g : DateFields} (hf : f.Valid) (hg : g.Valid) (h : f.toList < g.toList) :
    f.ticks < g.ticks := by
  have htime := timeTicks_lt hf.hours hf.minutes hf.seconds hf.milliSeconds
  have hmono := absoluteDay_mono hf.date hg.date
  have hms := hf.milliSeconds
  have hs := hf.seconds
  have hm := hf.minutes
  simp only [DateFields.toList, List.cons_lt_cons_iff, List.not_lt_nil, and_false, or_false] at h
  rw [DateFields.ticks, DateFields.ticks]
  by_cases hdate : f.nYear < g.nYear ∨ f.nYear = g.nYear ∧
      (f.nMonth < g.nMonth ∨ f.nMonth = g.nMonth ∧ f.nDay < g.nDay)
  · -- a time of day is less than a day
    have hday := hmono hdate
    rw [ticksPerDay] at htime ⊢
    omega
  · have hsame : f.nYear = g.nYear ∧ f.nMonth = g.nMonth ∧ f.nDay = g.nDay := by omega
    have hlater : timeTicks f.nHours f.nMinutes f.nSeconds f.nMilliSeconds <
        timeTicks g.nHours g.nMinutes g.nSeconds g.nMilliSeconds := by
      rw [timeTicks, timeTicks]
      omega
    rw [hsame.1, hsame.2.1, hsame.2.2]
    omega

/-- The weekday of a date is the one of its day. -/
theorem getDayOfWeek_eq {nYear nMonth nDay : Nat} (h : isDateValid nYear nMonth nDay = true) :
    getDayOfWeek nYear nMonth nDay = (getAbsoluteDay nYear nMonth nDay + 1) % 7 := by
  obtain ⟨⟨h1, -⟩, ⟨hm1, hm12⟩, hd1, -⟩ := (isDateValid_iff _ _ _).mp h
  have hmonth := monthsBefore_eq nYear (show nMonth - 1 ≤ 12 by omega)
  have hsucc := yearStart_succ h1
  rw [yearDays, yearStart, Nat.add_sub_cancel] at hsucc
  have hmarch : decide (nMonth - 1 ≥ 2) = !decide (nMonth ≤ 2) := by
    rw [← decide_not, decide_eq_decide]
    omega
  rw [getAbsoluteDay_eq h, getDayOfWeek, h, Bool.not_true, if_neg Bool.false_ne_true, dayOfYear,
    hmonth, hmarch, Nat.mul_comm nYear 365]
  dsimp only
  rw [hsucc]
  cases isLeapYear nYear <;> cases decide (nMonth ≤ 2) <;> simp <;> omega

/-! ### The calendar -/

/-- **Dates and ticks stand for each other.** -/
theorem calendar_bijection :
    (∀ (f : DateFields) (nTicks : Nat), f.Valid → ∃ n, setDateTime nTicks f = .ok n ∧
      n ≤ xMaxValueTicks ∧ getDateTime n = f) ∧
    (∀ n ≤ xMaxValueTicks, (getDateTime n).Valid ∧ ∀ nTicks,
      setDateTime nTicks (getDateTime n) = .ok (n - n % ticksPerMillisecond)) ∧
    (∀ (f g : DateFields) (nTicks nTicks' m n : Nat), f.Valid → g.Valid →
      setDateTime nTicks f = .ok m → setDateTime nTicks' g = .ok n → f.toList < g.toList → m < n) ∧
    (∀ n ≤ xMaxValueTicks, getDayOfYear (getDateTime n).nYear (getDateTime n).nMonth
      (getDateTime n).nDay + 1 = getDayOfYearOf n) ∧
    ∀ nYear nMonth nDay, isDateValid nYear nMonth nDay = true →
      getDayOfWeek nYear nMonth nDay = (getAbsoluteDay nYear nMonth nDay + 1) % 7 := by
  refine ⟨?_, ?_, ?_, ?_, fun nYear nMonth nDay h => getDayOfWeek_eq h⟩
  · intro f nTicks h
    exact ⟨f.ticks, setDateTime_eq h nTicks, ticks_le h, getDateTime_ticks h⟩
  · intro n h
    refine ⟨valid_getDateTime h, fun nTicks => ?_⟩
    rw [setDateTime_eq (valid_getDateTime h), ticks_getDateTime h]
  · intro f g nTicks nTicks' m n hf hg hm hn hlt
    rw [setDateTime_eq hf] at hm
    rw [setDateTime_eq hg] at hn
    obtain rfl := Except.ok.inj hm
    obtain rfl := Except.ok.inj hn
    exact ticks_lt hf hg hlt
  · intro n h
    obtain ⟨hvalid, -, hday⟩ := getDateTime_date h
    rw [getDayOfYear_eq hvalid, ← hday]
    rfl

/-- The leap day of 2000, at its last millisecond. -/
theorem calendar_leapDay : ∃ n, setDateTime 0 ⟨2000, 2, 29, 23, 59, 59, 999⟩ = .ok n ∧
    n ≤ xMaxValueTicks ∧ getDateTime n = ⟨2000, 2, 29, 23, 59, 59, 999⟩ :=
  calendar_bijection.1 _ 0 ⟨by decide, by decide, by decide, by decide, by decide⟩

end MxLib.DateTime
