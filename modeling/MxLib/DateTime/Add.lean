import MxLib.DateTime.Setters
import MxLib.DateTime.TimeSpan

/-!
# Adding to a date

`CDateTime::Add` moves years and months by the numbers of the date, and everything else by
ticks.

A month is moved by its number from 0 on.  Where it leaves the year upwards one is added to
the number again, and where it stays in the year too, but not where it leaves the year
downwards.  What is found is stored with `SetDate`, so the fraction of a second is lost
(`movesMonths_iff`).

The ticks of a number of days or seconds are the product with the milliseconds as a
`double`, and then with the ticks of one as a `LONGLONG`, which wraps around: a product of
more than 63 bits can be a date again (`addsExactly_iff`).
-/

namespace MxLib.DateTime

inductive EUnits
  | year | month | day | hours | minutes | seconds | milliseconds | ticks
deriving DecidableEq

/-- `GetDaysInMonth`, for any numbers. -/
def getDaysInMonthOf (nMonth nYear : Int) : Int :=
  if nYear < 1 ∨ nMonth < 1 then 0 else getDaysInMonth nMonth.toNat nYear.toNat

/-- The month that is moved by a number of months: what is left to do, in years, and the
number of the month. -/
def moveMonth (nMonth : Nat) (nCount : Int) : EUnits × Int × Int :=
  let nMonth64 := wrapLongLong (nMonth + wrapLongLong (nCount - 1))
  if nMonth64 < 0 then
    let nCount := (nMonth64 + 1).tdiv 12 - 1
    (.year, nCount, nMonth64 - nCount * 12)
  else if nMonth64 > 11 then (.year, nMonth64.tdiv 12, nMonth64.tmod 12 + 1)
  else (.month, 0, nMonth64 + 1)

/-- `SetDate` at the end, with the last day of the month at most. -/
def storeMonth (nTicks : Nat) (nYear nMonth : Int) : HResult × Nat :=
  let nDay : Int := (getDateTime nTicks).nDay
  let k := getDaysInMonthOf nMonth nYear
  if k < 1 then (.mxArithmeticOverflow, nTicks)
  else setDateOf nTicks nYear nMonth (if nDay > k then k else nDay)

/-- The year is moved if it is still to be done, and the date is stored. -/
def storeYear (nTicks : Nat) : EUnits × Int × Int → HResult × Nat
  | (nUnits, nCount, nMonth) =>
    let nYear : Int := (getDateTime nTicks).nYear
    if nUnits = .year ∧ nCount ≠ 0 then
      let nYear64 := wrapLongLong (nYear + nCount)
      if nYear64 < 1 ∨ nYear64 > 9999 then (.mxArithmeticOverflow, nTicks)
      else storeMonth nTicks nYear64 nMonth
    else storeMonth nTicks nYear nMonth

/-- What `Add` does with years and months. -/
def addToDate (nTicks : Nat) (nCount : Int) (nUnits : EUnits) : HResult × Nat :=
  let nMonth := (getDateTime nTicks).nMonth
  storeYear nTicks
    (if nUnits = .month ∧ nCount ≠ 0 then moveMonth nMonth nCount else (nUnits, nCount, nMonth))

/-- `(double)n`; the sign is kept apart. -/
def toDoubleSigned (n : Int) : Int := if n < 0 then -(toDouble n.natAbs : Int) else toDouble n.natAbs

/-- `(LONGLONG)nValue`, of a `double` without a fraction. -/
def ofDoubleSigned (nValue : Int) : Int :=
  if -2 ^ 63 ≤ nValue ∧ nValue < 2 ^ 63 then nValue else -2 ^ 63

/-- `CTimeSpan::SetFrom(nValue, nTickMultiplicator)`, with the ticks of the span. -/
def setFromDoubleSigned (nValue : Int) (nTickMultiplicator : Nat) : Int :=
  wrapLongLong
    (ofDoubleSigned (toDoubleSigned (nValue * (nTickMultiplicator / ticksPerMillisecond : Nat))) *
      ticksPerMillisecond)

/-- The ticks of a unit that is not a year or a month. -/
def EUnits.nTicks : EUnits → Nat
  | .day => ticksPerDay
  | .hours => ticksPerHour
  | .minutes => ticksPerMinute
  | .seconds => ticksPerSecond
  | .milliseconds => ticksPerMillisecond
  | .ticks => 1
  | .year | .month => 0

/-- What `Add` does with a time span. -/
def addTimeSpan (nTicks : Nat) (cTs : Int) : HResult × Nat :=
  match addTicks nTicks cTs with
  | .error hRes => (hRes, nTicks)
  | .ok cNewTicks =>
    if cNewTicks < 0 ∨ cNewTicks > xMaxValueTicks then (.mxArithmeticOverflow, nTicks)
    else (.sOk, cNewTicks.toNat)

/-- `Add(nCount, nUnits)`: the code, and the ticks that are stored afterwards. -/
def add (nTicks : Nat) (nCount : Int) (nUnits : EUnits) : HResult × Nat :=
  match nUnits with
  | .year | .month => addToDate nTicks nCount nUnits
  | .day | .hours | .minutes | .seconds | .milliseconds =>
    addTimeSpan nTicks (setFromDoubleSigned (toDoubleSigned nCount) nUnits.nTicks)
  | .ticks => addTimeSpan nTicks nCount

/-- A `LONGLONG`. -/
def IsLongLong (n : Int) : Prop := -2 ^ 63 ≤ n ∧ n < 2 ^ 63

/-! ### Years and months -/

/-- The months from the first one of year 0 on to the one of the date, moved by a number of
months. -/
def monthIndex (nTicks : Nat) (nMonths : Int) : Int :=
  12 * ((getDateTime nTicks).nYear : Int) + ((getDateTime nTicks).nMonth : Int) - 1 + nMonths

/-- The months a count stands for. -/
def EUnits.nMonths : EUnits → Int
  | .year => 12
  | .month => 1
  | _ => 0

/-- The month is moved and the time of day is kept; the day is the last one of the month at
most.  A year that does not exist is an overflow. -/
def MovesMonths (nTicks : Nat) (nCount : Int) (nUnits : EUnits) : Prop :=
  let nIndex := monthIndex nTicks (nCount * nUnits.nMonths)
  let nYear := nIndex / 12
  let nMonth := nIndex % 12 + 1
  if 1 ≤ nYear ∧ nYear ≤ 9999 then
    ∃ nNewTicks, add nTicks nCount nUnits = (.sOk, nNewTicks) ∧
      HasDate nNewTicks nYear nMonth
        (min ((getDateTime nTicks).nDay : Int) (getDaysInMonthOf nMonth nYear)) ∧
      nNewTicks % ticksPerDay = nTicks % ticksPerDay
  else add nTicks nCount nUnits = (.mxArithmeticOverflow, nTicks)

theorem wrapLongLong_of_isLongLong {n : Int} (h : IsLongLong n) : wrapLongLong n = n := by
  obtain ⟨hlo, hhi⟩ := h
  exact Int.bmod_eq_of_le (by omega) (by omega)

theorem isLongLong_wrapLongLong (n : Int) : IsLongLong (wrapLongLong n) := by
  have hlo := Int.le_bmod (x := n) (m := 2 ^ 64) (by decide)
  have hhi := Int.bmod_lt (x := n) (m := 2 ^ 64) (by decide)
  rw [IsLongLong, wrapLongLong]
  omega

section Months

variable {nTicks : Nat}

/-- The month exists, in a year of the calendar. -/
def IsMonth (nYear nMonth : Int) : Prop := (1 ≤ nYear ∧ nYear ≤ 9999) ∧ 1 ≤ nMonth ∧ nMonth ≤ 12

theorem date_bounds (h : nTicks ≤ xMaxValueTicks) :
    IsMonth (getDateTime nTicks).nYear (getDateTime nTicks).nMonth ∧
      1 ≤ (getDateTime nTicks).nDay := by
  obtain ⟨⟨hy, hy'⟩, ⟨hm, hm'⟩, hd, -⟩ := (isDateValid_iff _ _ _).mp (getDateTime_date h).1
  refine ⟨⟨⟨?_, ?_⟩, ?_, ?_⟩, hd⟩ <;> omega

/-- The days of a month that exists. -/
theorem getDaysInMonthOf_eq {nYear nMonth : Int} (h : IsMonth nYear nMonth) :
    getDaysInMonthOf nMonth nYear = monthDays nMonth.toNat nYear.toNat ∧
      1 ≤ getDaysInMonthOf nMonth nYear := by
  obtain ⟨⟨hy, hy'⟩, hm, hm'⟩ := h
  have hrange : ¬ (nYear.toNat < 1 || nYear.toNat > 9999 || nMonth.toNat < 1 ||
      nMonth.toNat > 12) = true := by
    simp only [Bool.or_eq_true, decide_eq_true_eq]
    omega
  have hpos := @monthDays_pos nYear.toNat nMonth.toNat (by omega) (by omega)
  rw [getDaysInMonthOf, if_neg (by omega), getDaysInMonth, if_neg hrange]
  exact ⟨rfl, by omega⟩

/-- **The date is stored**, and the fraction of the second is lost. -/
theorem storeMonth_spec (h : nTicks ≤ xMaxValueTicks) {nYear nMonth : Int}
    (hmonth : IsMonth nYear nMonth) :
    ∃ nNewTicks, storeMonth nTicks nYear nMonth = (.sOk, nNewTicks) ∧
      HasDate nNewTicks nYear nMonth
        (min ((getDateTime nTicks).nDay : Int) (getDaysInMonthOf nMonth nYear)) ∧
      nNewTicks % ticksPerDay + nTicks % ticksPerSecond = nTicks % ticksPerDay := by
  have hday := (date_bounds h).2
  obtain ⟨hk, hpos⟩ := getDaysInMonthOf_eq hmonth
  obtain ⟨⟨hy, hy'⟩, hm, hm'⟩ := hmonth
  have hmin : (if ((getDateTime nTicks).nDay : Int) > getDaysInMonthOf nMonth nYear then
      getDaysInMonthOf nMonth nYear else (getDateTime nTicks).nDay) =
        min ((getDateTime nTicks).nDay : Int) (getDaysInMonthOf nMonth nYear) := by
    split <;> omega
  have hdate : isDate nYear nMonth
      (min ((getDateTime nTicks).nDay : Int) (getDaysInMonthOf nMonth nYear)) = true := by
    simp only [isDate, Bool.and_eq_true, decide_eq_true_eq, isDateValid_iff]
    omega
  obtain ⟨-, hhas, hmod⟩ := dateTicks_spec hdate nTicks
  refine ⟨_, ?_, hhas, hmod⟩
  rw [storeMonth, if_neg (by omega), hmin, setDateOf_eq, if_pos hdate]

/-- A month with the number zero is an overflow. -/
theorem storeMonth_zero (nTicks : Nat) (nYear : Int) :
    storeMonth nTicks nYear 0 = (.mxArithmeticOverflow, nTicks) := by
  have hk : getDaysInMonthOf 0 nYear = 0 := if_pos (Or.inr (by decide))
  rw [storeMonth, hk]
  rfl

/-! ### What is moved -/

/-- The year is moved, and an overflow of the `LONGLONG` is one of the years. -/
theorem storeYear_eq (h : nTicks ≤ xMaxValueTicks) {nCount : Int} (hcount : IsLongLong nCount)
    (nMonth : Int) :
    storeYear nTicks (.year, nCount, nMonth) =
      if 1 ≤ (getDateTime nTicks).nYear + nCount ∧ (getDateTime nTicks).nYear + nCount ≤ 9999 then
        storeMonth nTicks ((getDateTime nTicks).nYear + nCount) nMonth
      else (.mxArithmeticOverflow, nTicks) := by
  obtain ⟨⟨⟨hy, hy'⟩, -⟩, -⟩ := date_bounds h
  obtain ⟨hlo, hhi⟩ := hcount
  rw [storeYear]
  dsimp only
  by_cases hzero : nCount = 0
  · subst hzero
    rw [if_neg (by simp), Int.add_zero, if_pos ⟨hy, hy'⟩]
  · rw [if_pos ⟨rfl, hzero⟩]
    by_cases hover : (getDateTime nTicks).nYear + nCount < 2 ^ 63
    · rw [wrapLongLong_of_isLongLong ⟨by omega, hover⟩]
      split_ifs <;> first | rfl | omega
    · have hwrap : wrapLongLong ((getDateTime nTicks).nYear + nCount) =
          (getDateTime nTicks).nYear + nCount - 2 ^ 64 := wrapLongLong_of_ge (by omega) (by omega)
      rw [hwrap, if_pos (by omega), if_neg (by omega)]

/-- The division of the source rounds to zero. -/
theorem tdiv_twelve {n : Int} (h : n < 0) : (n + 1).tdiv 12 - 1 = n / 12 := by
  obtain ⟨k, hk⟩ : ∃ k : Int, k = -(n + 1) := ⟨_, rfl⟩
  have hn : n + 1 = -k := by omega
  rw [hn, Int.neg_tdiv, Int.tdiv_eq_ediv_of_nonneg (by omega)]
  omega

/-- The month that is moved, by its number from 0 on. -/
theorem moveMonth_eq {nMonth : Nat} {nCount n : Int} (h1 : 1 ≤ nMonth) (h12 : nMonth ≤ 12)
    (hcount : IsLongLong nCount) (hn : n = nMonth - 1 + nCount) :
    moveMonth nMonth nCount =
      if 2 ^ 63 ≤ n then (.year, (n - 2 ^ 64) / 12, (n - 2 ^ 64) % 12)
      else if n < 0 then (.year, n / 12, n % 12)
      else if n > 11 then (.year, n / 12, n % 12 + 1)
      else (.month, 0, n + 1) := by
  obtain ⟨hlo, hhi⟩ := hcount
  have hwrap : wrapLongLong (nMonth + wrapLongLong (nCount - 1)) = wrapLongLong n := by
    rw [wrapLongLong, wrapLongLong, Int.add_bmod_bmod, hn, wrapLongLong]
    congr 1
    omega
  have hdown : ∀ w : Int, w < 0 → w - ((w + 1).tdiv 12 - 1) * 12 = w % 12 := by
    intro w hw
    rw [tdiv_twelve hw]
    omega
  rw [moveMonth, hwrap]
  by_cases hover : 2 ^ 63 ≤ n
  · rw [if_pos hover, wrapLongLong_of_ge hover (by omega), if_pos (by omega)]
    dsimp only
    rw [hdown _ (by omega), tdiv_twelve (by omega)]
  · rw [if_neg hover, wrapLongLong_of_isLongLong ⟨by omega, by omega⟩]
    by_cases hneg : n < 0
    · rw [if_pos hneg, if_pos hneg]
      dsimp only
      rw [hdown n hneg, tdiv_twelve hneg]
    · rw [if_neg hneg, if_neg hneg, Int.tdiv_eq_ediv_of_nonneg (by omega),
        Int.tmod_eq_emod_of_nonneg (by omega)]

/-- **What `Add` does with a number of months**: the month is one too small where the year is
left downwards. -/
theorem addMonths_eq (h : nTicks ≤ xMaxValueTicks) {nCount : Int} (hcount : IsLongLong nCount) :
    addToDate nTicks nCount .month =
      if 1 ≤ monthIndex nTicks nCount / 12 ∧ monthIndex nTicks nCount / 12 ≤ 9999 then
        storeMonth nTicks (monthIndex nTicks nCount / 12)
          (monthIndex nTicks nCount % 12 +
            if ((getDateTime nTicks).nMonth : Int) - 1 + nCount < 0 then 0 else 1)
      else (.mxArithmeticOverflow, nTicks) := by
  obtain ⟨⟨⟨hy, hy'⟩, hm, hm'⟩, -⟩ := date_bounds h
  have hyear := fun c hc => @storeYear_eq nTicks h c hc
  have hmove := moveMonth_eq (by omega) (by omega) hcount
    (rfl : ((getDateTime nTicks).nMonth : Int) - 1 + nCount = _)
  have hstay : ∀ nMonth, storeYear nTicks (.month, 0, nMonth) =
      storeMonth nTicks (getDateTime nTicks).nYear nMonth := by
    intro nMonth
    rw [storeYear]
    exact if_neg (by simp)
  obtain ⟨hlo, hhi⟩ := hcount
  rw [addToDate, monthIndex]
  generalize (getDateTime nTicks).nYear = y at hy hy' hyear hstay ⊢
  generalize (getDateTime nTicks).nMonth = m at hm hm' hmove ⊢
  have hquot : (12 * (y : Int) + m - 1 + nCount) / 12 = y + (m - 1 + nCount) / 12 := by omega
  have hrem : (12 * (y : Int) + m - 1 + nCount) % 12 = (m - 1 + nCount) % 12 := by omega
  rw [hquot, hrem]
  by_cases hzero : nCount = 0
  · subst hzero
    rw [if_neg (by simp), hstay, if_pos (by omega), if_neg (by omega)]
    congr 1 <;> omega
  · rw [if_pos ⟨rfl, hzero⟩, hmove]
    have hn : (m : Int) - 1 + nCount < 2 ^ 63 + 11 := by omega
    have hn' : -2 ^ 63 ≤ (m : Int) - 1 + nCount := by omega
    generalize (m : Int) - 1 + nCount = n at hn hn' ⊢
    by_cases hover : 2 ^ 63 ≤ n
    · rw [if_pos hover, hyear _ ⟨by omega, by omega⟩, if_neg (by omega), if_neg (by omega)]
    rw [if_neg hover]
    by_cases hneg : n < 0
    · rw [if_pos hneg, hyear _ ⟨by omega, by omega⟩, if_pos hneg, Int.add_zero]
    rw [if_neg hneg, if_neg hneg]
    by_cases hup : n > 11
    · rw [if_pos hup, hyear _ ⟨by omega, by omega⟩]
    · rw [if_neg hup, hstay, if_pos (by omega)]
      congr 1 <;> omega

theorem addYears_eq (h : nTicks ≤ xMaxValueTicks) {nCount : Int} (hcount : IsLongLong nCount) :
    addToDate nTicks nCount .year =
      if 1 ≤ monthIndex nTicks (nCount * 12) / 12 ∧ monthIndex nTicks (nCount * 12) / 12 ≤ 9999 then
        storeMonth nTicks (monthIndex nTicks (nCount * 12) / 12)
          (monthIndex nTicks (nCount * 12) % 12 + 1)
      else (.mxArithmeticOverflow, nTicks) := by
  obtain ⟨⟨-, hm, hm'⟩, -⟩ := date_bounds h
  have hquot : monthIndex nTicks (nCount * 12) / 12 = (getDateTime nTicks).nYear + nCount := by
    rw [monthIndex]
    omega
  have hrem : monthIndex nTicks (nCount * 12) % 12 + 1 = (getDateTime nTicks).nMonth := by
    rw [monthIndex]
    omega
  rw [hquot, hrem, addToDate, if_neg (by simp), storeYear_eq h hcount]

/-- The year is left downwards by a number of months. -/
def LeavesDown (nTicks : Nat) (nCount : Int) (nUnits : EUnits) : Prop :=
  nUnits = .month ∧ ((getDateTime nTicks).nMonth : Int) - 1 + nCount < 0

instance (nTicks : Nat) (nCount : Int) (nUnits : EUnits) :
    Decidable (LeavesDown nTicks nCount nUnits) :=
  inferInstanceAs (Decidable (_ ∧ _))

theorem addToDate_eq (h : nTicks ≤ xMaxValueTicks) {nCount : Int} (hcount : IsLongLong nCount)
    {nUnits : EUnits} (hunits : nUnits = .year ∨ nUnits = .month) :
    add nTicks nCount nUnits =
      if 1 ≤ monthIndex nTicks (nCount * nUnits.nMonths) / 12 ∧
          monthIndex nTicks (nCount * nUnits.nMonths) / 12 ≤ 9999 then
        storeMonth nTicks (monthIndex nTicks (nCount * nUnits.nMonths) / 12)
          (monthIndex nTicks (nCount * nUnits.nMonths) % 12 +
            if LeavesDown nTicks nCount nUnits then 0 else 1)
      else (.mxArithmeticOverflow, nTicks) := by
  rcases hunits with rfl | rfl
  · have hdown : ¬ LeavesDown nTicks nCount .year := fun hdown => by cases hdown.1
    rw [if_neg hdown]
    exact addYears_eq h hcount
  · have hdown : LeavesDown nTicks nCount .month ↔
        ((getDateTime nTicks).nMonth : Int) - 1 + nCount < 0 := and_iff_right rfl
    rw [EUnits.nMonths, Int.mul_one, if_congr hdown rfl rfl]
    exact addMonths_eq h hcount

/-- **A count of years or months moves the month exactly where no fraction of a second is lost
and the year is not left downwards** by a number of months, or where the year does not exist. -/
theorem movesMonths_iff (h : nTicks ≤ xMaxValueTicks) {nCount : Int} (hcount : IsLongLong nCount)
    {nUnits : EUnits} (hunits : nUnits = .year ∨ nUnits = .month) :
    MovesMonths nTicks nCount nUnits ↔
      (1 ≤ monthIndex nTicks (nCount * nUnits.nMonths) / 12 ∧
        monthIndex nTicks (nCount * nUnits.nMonths) / 12 ≤ 9999 →
      nTicks % ticksPerSecond = 0 ∧ ¬ LeavesDown nTicks nCount nUnits) := by
  have hadd := addToDate_eq h hcount hunits
  rw [MovesMonths]
  generalize monthIndex nTicks (nCount * nUnits.nMonths) = nIndex at hadd ⊢
  have hlo := Int.emod_nonneg nIndex (b := 12) (by decide)
  have hhi := Int.emod_lt_of_pos nIndex (b := 12) (by decide)
  by_cases hyear : 1 ≤ nIndex / 12 ∧ nIndex / 12 ≤ 9999
  · rw [if_pos hyear] at hadd
    rw [if_pos hyear, imp_iff_right hyear]
    by_cases hdown : LeavesDown nTicks nCount nUnits
    · -- the month is one too small, or it is the month zero
      refine iff_of_false ?_ fun hkept => hkept.2 hdown
      rintro ⟨nNewTicks, hok, ⟨-, hmonth, -⟩, -⟩
      rw [if_pos hdown, Int.add_zero] at hadd
      by_cases hzero : nIndex % 12 = 0
      · rw [hzero, storeMonth_zero, hok] at hadd
        cases hadd
      · obtain ⟨t, hstore, ⟨-, hmonth', -⟩, -⟩ :=
          @storeMonth_spec nTicks h (nIndex / 12) (nIndex % 12) ⟨hyear, by omega, by omega⟩
        obtain rfl : nNewTicks = t := (Prod.mk.inj (hok.symm.trans (hadd.trans hstore))).2
        omega
    · rw [if_neg hdown] at hadd
      obtain ⟨t, hstore, hhas, hmod⟩ :=
        @storeMonth_spec nTicks h (nIndex / 12) (nIndex % 12 + 1) ⟨hyear, by omega, by omega⟩
      rw [hadd, hstore]
      constructor
      · rintro ⟨nNewTicks, hok, -, hkept⟩
        obtain rfl : t = nNewTicks := (Prod.mk.inj hok).2
        exact ⟨by omega, hdown⟩
      · rintro ⟨hzero, -⟩
        exact ⟨t, rfl, hhas, by omega⟩
  · rw [if_neg hyear] at hadd
    rw [if_neg hyear, hadd]
    exact iff_of_true rfl fun hin => absurd hin hyear

/-- The last day of January 2000, moved by a month. -/
theorem movesMonths_january : MovesMonths 630848736000000000 1 .month :=
  (movesMonths_iff (by decide) ⟨by decide, by decide⟩ (.inr rfl)).mpr fun _ =>
    ⟨by decide, by decide⟩

/-- A month before the first of January 2000 is not the first of November. -/
theorem not_movesMonths_january : ¬ MovesMonths 630822816000000000 (-1) .month := by
  have hadd : add 630822816000000000 (-1) .month = (.sOk, 630770112000000000) := by decide
  have hyear : 1 ≤ monthIndex 630822816000000000 (-1 * EUnits.month.nMonths) / 12 ∧
      monthIndex 630822816000000000 (-1 * EUnits.month.nMonths) / 12 ≤ 9999 := by decide
  rw [MovesMonths, if_pos hyear, hadd]
  rintro ⟨nNewTicks, hok, ⟨-, hmonth, -⟩, -⟩
  obtain rfl := (Prod.mk.inj hok).2
  revert hmonth
  decide

end Months

/-! ### Time spans -/

section TimeSpans

variable {nTicks : Nat}

/-- The unit is not one of years or months. -/
def EUnits.isDuration (nUnits : EUnits) : Bool := nUnits != .year && nUnits != .month

/-- The ticks go up by the count, and a sum that is out of range is an error that changes
nothing. -/
def AddsExactly (nTicks : Nat) (nCount : Int) (nUnits : EUnits) : Prop :=
  let nSum := nTicks + nCount * nUnits.nTicks
  if 0 ≤ nSum ∧ nSum ≤ xMaxValueTicks then add nTicks nCount nUnits = (.sOk, nSum.toNat)
  else (add nTicks nCount nUnits).1.failed = true ∧ (add nTicks nCount nUnits).2 = nTicks

/-- The count and its milliseconds are below the 53 bits of a `double`; ticks are counted with
all 64 bits. -/
def Countable (nCount : Int) (nUnits : EUnits) : Prop :=
  if nUnits = .ticks then IsLongLong nCount
  else (nCount * (nUnits.nTicks / ticksPerMillisecond : Nat)).natAbs < 2 ^ 53

theorem toDoubleSigned_of_lt {n : Int} (h : n.natAbs < 2 ^ 53) : toDoubleSigned n = n := by
  rw [toDoubleSigned, toDouble_of_lt h]
  split <;> omega

/-- **A time span is put in as its ticks**, if they and their sum fit. -/
theorem addTimeSpan_eq (h : nTicks ≤ xMaxValueTicks) {cTs : Int} (hspan : IsLongLong cTs) :
    addTimeSpan nTicks cTs =
      if 0 ≤ nTicks + cTs ∧ nTicks + cTs ≤ xMaxValueTicks then (.sOk, (nTicks + cTs).toNat)
      else (.mxArithmeticOverflow, nTicks) := by
  obtain ⟨hlo, hhi⟩ := hspan
  have hmax : xMaxValueTicks = 3155378975999999999 := rfl
  rw [addTimeSpan, addTicks, if_pos (by omega)]
  by_cases hover : 2 ^ 63 ≤ nTicks + cTs
  · rw [wrapLongLong_of_ge hover (by omega), if_pos ⟨by omega, by omega⟩, if_neg (by omega)]
  · rw [wrapLongLong_of_isLongLong ⟨by omega, by omega⟩, if_neg (by omega)]
    dsimp only
    by_cases hrange : 0 ≤ nTicks + cTs ∧ nTicks + cTs ≤ xMaxValueTicks
    · rw [if_neg (by omega), if_pos hrange]
    · rw [if_pos (by omega), if_neg hrange]

/-- The span of a count is the product modulo `2 ^ 64`. -/
theorem add_eq_addTimeSpan {nCount : Int} {nUnits : EUnits} (hunits : nUnits.isDuration = true)
    (hcount : Countable nCount nUnits) :
    add nTicks nCount nUnits = addTimeSpan nTicks (wrapLongLong (nCount * nUnits.nTicks)) := by
  by_cases hticks : nUnits = .ticks
  · subst hticks
    have hlong : IsLongLong nCount := hcount
    rw [add, EUnits.nTicks, Nat.cast_one, Int.mul_one, wrapLongLong_of_isLongLong hlong]
  rw [Countable, if_neg hticks] at hcount
  -- the ticks of the unit are whole milliseconds
  obtain ⟨nMs, hpos, hms⟩ : ∃ nMs, 1 ≤ nMs ∧ nUnits.nTicks = nMs * ticksPerMillisecond := by
    cases nUnits with
    | day => exact ⟨86400000, by decide, by decide⟩
    | hours => exact ⟨3600000, by decide, by decide⟩
    | minutes => exact ⟨60000, by decide, by decide⟩
    | seconds => exact ⟨1000, by decide, by decide⟩
    | milliseconds => exact ⟨1, by decide, by decide⟩
    | ticks => exact absurd rfl hticks
    | year | month => cases hunits
  have hquot : nUnits.nTicks / ticksPerMillisecond = nMs := by
    rw [hms, Nat.mul_div_cancel _ (by decide)]
  rw [hquot] at hcount
  have hsmall : nCount.natAbs < 2 ^ 53 := by
    rw [Int.natAbs_mul, Int.natAbs_natCast] at hcount
    exact Nat.lt_of_le_of_lt (Nat.le_mul_of_pos_right _ hpos) hcount
  have hspan : setFromDoubleSigned (toDoubleSigned nCount) nUnits.nTicks =
      wrapLongLong (nCount * nUnits.nTicks) := by
    have hfits : -2 ^ 63 ≤ nCount * (nMs : Int) ∧ nCount * (nMs : Int) < 2 ^ 63 := by omega
    rw [setFromDoubleSigned, toDoubleSigned_of_lt hsmall, hquot, toDoubleSigned_of_lt hcount,
      ofDoubleSigned, if_pos hfits, hms, Nat.cast_mul, Int.mul_assoc]
  rw [← hspan]
  cases nUnits with
  | ticks => exact absurd rfl hticks
  | year | month => cases hunits
  | _ => rfl

/-- **A count is added exactly where its ticks fit into 64 bits**, or where the date with the
ticks that are left is out of range. -/
theorem addsExactly_iff (h : nTicks ≤ xMaxValueTicks) {nCount : Int} {nUnits : EUnits}
    (hunits : nUnits.isDuration = true) (hcount : Countable nCount nUnits) :
    AddsExactly nTicks nCount nUnits ↔
      IsLongLong (nCount * nUnits.nTicks) ∨
        ¬ (0 ≤ nTicks + wrapLongLong (nCount * nUnits.nTicks) ∧
          nTicks + wrapLongLong (nCount * nUnits.nTicks) ≤ xMaxValueTicks) := by
  have hadd := (add_eq_addTimeSpan hunits hcount).trans
    (addTimeSpan_eq h (isLongLong_wrapLongLong (nCount * nUnits.nTicks)))
  rw [AddsExactly]
  generalize nCount * (nUnits.nTicks : Int) = n at hadd ⊢
  by_cases hlong : IsLongLong n
  · refine iff_of_true ?_ (Or.inl hlong)
    rw [wrapLongLong_of_isLongLong hlong] at hadd
    rw [hadd]
    split
    · rfl
    · exact ⟨rfl, rfl⟩
  · -- the sum itself is out of range
    have hout : ¬ (0 ≤ nTicks + n ∧ nTicks + n ≤ xMaxValueTicks) := by
      rw [IsLongLong] at hlong
      rw [xMaxValueTicks] at h ⊢
      omega
    rw [if_neg hout, or_iff_right hlong, hadd]
    constructor
    · rintro ⟨hfail, -⟩ hin
      rw [if_pos hin] at hfail
      cases hfail
    · intro hnot
      rw [if_neg hnot]
      exact ⟨rfl, rfl⟩

/-- The first day of year 1, and the day after it. -/
theorem addsExactly_day : AddsExactly 0 1 .day :=
  (addsExactly_iff (by decide) (by decide) (by rw [Countable, if_neg (by decide)]; decide)).mpr
    (.inl ⟨by decide, by decide⟩)

/-- So many days are a date again. -/
theorem not_addsExactly_days : ¬ AddsExactly 0 21350399 .day := by
  have hadd : (add 0 21350399 .day).1 = .sOk := by decide
  rw [AddsExactly, if_neg (by decide)]
  rintro ⟨hfail, -⟩
  rw [hadd] at hfail
  cases hfail

/-- Seconds that are counted from zero on are those of `addSeconds`. -/
theorem add_seconds (nTicks nCount : Nat) : add nTicks nCount .seconds =
    match addSeconds nTicks nCount with
    | .error hRes => (hRes, nTicks)
    | .ok cNewTicks => (.sOk, cNewTicks.toNat) := by
  have hdouble : ∀ n : Nat, toDoubleSigned n = toDouble n := fun n => by
    rw [toDoubleSigned, if_neg (by omega), Int.natAbs_natCast]
  have hlong : ∀ n : Nat, ofDoubleSigned n = ofDouble n := fun n => by
    rw [ofDoubleSigned, ofDouble]
    split_ifs <;> first | rfl | omega
  have hspan : setFromDoubleSigned (toDoubleSigned nCount) ticksPerSecond =
      setFromSeconds (toDouble nCount) := by
    rw [setFromDoubleSigned, hdouble, ← Nat.cast_mul, hdouble, hlong]
    rfl
  have hadd : add nTicks nCount .seconds =
      addTimeSpan nTicks (setFromDoubleSigned (toDoubleSigned nCount) ticksPerSecond) := rfl
  rw [hadd, hspan, addTimeSpan, addSeconds]
  cases addTicks nTicks (setFromSeconds (toDouble nCount)) with
  | error hRes => rfl
  | ok cNewTicks =>
    dsimp only
    split <;> rfl

end TimeSpans

end MxLib.DateTime
