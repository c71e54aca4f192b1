import Mathlib.Data.Int.CardIntervalMod
import MxLib.DateTime.DateText

/-!
# The numbers of a day and of its week

`%j`, `%U` and `%W` of `AppendFormat`.  `GetDayOfYear()` counts the days of a year from one, and
all three take it for a number that begins with zero.  So `%j` is one too large on every day, and
a week number is one too large in the years whose first day is the second one of a week
(`prints_iff`): a Monday for `%U`, a Tuesday for `%W`.
-/

namespace MxLib.DateTime

/-! ### What is asked for -/

/-- The items that number a day or its week. -/
inductive DayNumber
  | dayOfYear
  | sundayWeek
  | mondayWeek
deriving DecidableEq

def DayNumber.item : DayNumber → Byte
  | .dayOfYear => 0x6A
  | .sundayWeek => 0x55
  | .mondayWeek => 0x57

def DayNumber.nMinDigits : DayNumber → Nat
  | .dayOfYear => 3
  | .sundayWeek => 2
  | .mondayWeek => 2

/-- How many of the first `nDays` days of a year are on this day of the week. -/
def weekDaysOf (nYear nWeekDay nDays : Nat) : Nat :=
  Nat.count (fun k => (yearStart nYear + k + 1) % 7 = nWeekDay) nDays

/-- The number of the day, and the Sundays or the Mondays up to it. -/
def DayNumber.number (nYear nDay : Nat) : DayNumber → Nat
  | .dayOfYear => nDay
  | .sundayWeek => weekDaysOf nYear 0 nDay
  | .mondayWeek => weekDaysOf nYear 1 nDay

/-- The number of the day in its year, beginning with one. -/
def ordinalDay (f : DateFields) : Nat := dayOfYear f.nYear f.nMonth f.nDay + 1

/-- The item prints what `strftime` prints. -/
def DayNumber.Prints (nTicks : Nat) (nGmtOffset : Int) (number : DayNumber) : Prop :=
  formatText nTicks nGmtOffset [0x25, number.item] =
    .ok ((fixedDigits number.nMinDigits (number.number (getDateTime nTicks).nYear
      (ordinalDay (getDateTime nTicks)))).map UInt16.toUInt8)

/-- The day of the week on which a year begins. -/
def firstWeekDay (nYear : Nat) : Nat := (yearStart nYear + 1) % 7

/-- The years in which the item is right. -/
def DayNumber.RightIn (nYear : Nat) : DayNumber → Prop
  | .dayOfYear => False
  | .sundayWeek => firstWeekDay nYear ≠ 1
  | .mondayWeek => firstWeekDay nYear ≠ 2

instance (nYear : Nat) (number : DayNumber) : Decidable (number.RightIn nYear) :=
  match number with
  | .dayOfYear => inferInstanceAs (Decidable False)
  | .sundayWeek => inferInstanceAs (Decidable (_ ≠ _))
  | .mondayWeek => inferInstanceAs (Decidable (_ ≠ _))

/-! ### Weeks -/

/-- The first days of a week among `n` days, of which the first one is the day `c` of a week. -/
theorem count_weekStart {a s c : Nat} (hs : s < 7) (hc : c < 7) (h : (a + 1) % 7 = (s + c) % 7)
    (n : Nat) : Nat.count (fun k => (a + k + 1) % 7 = s) n =
      n / 7 + if (7 - c) % 7 < n % 7 then 1 else 0 := by
  have hmod : ∀ k, (a + k + 1) % 7 = s ↔ k ≡ 7 - c [MOD 7] := by
    intro k
    rw [Nat.ModEq]
    omega
  simp only [hmod]
  exact Nat.count_modEq_card n (by decide) (7 - c)

/-- **One day too many shows in every week or in none.** -/
theorem weekNumber_eq_iff {n c : Nat} (hn : 1 ≤ n) (hc : c < 7) :
    weekNumber n ((c + n + 6) % 7) = n / 7 + (if (7 - c) % 7 < n % 7 then 1 else 0) ↔ c ≠ 1 := by
  unfold weekNumber
  split_ifs <;> omega

/-! ### What is printed -/

section Printed

variable {nTicks : Nat}

theorem ordinalDay_getDateTime (h : nTicks ≤ xMaxValueTicks) :
    ordinalDay (getDateTime nTicks) = (ticksToYearAndDayOfYear nTicks).2 :=
  (getDateTime_date h).2.2

/-- The day of the week, from the day of the year. -/
theorem weekDay_getDateTime (h : nTicks ≤ xMaxValueTicks) :
    (getDayOfWeek (getDateTime nTicks).nYear (getDateTime nTicks).nMonth
      (getDateTime nTicks).nDay).toNat =
        (yearStart (getDateTime nTicks).nYear + ordinalDay (getDateTime nTicks)) % 7 := by
  obtain ⟨hvalid, -, -⟩ := getDateTime_date h
  rw [getDayOfWeek_eq hvalid, getAbsoluteDay_eq hvalid, ordinalDay]
  omega

/-- The number that the code prints. -/
def DayNumber.printed (nDayOfYear nWeekDay : Nat) : DayNumber → Nat
  | .dayOfYear => nDayOfYear + 1
  | .sundayWeek => weekNumber nDayOfYear nWeekDay
  | .mondayWeek => weekNumber nDayOfYear (if nWeekDay == 0 then 6 else nWeekDay - 1)

/-- **The code takes the day of the year for a number that begins with zero.** -/
theorem formatText_dayNumber (h : nTicks ≤ xMaxValueTicks) (nGmtOffset : Int)
    (number : DayNumber) : formatText nTicks nGmtOffset [0x25, number.item] =
      .ok ((formatAddNumber (number.printed (ordinalDay (getDateTime nTicks))
        ((yearStart (getDateTime nTicks).nYear + ordinalDay (getDateTime nTicks)) % 7))
          number.nMinDigits).map UInt16.toUInt8) := by
  have htext : itemText nTicks nGmtOffset false number.item.toUInt16 =
      formatAddNumber (number.printed (ticksToYearAndDayOfYear nTicks).2
        (getDayOfWeek (getDateTime nTicks).nYear (getDateTime nTicks).nMonth
          (getDateTime nTicks).nDay).toNat) number.nMinDigits := by
    cases number with
    | dayOfYear => rfl
    | sundayWeek => rfl
    | mondayWeek => rfl
  have hformat : formatText nTicks nGmtOffset [0x25, number.item] =
      .ok ((itemText nTicks nGmtOffset false number.item.toUInt16 ++ []).map UInt16.toUInt8) := by
    cases number with
    | dayOfYear => rfl
    | sundayWeek => rfl
    | mondayWeek => rfl
  rw [hformat, htext, List.append_nil, weekDay_getDateTime h, ordinalDay_getDateTime h]

theorem map_toUInt8_fixedDigits (k n : Nat) :
    ((fixedDigits k n).map UInt16.toUInt8).map UInt8.toUInt16 = fixedDigits k n := by
  rw [List.map_map]
  refine (List.map_congr_left fun ch hch => ?_).trans (List.map_id _)
  have hdigit := (isDigitW_iff ch).mp (fixedDigits_digits k n ch hch)
  apply UInt16.toNat_inj.mp
  rw [Function.comp_apply, UInt8.toNat_toUInt16, UInt16.toNat_toUInt8]
  exact Nat.mod_eq_of_lt (by omega)

/-- Numbers that the digits are enough for are told apart. -/
theorem fixedDigits_inj {k m n : Nat} (hm : m < 10 ^ k) (hn : n < 10 ^ k) :
    (fixedDigits k m).map UInt16.toUInt8 = (fixedDigits k n).map UInt16.toUInt8 ↔ m = n := by
  refine ⟨fun h => ?_, fun h => h ▸ rfl⟩
  have hread : ∀ n < 10 ^ k, readDigits (k + 0) 0 (fixedDigits k n ++ []) = (n, []) := by
    intro n hn
    rw [readDigits_fixedDigits, Nat.mod_eq_of_lt hn, Nat.zero_mul, Nat.zero_add]
    rfl
  have hwide := congrArg (List.map UInt8.toUInt16) h
  rw [map_toUInt8_fixedDigits, map_toUInt8_fixedDigits] at hwide
  have hvalue := hread m hm
  rw [hwide, hread n hn] at hvalue
  exact (Prod.mk.inj hvalue).1.symm

/-- What is printed for a week, and the weeks that are asked for, where a year begins on the
day `c` of a week. -/
theorem exists_firstDay {nYear nDay : Nat} {number : DayNumber} (hweek : number ≠ .dayOfYear) :
    ∃ c < 7,
      number.printed nDay ((yearStart nYear + nDay) % 7) = weekNumber nDay ((c + nDay + 6) % 7) ∧
      number.number nYear nDay = nDay / 7 + (if (7 - c) % 7 < nDay % 7 then 1 else 0) ∧
      (number.RightIn nYear ↔ c ≠ 1) := by
  cases number with
  | dayOfYear => exact absurd rfl hweek
  | sundayWeek =>
    have hc : firstWeekDay nYear < 7 := Nat.mod_lt _ (by decide)
    refine ⟨firstWeekDay nYear, hc, ?_, ?_, Iff.rfl⟩
    · rw [DayNumber.printed, firstWeekDay]
      congr 1
      omega
    · exact count_weekStart (by decide) hc (by rw [firstWeekDay]; omega) nDay
  | mondayWeek =>
    have hc : (firstWeekDay nYear + 6) % 7 < 7 := Nat.mod_lt _ (by decide)
    refine ⟨(firstWeekDay nYear + 6) % 7, hc, ?_, ?_, ?_⟩
    · rw [DayNumber.printed, firstWeekDay]
      congr 1
      split
      · rename_i hzero
        rw [beq_iff_eq] at hzero
        omega
      · rename_i hzero
        rw [beq_iff_eq] at hzero
        omega
    · exact count_weekStart (by decide) hc (by rw [firstWeekDay]; omega) nDay
    · rw [DayNumber.RightIn, firstWeekDay]
      omega

theorem weekNumber_le (nDay w : Nat) : weekNumber nDay w ≤ nDay / 7 + 1 := by
  unfold weekNumber
  split_ifs <;> omega

/-- **The code's number is right where the day of the year is not `%j` and the year begins
elsewhere in the week.** -/
theorem printed_eq_iff {nYear nDay : Nat} (number : DayNumber) (hday : 1 ≤ nDay) :
    number.printed nDay ((yearStart nYear + nDay) % 7) = number.number nYear nDay ↔
      number.RightIn nYear := by
  by_cases hweek : number = .dayOfYear
  · subst hweek
    exact iff_of_false (Nat.succ_ne_self nDay) id
  · obtain ⟨c, hc, hprinted, hnumber, hright⟩ := @exists_firstDay nYear nDay number hweek
    rw [hprinted, hnumber, hright]
    exact weekNumber_eq_iff hday hc

/-- Both numbers have as many digits as are printed. -/
theorem printed_lt {nYear nDay : Nat} (number : DayNumber) (hle : nDay ≤ 366) :
    number.printed nDay ((yearStart nYear + nDay) % 7) < 10 ^ number.nMinDigits ∧
      number.number nYear nDay < 10 ^ number.nMinDigits := by
  by_cases hweek : number = .dayOfYear
  · subst hweek
    exact ⟨by change nDay + 1 < 1000; omega, by change nDay < 1000; omega⟩
  · obtain ⟨c, hc, hprinted, hnumber, -⟩ := @exists_firstDay nYear nDay number hweek
    have hdigits : number.nMinDigits = 2 := by
      cases number with
      | dayOfYear => exact absurd rfl hweek
      | sundayWeek => rfl
      | mondayWeek => rfl
    have hweeks := weekNumber_le nDay ((c + nDay + 6) % 7)
    rw [hprinted, hnumber, hdigits]
    constructor
    · omega
    · split_ifs <;> omega

/-- **`%j` is never right; `%U` and `%W` are right unless the year begins on the second day of a
week.** -/
theorem prints_iff (h : nTicks ≤ xMaxValueTicks) (nGmtOffset : Int) (number : DayNumber) :
    number.Prints nTicks nGmtOffset ↔ number.RightIn (getDateTime nTicks).nYear := by
  obtain ⟨-, hday, hle, -⟩ := ticksToYearAndDayOfYear_spec nTicks
  rw [← ordinalDay_getDateTime h] at hday hle
  have hle366 : ordinalDay (getDateTime nTicks) ≤ 366 := by
    rw [yearDays] at hle
    split at hle <;> omega
  obtain ⟨hprinted, hnumber⟩ := @printed_lt (getDateTime nTicks).nYear _ number hle366
  have hdigits : 0 < number.nMinDigits := by
    cases number <;> decide
  obtain ⟨k, hk⟩ := Nat.exists_eq_succ_of_ne_zero hdigits.ne'
  rw [hk] at hprinted hnumber
  rw [DayNumber.Prints, formatText_dayNumber h, hk, formatAddNumber_eq hprinted,
    Except.ok.injEq, fixedDigits_inj hprinted hnumber]
  exact printed_eq_iff number hday

end Printed

/-- The second Sunday of 2023. -/
theorem prints_secondSunday : DayNumber.sundayWeek.Prints 638087328000000000 0 :=
  (prints_iff (by decide) 0 .sundayWeek).mpr (by decide)

/-- The first day of year 1. -/
theorem not_prints_firstDay : ¬ DayNumber.dayOfYear.Prints 0 0 := by
  rw [DayNumber.Prints]
  decide

end MxLib.DateTime
