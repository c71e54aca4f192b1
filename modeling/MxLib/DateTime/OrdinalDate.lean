import MxLib.DateTime.Separators

/-!
# Days of the year

A year and the number of one of its days, read by `SetFromString`.  The loop over the months adds
the leap day where `i` is two, and `i` is not the month: it is the place in the table of names
that the last name was found at.  So the leap day is added to every month, behind a Tuesday, or to
none (`isRead_iff`), and the days of a leap year are right up to the last one of January or of
February.
-/

namespace MxLib.DateTime

/-! ### The loop over the months -/

/-- The days of the first months as the loop counts them, with `nMore` more in each. -/
def countedDays (nMore nMonth : Nat) : Nat := aDateTimeMonthDays.getD nMonth 0 + nMore * nMonth

/-- The days that are added to each month. -/
def moreDays (bAlternateFlag : Bool) (i : Nat) : Nat := if bAlternateFlag && i == 2 then 1 else 0

theorem countedDays_succ (nMore : Nat) {nMonth : Nat} (h1 : 1 ≤ nMonth) (h12 : nMonth ≤ 12) :
    countedDays nMore nMonth = countedDays nMore (nMonth - 1) +
      (aDateTimeMonthDays.getD nMonth 0 - aDateTimeMonthDays.getD (nMonth - 1) 0 + nMore) := by
  have hgrows : ∀ n < 12, aDateTimeMonthDays.getD n 0 ≤ aDateTimeMonthDays.getD (n + 1) 0 := by
    decide
  obtain ⟨n, rfl⟩ : ∃ n, nMonth = n + 1 := ⟨nMonth - 1, by omega⟩
  have hle := hgrows n (by omega)
  rw [countedDays, countedDays, Nat.add_sub_cancel, Nat.mul_succ]
  omega

/-- **The loop finds the month of the day**, as it counts the days of a month. -/
theorem monthOfYDay_spec {bAlternateFlag : Bool} {i fuel nMonth nDay : Nat} (h1 : 1 ≤ nMonth)
    (hfuel : nMonth + fuel = 13) (hday : 1 ≤ nDay) {nMore : Nat}
    (hmore : nMore = moreDays bAlternateFlag i) :
    (monthOfYDay bAlternateFlag i fuel nMonth nDay = none ∧
      countedDays nMore 12 < nDay + countedDays nMore (nMonth - 1)) ∨
    ∃ m d, monthOfYDay bAlternateFlag i fuel nMonth nDay = some (m, d) ∧ (1 ≤ m ∧ m ≤ 12) ∧
      1 ≤ d ∧ countedDays nMore (m - 1) + d ≤ countedDays nMore m ∧
      countedDays nMore (m - 1) + d = nDay + countedDays nMore (nMonth - 1) := by
  induction fuel generalizing nMonth nDay with
  | zero =>
    obtain rfl : nMonth = 13 := by omega
    exact .inl ⟨rfl, Nat.lt_add_of_pos_left hday⟩
  | succ fuel ih =>
    have hsucc := countedDays_succ nMore h1 (by omega)
    rw [monthOfYDay, ← moreDays, ← hmore]
    split
    · rename_i hin
      exact .inr ⟨nMonth, nDay, rfl, ⟨h1, by omega⟩, hday, by omega, by omega⟩
    · rename_i hout
      -- what is left of the day, from the next month on
      have hrest := @ih (nMonth + 1) _ (by omega) (by omega)
        (Nat.sub_pos_of_lt (Nat.lt_of_not_le hout))
      rw [Nat.add_sub_cancel, hsucc] at hrest
      rcases hrest with ⟨hnone, hlt⟩ | ⟨m, d, hsome, hm, hd, hle, hsum⟩
      · exact .inl ⟨hnone, by omega⟩
      · exact .inr ⟨m, d, hsome, hm, hd, hle, by omega⟩

theorem monthOfYDay_cases (bAlternateFlag : Bool) (i : Nat) {nDay : Nat} (hday : 1 ≤ nDay)
    {nMore : Nat} (hmore : nMore = moreDays bAlternateFlag i) :
    (monthOfYDay bAlternateFlag i 12 1 nDay = none ∧ countedDays nMore 12 < nDay) ∨
    ∃ m d, monthOfYDay bAlternateFlag i 12 1 nDay = some (m, d) ∧ (1 ≤ m ∧ m ≤ 12) ∧
      1 ≤ d ∧ countedDays nMore (m - 1) + d ≤ countedDays nMore m ∧
      countedDays nMore (m - 1) + d = nDay :=
  monthOfYDay_spec (Nat.le_refl 1) rfl hday hmore

/-! ### What is stored -/

/-- The variables behind a year and a day of it. -/
structure ReadYDay (nYear nDay : Nat) (v : DateValues) : Prop where
  year : v.nYear = nYear
  month : v.nMonth = -1
  yDay : v.nYDay = nDay
  time : v.nHours = 0 ∧ v.nMinutes = 0 ∧ v.nSeconds = 0 ∧ v.nMilliSeconds = 0
  hourFlag : v.nHourFlag = 0

/-- The day of a year is stored, at midnight. -/
def StoresDay (nYear nDay : Nat) (r : HResult × CDateTime) : Prop :=
  r.1.succeeded = true ∧ r.2.cTicks = ticksPerDay * (yearStart nYear + (nDay - 1))

section Store

variable {cDt : CDateTime} {v : DateValues} {nYear nDay : Nat}

theorem fixMonth_eq (hv : ReadYDay nYear nDay v) (hday : 1 ≤ nDay) :
    fixMonth v = match monthOfYDay (isLeapYear nYear) v.i 12 1 nDay with
      | none => .error .mxArithmeticOverflow
      | some (nMonth, nDay) => .ok { v with nMonth := nMonth, nDay := nDay } := by
  have hyear := hv.year
  have hmonth := hv.month
  have hyDay := hv.yDay
  have hsame : ¬ (v.nYDay < 0 ∧ v.nWeekDay ≥ 0 ∧ v.nWeekNumber ≥ 0) := by omega
  have hpos : v.nYDay > 0 := by omega
  rw [fixMonth, if_pos (by omega), if_neg hsame]
  dsimp only
  rw [if_pos hpos, hyear, hyDay, Int.toNat_natCast, Int.toNat_natCast] <;> rfl

theorem storeValues_none (hv : ReadYDay nYear nDay v) (hday : 1 ≤ nDay)
    (h : monthOfYDay (isLeapYear nYear) v.i 12 1 nDay = none) :
    storeValues cDt v = (.mxArithmeticOverflow, cDt) := by
  have hflag : ¬ (v.nHourFlag = 2 ∧ v.nHours < 12) := by
    rw [hv.hourFlag]
    exact fun hpm => absurd hpm.1 (by decide)
  rw [storeValues, if_neg hflag, fixMonth_eq hv hday, h]

/-- A month and a day that were found are stored where they are a date. -/
theorem storeValues_some (hv : ReadYDay nYear nDay v) (hday : 1 ≤ nDay) {m d : Nat}
    (h : monthOfYDay (isLeapYear nYear) v.i 12 1 nDay = some (m, d)) :
    (isDateValid nYear m d = true ∧ ∃ nGmtOffset,
      storeValues cDt v = (.sOk, ⟨ticksPerDay * absoluteDay nYear m d, nGmtOffset⟩)) ∨
    (isDateValid nYear m d = false ∧ storeValues cDt v = (.eInvalidArg, cDt)) := by
  have hflag : ¬ (v.nHourFlag = 2 ∧ v.nHours < 12) := by
    rw [hv.hourFlag]
    exact fun hpm => absurd hpm.1 (by decide)
  have hyear := hv.year
  obtain ⟨hhours, hminutes, hseconds, hmilliSeconds⟩ := hv.time
  obtain ⟨w, hw⟩ : ∃ w : DateValues, w = { v with nMonth := m, nDay := d } := ⟨_, rfl⟩
  have hflag' : ¬ (w.nHourFlag = 2 ∧ w.nHours < 12) := by rwa [hw]
  have hfix : fixMonth w = .ok w := by
    rw [hw, fixMonth, if_neg (by dsimp only; omega)]
  have hfound : fixMonth v = .ok w := by
    rw [fixMonth_eq hv hday, h, hw]
  have hstore : storeValues cDt v = storeValues cDt w := by
    rw [storeValues, storeValues, if_neg hflag, if_neg hflag', hfound, hfix]
  rw [hstore]
  cases hvalid : isDateValid nYear m d with
  | true =>
    have hf : DateFields.Valid ⟨nYear, m, d, 0, 0, 0, 0⟩ :=
      ⟨hvalid, Nat.zero_le _, Nat.zero_le _, Nat.zero_le _, Nat.zero_le _⟩
    refine .inl ⟨rfl, if w.bOffsetSpecified then w.nOffset else 0, ?_⟩
    have hstored := @storeValues_of_hours w ⟨nYear, m, d, 0, 0, 0, 0⟩ (by rw [hw]; exact hyear)
      (by rw [hw]) (by rw [hw]) (by rw [if_neg hflag', hw]; exact hhours)
      (by rw [hw]; exact hminutes) (by rw [hw]; exact hseconds) (by rw [hw]; exact hmilliSeconds)
      hf cDt
    have hmidnight : DateFields.ticks ⟨nYear, m, d, 0, 0, 0, 0⟩ =
        ticksPerDay * absoluteDay nYear m d := by
      have htime : timeTicks 0 0 0 0 = 0 := rfl
      change ticksPerDay * absoluteDay nYear m d + timeTicks 0 0 0 0 = _
      rw [htime, Nat.add_zero]
    rw [hstored, hmidnight]
  | false =>
    have hdate : ¬ isDate w.nYear w.nMonth w.nDay = true := by
      rw [hw, isDate, hyear, Int.toNat_natCast, Int.toNat_natCast, Int.toNat_natCast, hvalid,
        Bool.and_false]
      exact Bool.false_ne_true
    have hset : ∀ t h' m' s' f', setDateTimeOf t w.nYear w.nMonth w.nDay h' m' s' f' =
        (.eInvalidArg, t) := by
      intro t h' m' s' f'
      rw [setDateTimeOf, setDateOf_eq, if_neg hdate]
      rfl
    have hkeep : (if w.nYear < 0 ∨ w.nMonth < 0 ∨ w.nDay < 0 then
        { w with nYear := 1, nMonth := 1, nDay := 1 } else w) = w := by
      rw [hw]
      exact if_neg (by dsimp only; omega)
    refine .inr ⟨rfl, ?_⟩
    rw [storeValues, if_neg hflag']
    dsimp only
    rw [hfix]
    dsimp only
    rw [hkeep, hset]
    rfl

/-- The days of a year that are stored right. -/
def MonthFound (nYear nDay i : Nat) : Prop :=
  isLeapYear nYear = true → nDay ≤ 31 ∨ nDay ≤ 59 ∧ i ≠ 2

/-- Where the loop counts right: a month of its own, and the days before it. -/
theorem isDay_iff {nMore m d : Nat} (hmore : nMore = moreDays (isLeapYear nYear) v.i)
    (hyear : 1 ≤ nYear ∧ nYear ≤ 9999) (hm : 1 ≤ m ∧ m ≤ 12) (hd : 1 ≤ d)
    (hin : countedDays nMore (m - 1) + d ≤ countedDays nMore m)
    (hsum : countedDays nMore (m - 1) + d = nDay) :
    isDateValid nYear m d = true ∧ dayOfYear nYear m d = nDay - 1 ↔
      MonthFound nYear nDay v.i := by
  obtain ⟨hm1, hm12⟩ := hm
  have htable : ∀ m < 13, aDateTimeMonthDays.getD (m - 1) 0 ≤ aDateTimeMonthDays.getD m 0 ∧
      (3 ≤ m → 59 ≤ aDateTimeMonthDays.getD (m - 1) 0) := by decide
  obtain ⟨hle, hlater⟩ := htable m (by omega)
  have hfirst : m = 1 → aDateTimeMonthDays.getD (m - 1) 0 = 0 ∧ aDateTimeMonthDays.getD m 0 = 31 := by
    rintro rfl
    exact ⟨rfl, rfl⟩
  have hsecond : m = 2 → aDateTimeMonthDays.getD (m - 1) 0 = 31 ∧ aDateTimeMonthDays.getD m 0 = 59 := by
    rintro rfl
    exact ⟨rfl, rfl⟩
  rw [isDateValid_iff, dayOfYear, monthsBefore_eq _ (by omega), MonthFound, monthDays]
  rw [moreDays] at hmore
  rw [countedDays] at hin hsum
  rw [countedDays] at hin
  cases hleap : isLeapYear nYear with
  | false =>
    rw [hleap, Bool.false_and, if_neg Bool.false_ne_true] at hmore
    subst hmore
    simp only [Bool.false_and, Bool.false_eq_true, if_false, false_implies, iff_true]
    omega
  | true =>
    rw [hleap, Bool.true_and] at hmore
    simp only [Bool.true_and, decide_eq_true_eq, beq_iff_eq, forall_const]
    have hcount : nMore = 1 ∧ v.i = 2 ∨ nMore = 0 ∧ v.i ≠ 2 := by
      by_cases hi : v.i = 2
      · rw [hi, if_pos (by decide)] at hmore
        exact Or.inl ⟨hmore, hi⟩
      · rw [if_neg (by rwa [beq_iff_eq])] at hmore
        exact Or.inr ⟨hmore, hi⟩
    clear hmore
    -- the month decides which leap days are due
    obtain hmonth | hmonth | hmonth : m = 1 ∨ m = 2 ∨ 3 ≤ m := by omega
    · have hstart := hfirst hmonth
      rw [if_neg (by omega), if_neg (by omega)]
      rcases hcount with ⟨rfl, hi⟩ | ⟨rfl, hi⟩ <;> omega
    · have hstart := hsecond hmonth
      rw [if_pos hmonth, if_neg (by omega)]
      rcases hcount with ⟨rfl, hi⟩ | ⟨rfl, hi⟩ <;> omega
    · have hstart := hlater hmonth
      rw [if_neg (by omega), if_pos (by omega)]
      rcases hcount with ⟨rfl, hi⟩ | ⟨rfl, hi⟩ <;> omega

/-- **A day is stored right** in a common year, in January, and where no leap day was added to
January in February. -/
theorem storesDay_iff (hv : ReadYDay nYear nDay v) (hyear : 1 ≤ nYear ∧ nYear ≤ 9999)
    (hday : 1 ≤ nDay) (hle : nDay ≤ yearDays nYear) :
    StoresDay nYear nDay (storeValues cDt v) ↔ MonthFound nYear nDay v.i := by
  rcases monthOfYDay_cases (isLeapYear nYear) v.i hday rfl with
    ⟨hnone, hlt⟩ | ⟨m, d, hsome, hm, hd, hin, hsum⟩
  · -- the last day of a leap year
    have htwelve : 365 ≤ countedDays (moreDays (isLeapYear nYear) v.i) 12 := Nat.le_add_right _ _
    rw [storeValues_none hv hday hnone]
    refine iff_of_false (fun h => ?_) fun hfound => ?_
    · cases h.1
    have hleap : isLeapYear nYear = true := by
      by_contra hcommon
      rw [yearDays, if_neg hcommon] at hle
      omega
    have hfew := hfound hleap
    omega
  · have hfound := isDay_iff rfl hyear hm hd hin hsum
    rw [← hfound]
    rcases @storeValues_some cDt _ _ _ hv hday m d hsome with ⟨hvalid, nGmtOffset, hstore⟩ |
      ⟨hvalid, hstore⟩
    · rw [hstore, StoresDay, hvalid, absoluteDay]
      constructor
      · rintro ⟨-, hticks⟩
        exact ⟨rfl, Nat.add_left_cancel (Nat.eq_of_mul_eq_mul_left (by decide) hticks)⟩
      · rintro ⟨-, hday⟩
        exact ⟨rfl, by rw [hday]⟩
    · rw [hstore, hvalid]
      refine iff_of_false (fun h => ?_) fun h => ?_
      · cases h.1
      · cases h.1

/-- **The 366th day of a common year is refused.** -/
theorem failed_of_common (hv : ReadYDay nYear nDay v) (hday : yearDays nYear < nDay)
    (hcommon : isLeapYear nYear = false) : (storeValues cDt v).1.failed = true := by
  have hmore : 0 = moreDays (isLeapYear nYear) v.i := by
    rw [hcommon]
    rfl
  have hall : ∀ m < 13, countedDays 0 m ≤ 365 := by decide
  rw [yearDays, hcommon, if_neg Bool.false_ne_true] at hday
  have hpos : 1 ≤ nDay := by omega
  rcases monthOfYDay_cases (isLeapYear nYear) v.i hpos hmore with
    ⟨hnone, -⟩ | ⟨m, d, -, hm, -, hin, hsum⟩
  · rw [storeValues_none hv hpos hnone]
    rfl
  · have hle := hall m (by omega)
    omega

end Store

/-! ### Texts -/

/-- A separator: no letter and no digit of ASCII, and not the end of the text. -/
structure OrdinalSeparator where
  sep : List WChar
  ne_nil : sep ≠ []
  chars : ∀ ch ∈ sep, ch ≠ 0 ∧ isLetterW ch = false ∧ isDigitW ch = false

/-- The name of a day of the week, behind the date. -/
structure WeekDayName where
  separator : OrdinalSeparator
  bLong : Bool
  nWeekDay : Nat
  nWeekDay_lt : nWeekDay < 7

def WeekDayName.names (d : WeekDayName) : List (List WChar) :=
  if d.bLong then szLongDayNamesW else szShortDayNamesW

/-- A year of four digits and a day of three, in either order. -/
structure OrdinalText where
  nYear : Nat
  nDay : Nat
  bYearFirst : Bool
  separator : OrdinalSeparator
  weekDay : Option WeekDayName
  fourDigits : 1000 ≤ nYear ∧ nYear ≤ 9999
  day : 1 ≤ nDay ∧ nDay ≤ 366

namespace OrdinalText

variable (t : OrdinalText)

def weekDayText : List WChar :=
  t.weekDay.elim [] fun d => d.separator.sep ++ d.names.getD d.nWeekDay []

def weekDayFormat : List WChar :=
  t.weekDay.elim [] fun d => separatorFormat d.separator.sep ++ [0x25, 0x61]

def szDateW : List WChar :=
  if t.bYearFirst then
    fixedDigits 4 t.nYear ++ (t.separator.sep ++ (fixedDigits 3 t.nDay ++ t.weekDayText))
  else fixedDigits 3 t.nDay ++ (t.separator.sep ++ (fixedDigits 4 t.nYear ++ t.weekDayText))

def szFormatW : List WChar :=
  if t.bYearFirst then
    0x25 :: 0x59 :: (separatorFormat t.separator.sep ++ 0x25 :: 0x6A :: t.weekDayFormat)
  else 0x25 :: 0x6A :: (separatorFormat t.separator.sep ++ 0x25 :: 0x59 :: t.weekDayFormat)

/-- The day of the year is read, and the 366th day of a common year is refused. -/
def IsRead (env : DateEnvironment) (cDt : CDateTime) : Prop :=
  (t.nDay ≤ yearDays t.nYear →
    StoresDay t.nYear t.nDay (setFromStringW env cDt t.szDateW t.szFormatW 0)) ∧
  (yearDays t.nYear < t.nDay →
    (setFromStringW env cDt t.szDateW t.szFormatW 0).1.failed = true)

/-- The place in the table of names that is left behind the loop. -/
def lastIndex (i : Nat) : Nat :=
  t.weekDay.elim i fun d => if (0x5C : WChar) ∈ d.separator.sep then 7 else d.nWeekDay

/-- No backslash stands between the numbers, only backslashes stand behind one in front of the
name, and the day is one that is stored right. -/
def ReadsRight (i : Nat) : Prop :=
  (0x5C : WChar) ∉ t.separator.sep ∧
    (∀ d ∈ t.weekDay, (fromBackslash d.separator.sep).all (· == 0x5C) = true) ∧
    MonthFound t.nYear t.nDay (t.lastIndex i)

end OrdinalText

/-! ### Reading -/

section Scan

variable {env : DateEnvironment} {nTwoDigitsYearRule : Int} {szOrigDateW : List WChar}
  {v : DateValues}

theorem isDigitW_separator (separator : OrdinalSeparator) (rest : List WChar) :
    isDigitW (charAt (separator.sep ++ rest) 0) = false := by
  obtain ⟨sep, hne, hchars⟩ := separator
  cases sep with
  | nil => exact absurd rfl hne
  | cons ch sep => exact (hchars ch List.mem_cons_self).2.2

theorem fromBackslash_eq_nil {sep : List WChar} (h : (0x5C : WChar) ∉ sep) :
    fromBackslash sep = [] := by
  rw [fromBackslash, ← List.append_nil sep, List.dropWhile_append_of_pos]
  · rfl
  · intro ch hch
    rw [bne_iff_ne]
    rintro rfl
    exact h hch

theorem exists_fromBackslash {sep : List WChar} (h : (0x5C : WChar) ∈ sep) :
    ∃ rest, fromBackslash sep = 0x5C :: rest := by
  obtain ⟨front, rest, rfl, hfront⟩ := List.eq_append_cons_of_mem h
  refine ⟨rest, ?_⟩
  rw [fromBackslash, List.dropWhile_append_of_pos]
  · rfl
  · intro ch hch
    rw [bne_iff_ne]
    rintro rfl
    exact hfront hch

/-- Two numbers with a separator between them. -/
theorem scanFrom_two {a b : WChar} (ha : isNumberItem a = true ∧ a ≠ 0x66)
    (hb : isNumberItem b = true ∧ b ≠ 0x66) {k l m n : Nat} (hk : 0 < k ∧ k ≤ maxDigits a)
    (hl : 0 < l ∧ l ≤ maxDigits b) (hm : m < 10 ^ k) (hn : n < 10 ^ l) {v₁ v₂ : DateValues}
    (hfirst : storeNumber env nTwoDigitsYearRule a m v = .ok v₁)
    (hsecond : storeNumber env nTwoDigitsYearRule b n v₁ = .ok v₂) (separator : OrdinalSeparator)
    (szFormatW : List WChar) {szDateW : List WChar}
    (hdate : isDigitW (charAt szDateW 0) = false) :
    scanFrom env nTwoDigitsYearRule szOrigDateW
        ⟨0x25 :: a :: (separatorFormat separator.sep ++ 0x25 :: b :: szFormatW),
          fixedDigits k m ++ (separator.sep ++ (fixedDigits l n ++ szDateW)), none, v⟩ =
      if (0x5C : WChar) ∈ separator.sep then .error .eFail
      else scanFrom env nTwoDigitsYearRule szOrigDateW ⟨szFormatW, szDateW, none, v₂⟩ := by
  rw [scanFrom_number ha.1 ha.2 hk.1 hk.2 (isDigitW_separator separator _) hm hfirst,
    scanFrom_separator_cases rfl (isBlankW_charAt_fixedDigits hl.1 n szDateW)]
  by_cases hbackslash : (0x5C : WChar) ∈ separator.sep
  · -- the number behind it does not begin with a backslash
    obtain ⟨rest, hrest⟩ := exists_fromBackslash hbackslash
    rw [if_pos hbackslash, hrest]
    split
    · exact scanFrom_item_error (isPlainItem_of_number hb.1) (List.cons_ne_nil _ _)
        (readItem_noDigit hb.1 hb.2 rfl)
    · rfl
  · rw [if_neg hbackslash, fromBackslash_eq_nil hbackslash]
    exact scanFrom_number hb.1 hb.2 hl.1 hl.2 hdate hn hsecond szFormatW

/-- The name of a day is read at the end of the text. -/
theorem readItem_weekDayName {chBefore : Option WChar} (d : WeekDayName) :
    readItem env nTwoDigitsYearRule chBefore 0x61 (d.names.getD d.nWeekDay []) v =
      .ok ([], { v with nWeekDay := d.nWeekDay, i := d.nWeekDay }) := by
  have hfinds : ∀ names ∈ [szLongDayNamesW, szShortDayNamesW], ∀ w < 7,
      findEither (names.getD w []) szLongDayNamesW szShortDayNamesW =
        (w, (names.getD w []).length) := by decide
  have hnames : d.names ∈ [szLongDayNamesW, szShortDayNamesW] := by
    rw [WeekDayName.names]
    split <;> decide
  rw [readItem, if_pos (by decide), weekDayItem, hfinds _ hnames _ d.nWeekDay_lt]
  dsimp only
  rw [if_pos d.nWeekDay_lt, List.drop_length]

/-- No name is read where a backslash stands. -/
theorem readItem_weekDay_backslash {chBefore : Option WChar} (rest : List WChar) :
    readItem env nTwoDigitsYearRule chBefore 0x61 (0x5C :: rest) v =
      .ok (0x5C :: rest, { v with i := 7 }) := by
  have hfind : findEither (0x5C :: rest) szLongDayNamesW szShortDayNamesW = (7, 0) :=
    @findEither_of_finds szLongDayNamesW szShortDayNamesW [0x5C] 7 0 (by decide) rest
  rw [readItem, if_pos (by decide), weekDayItem, hfind]
  rfl

/-- The variables behind the name of a day. -/
def readName (v : DateValues) (d : WeekDayName) : DateValues :=
  if (0x5C : WChar) ∈ d.separator.sep then { v with i := 7 }
  else { v with nWeekDay := d.nWeekDay, i := d.nWeekDay }

/-- **What the name of a day leaves.** -/
theorem scanFrom_weekDay (d : WeekDayName) :
    scanFrom env nTwoDigitsYearRule szOrigDateW
        ⟨separatorFormat d.separator.sep ++ [0x25, 0x61],
          d.separator.sep ++ d.names.getD d.nWeekDay [], none, v⟩ =
      if (fromBackslash d.separator.sep).all (· == 0x5C) = true then .ok (readName v d)
      else .error .eFail := by
  have hname : d.names.getD d.nWeekDay [] ≠ [] ∧
      isBlankW (charAt (d.names.getD d.nWeekDay []) 0) = false := by
    have hnames : ∀ names ∈ [szLongDayNamesW, szShortDayNamesW], ∀ w < 7,
        names.getD w [] ≠ [] ∧ isBlankW (charAt (names.getD w []) 0) = false := by decide
    refine hnames _ ?_ _ d.nWeekDay_lt
    rw [WeekDayName.names]
    split <;> decide
  rw [scanFrom_separator_cases rfl hname.2]
  split
  · by_cases hbackslash : (0x5C : WChar) ∈ d.separator.sep
    · obtain ⟨rest, hrest⟩ := exists_fromBackslash hbackslash
      rw [hrest, List.cons_append, scanFrom_item (by decide) (List.cons_ne_nil _ _)
        (readItem_weekDay_backslash _), scanFrom_end, readName, if_pos hbackslash]
    · rw [fromBackslash_eq_nil hbackslash, List.nil_append, scanFrom_item (by decide) hname.1
        (readItem_weekDayName d), scanFrom_end, readName, if_neg hbackslash]
  · rfl

/-- The variables behind the two numbers. -/
def readNumbers (t : OrdinalText) (i : Nat) : DateValues :=
  { nYear := t.nYear, nYDay := t.nDay, i := i }

/-- **Both orders of the numbers leave the same.** -/
theorem scanFrom_numbers (t : OrdinalText) (i : Nat) :
    scanFrom env nTwoDigitsYearRule szOrigDateW ⟨t.szFormatW, t.szDateW, none, { i := i }⟩ =
      if (0x5C : WChar) ∈ t.separator.sep then .error .eFail
      else scanFrom env nTwoDigitsYearRule szOrigDateW
        ⟨t.weekDayFormat, t.weekDayText, none, readNumbers t i⟩ := by
  obtain ⟨hy1000, hy9999⟩ := t.fourDigits
  obtain ⟨hday, hday366⟩ := t.day
  have hyear : ∀ v, storeNumber env nTwoDigitsYearRule 0x59 t.nYear v =
      .ok { v with nYear := t.nYear } := fun v =>
    storeNumber_year (by omega) hy9999 (if_neg (by omega))
  have hyDay : ∀ v, storeNumber env nTwoDigitsYearRule 0x6A t.nDay v =
      .ok { v with nYDay := t.nDay } := fun v => storeNumber_yearDay hday hday366
  have hend : isDigitW (charAt t.weekDayText 0) = false := by
    rw [OrdinalText.weekDayText]
    cases t.weekDay with
    | none => rfl
    | some d => exact isDigitW_separator d.separator _
  rw [OrdinalText.szFormatW, OrdinalText.szDateW]
  cases t.bYearFirst with
  | true =>
    exact scanFrom_two (a := 0x59) (b := 0x6A) (k := 4) (l := 3) (m := t.nYear) (n := t.nDay)
      (by decide) (by decide) (by decide) (by decide) (by omega) (by omega) (hyear _) (hyDay _)
      t.separator _ hend
  | false =>
    exact scanFrom_two (a := 0x6A) (b := 0x59) (k := 3) (l := 4) (m := t.nDay) (n := t.nYear)
      (by decide) (by decide) (by decide) (by decide) (by omega) (by omega) (hyDay _) (hyear _)
      t.separator _ hend

end Scan

section Text

variable (t : OrdinalText)

theorem ne_zero_fixedDigits (k n : Nat) : ∀ ch ∈ fixedDigits k n, ch ≠ 0 := by
  rintro ch hch rfl
  exact absurd (fixedDigits_digits k n 0 hch) (by decide)

theorem ne_zero_separatorFormat (separator : OrdinalSeparator) :
    ∀ ch ∈ separatorFormat separator.sep, ch ≠ 0 := by
  intro ch hch
  rw [separatorFormat, List.mem_flatMap] at hch
  obtain ⟨ch', hmem, hch⟩ := hch
  have hsame : ch = ch' := by
    split at hch
    · simpa using hch
    · simpa using hch
  rw [hsame]
  exact (separator.chars ch' hmem).1

theorem szDateW_ne_zero : ∀ ch ∈ t.szDateW, ch ≠ 0 := by
  have hweekDay : ∀ ch ∈ t.weekDayText, ch ≠ 0 := by
    have hnames : ∀ names ∈ [szLongDayNamesW, szShortDayNamesW], ∀ w < 7,
        (names.getD w []).all (fun ch => decide (ch ≠ 0)) = true := by decide
    rw [OrdinalText.weekDayText]
    cases t.weekDay with
    | none => exact nofun
    | some d =>
      refine List.forall_mem_append.mpr ⟨fun ch hch => (d.separator.chars ch hch).1, ?_⟩
      refine List.all_iff_forall_prop.mp (hnames _ ?_ _ d.nWeekDay_lt)
      rw [WeekDayName.names]
      split <;> decide
  have hjoin : ∀ k l m n, ∀ ch ∈ fixedDigits k m ++ (t.separator.sep ++ (fixedDigits l n ++
      t.weekDayText)), ch ≠ 0 := fun k l m n =>
    List.forall_mem_append.mpr ⟨ne_zero_fixedDigits k m, List.forall_mem_append.mpr
      ⟨fun ch hch => (t.separator.chars ch hch).1, List.forall_mem_append.mpr
        ⟨ne_zero_fixedDigits l n, hweekDay⟩⟩⟩
  rw [OrdinalText.szDateW]
  split
  · exact hjoin _ _ _ _
  · exact hjoin _ _ _ _

theorem szDateW_ne_nil : t.szDateW ≠ [] := by
  rw [OrdinalText.szDateW]
  split
  · exact List.append_ne_nil_of_right_ne_nil _
      (List.append_ne_nil_of_left_ne_nil t.separator.ne_nil _)
  · exact List.append_ne_nil_of_right_ne_nil _
      (List.append_ne_nil_of_left_ne_nil t.separator.ne_nil _)

theorem szFormatW_ne_zero : ∀ ch ∈ t.szFormatW, ch ≠ 0 := by
  have hweekDay : ∀ ch ∈ t.weekDayFormat, ch ≠ 0 := by
    rw [OrdinalText.weekDayFormat]
    cases t.weekDay with
    | none => exact nofun
    | some d =>
      exact List.forall_mem_append.mpr
        ⟨ne_zero_separatorFormat d.separator, List.all_iff_forall_prop.mp (by decide)⟩
  have hjoin : ∀ a b : WChar, a ≠ 0 → b ≠ 0 → ∀ ch ∈ 0x25 :: a ::
      (separatorFormat t.separator.sep ++ 0x25 :: b :: t.weekDayFormat), ch ≠ 0 := by
    intro a b ha hb
    refine List.forall_mem_cons.mpr ⟨by decide, List.forall_mem_cons.mpr ⟨ha, ?_⟩⟩
    refine List.forall_mem_append.mpr ⟨ne_zero_separatorFormat t.separator, ?_⟩
    exact List.forall_mem_cons.mpr ⟨by decide, List.forall_mem_cons.mpr ⟨hb, hweekDay⟩⟩
  rw [OrdinalText.szFormatW]
  split
  · exact hjoin _ _ (by decide) (by decide)
  · exact hjoin _ _ (by decide) (by decide)

end Text

/-- The variables behind the whole text. -/
theorem exists_read {env : DateEnvironment} (cDt : CDateTime) (t : OrdinalText) :
    ((0x5C : WChar) ∉ t.separator.sep ∧
      (∀ d ∈ t.weekDay, (fromBackslash d.separator.sep).all (· == 0x5C) = true) ∧
      ∃ v, setFromStringW env cDt t.szDateW t.szFormatW 0 = storeValues cDt v ∧
        ReadYDay t.nYear t.nDay v ∧ v.i = t.lastIndex env.i) ∨
    (¬ ((0x5C : WChar) ∉ t.separator.sep ∧
      ∀ d ∈ t.weekDay, (fromBackslash d.separator.sep).all (· == 0x5C) = true) ∧
      setFromStringW env cDt t.szDateW t.szFormatW 0 = (.eFail, cDt)) := by
  rw [setFromStringW_eq (szDateW_ne_zero t) (szDateW_ne_nil t) (szFormatW_ne_zero t),
    scanFrom_numbers]
  by_cases hbackslash : (0x5C : WChar) ∈ t.separator.sep
  · rw [if_pos hbackslash]
    exact .inr ⟨fun h => h.1 hbackslash, rfl⟩
  rw [if_neg hbackslash, OrdinalText.weekDayFormat, OrdinalText.weekDayText,
    OrdinalText.lastIndex]
  cases t.weekDay with
  | none => exact .inl ⟨hbackslash, nofun, _, rfl, ⟨rfl, rfl, rfl, ⟨rfl, rfl, rfl, rfl⟩, rfl⟩, rfl⟩
  | some d =>
    simp only [Option.elim_some, Option.mem_def, Option.some.injEq, forall_eq', scanFrom_weekDay]
    by_cases hend : (fromBackslash d.separator.sep).all (· == 0x5C) = true
    · rw [if_pos hend]
      refine .inl ⟨hbackslash, hend, _, rfl, ?_⟩
      rw [readName]
      split
      · exact ⟨⟨rfl, rfl, rfl, ⟨rfl, rfl, rfl, rfl⟩, rfl⟩, rfl⟩
      · exact ⟨⟨rfl, rfl, rfl, ⟨rfl, rfl, rfl, rfl⟩, rfl⟩, rfl⟩
    · rw [if_neg hend]
      exact .inr ⟨fun h => hend h.2, rfl⟩

/-- **A day of the year is read right** where its month is found and no backslash is in the
way. -/
theorem isRead_iff (env : DateEnvironment) (cDt : CDateTime) (t : OrdinalText) :
    t.IsRead env cDt ↔ (t.nDay ≤ yearDays t.nYear → t.ReadsRight env.i) := by
  obtain ⟨hy1000, hy9999⟩ := t.fourDigits
  rw [OrdinalText.IsRead, OrdinalText.ReadsRight]
  rcases @exists_read env cDt t with ⟨hbackslash, hend, v, hread, hv, hi⟩ | ⟨hnot, hread⟩
  · have hcommon : yearDays t.nYear < t.nDay → (storeValues cDt v).1.failed = true := by
      intro hlt
      refine failed_of_common hv hlt ?_
      have h366 := t.day.2
      cases hleap : isLeapYear t.nYear with
      | false => rfl
      | true =>
        rw [yearDays, hleap, if_pos rfl] at hlt
        omega
    rw [hread, and_iff_left hcommon, ← hi]
    refine forall_congr' fun hle => ?_
    rw [storesDay_iff hv ⟨by omega, hy9999⟩ t.day.1 hle, and_iff_right hbackslash,
      and_iff_right hend]
  · rw [hread]
    constructor
    · rintro ⟨hstores, -⟩ hle
      cases (hstores hle).1
    · intro h
      refine ⟨fun hle => absurd ⟨(h hle).1, (h hle).2.1⟩ hnot, fun _ => rfl⟩

/-- `2024-060`, the leap day of 2024. -/
def leapDay2024 : OrdinalText where
  nYear := 2024
  nDay := 60
  bYearFirst := true
  separator := ⟨wide "-", by decide, List.all_iff_forall_prop.mp (by decide)⟩
  weekDay := none
  fourDigits := by decide
  day := by decide

/-- March 1st is stored for it. -/
theorem not_isRead_leapDay : ¬ leapDay2024.IsRead ⟨none, ⟨2024, 1, 1, 0, 0, 0, 0⟩, 0⟩ .clear := by
  rintro ⟨hstores, -⟩
  have hticks := (hstores (by decide)).2
  revert hticks
  decide

end MxLib.DateTime
