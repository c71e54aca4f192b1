import MxLib.DateTime.Format
import MxLib.DateTime.Setters
import MxLib.Strings.ConcatN

/-!
# Reading a date

`SetFromString` with the default settings.  The loop takes an item of the format and what
stands for it in the text, and it ends with either of them.  An item that stands for a format
puts that one in front, and the rest of the format waits in `szOldFormatW` until the text
goes on behind it.

A name that is not found is no error: the letters and digits that come are skipped.  The loop
variable `i` of the name tables is used once more behind the loop, so it is among the values,
and where no name was looked for it holds whatever it held before.
-/

namespace MxLib.DateTime

open MxLib.Library

structure CDateTime where
  cTicks : Nat
  nGmtOffset : Int
deriving DecidableEq

/-- `Clear` -/
def CDateTime.clear : CDateTime := ⟨0, 0⟩

/-- What `SetFromString` reads from outside: the last year of the calendar for two digits, if
it can be had, the local time, and what an uninitialised variable holds. -/
structure DateEnvironment where
  getCalendarInfo : Option UInt32
  getLocalTime : DateFields
  i : Nat

/-- The rule for two digits where the caller gives none. -/
def DateEnvironment.yearRule (env : DateEnvironment) : Except HResult Int :=
  let fromNow : Except HResult Int :=
    let t := env.getLocalTime
    let (hRes, nTicks) := setDateTimeOf 0 t.nYear t.nMonth t.nDay t.nHours t.nMinutes t.nSeconds
      t.nMilliSeconds
    if hRes.failed then .error hRes else .ok ((getDateTime nTicks).nYear + 20)
  match env.getCalendarInfo with
  | some dw => if dw ≥ 101 then .ok (Int.bmod dw.toNat (2 ^ 32)) else fromNow
  | none => fromNow

/-- `DoTwoDigitsYearAdjustment` -/
def doTwoDigitsYearAdjustment (env : DateEnvironment) (nYear nTwoDigitsYearRule : Int) :
    Except HResult Int := do
  let nTwoDigitsYearRule ← if nTwoDigitsYearRule = 0 then env.yearRule else .ok nTwoDigitsYearRule
  let k := nTwoDigitsYearRule.tmod 100
  let i := nTwoDigitsYearRule - k
  .ok (nYear + if nYear > k then i - 100 else i)

/-! ### Characters -/

def isLetterW (ch : WChar) : Bool := (0x41 ≤ ch && ch ≤ 0x5A) || (0x61 ≤ ch && ch ≤ 0x7A)

def isDigitW (ch : WChar) : Bool := 0x30 ≤ ch && ch ≤ 0x39

def isBlankW (ch : WChar) : Bool := ch == 0x20 || ch == 0x09

/-- `CharToUpperW` -/
def charToUpperW (ch : WChar) : WChar := if 0x61 ≤ ch && ch ≤ 0x7A then ch - 0x20 else ch

/-- `CompareStrW`: the length of a name, if the text begins with it and no letter follows. -/
def compareStrW (szStrW szCompareToW : List WChar) : Nat :=
  let nLen := szCompareToW.length
  if !strNCompareW szStrW szCompareToW nLen true || isLetterW (charAt szStrW nLen) then 0 else nLen

/-- The loop over a table of names: the index it is left with, and the last `nTemp`. -/
def findName (szDateW : List WChar) : List (List WChar) → Nat × Nat
  | [] => (0, 0)
  | name :: names =>
    let nTemp := compareStrW szDateW name
    if nTemp ≠ 0 then (0, nTemp)
    else ((findName szDateW names).1 + 1, (findName szDateW names).2)

/-- `pfs_skip_phrase` -/
def skipPhrase (item : WChar) (szDateW : List WChar) : List WChar :=
  szDateW.dropWhile fun ch => !((!isLetterW ch && !isDigitW ch && ch < 128) || ch == item)

/-- The loop over the digits of a number. -/
def readDigits : Nat → Nat → List WChar → Nat × List WChar
  | 0, nTemp, szDateW => (nTemp, szDateW)
  | _ + 1, nTemp, [] => (nTemp, [])
  | nMaxDigits + 1, nTemp, ch :: szDateW =>
    if isDigitW ch then readDigits nMaxDigits (nTemp * 10 + (ch.toNat - 0x30)) szDateW
    else (nTemp, ch :: szDateW)

/-! ### The items -/

/-- The variables of `SetFromString`. -/
structure DateValues where
  nYear : Int := -1
  nMonth : Int := -1
  nDay : Int := -1
  nHours : Int := 0
  nMinutes : Int := 0
  nSeconds : Int := 0
  nMilliSeconds : Int := 0
  nHourFlag : Int := 0
  nYDay : Int := 0
  nWeekDay : Int := -1
  nWeekNumber : Int := -1
  nOffset : Int := 0
  bOffsetSpecified : Bool := false
  i : Nat
deriving DecidableEq

/-- What an item leaves of the text, and the variables behind it. -/
abbrev ItemResult := Except HResult (List WChar × DateValues)

/-- A name of either table, the long one first. -/
def findEither (szDateW : List WChar) (longNames shortNames : List (List WChar)) : Nat × Nat :=
  let found := findName szDateW longNames
  if found.1 ≥ longNames.length then findName szDateW shortNames else found

def weekDayItem (item : WChar) (szDateW : List WChar) (v : DateValues) : ItemResult :=
  let (i, nTemp) := findEither szDateW szLongDayNamesW szShortDayNamesW
  if i < 7 then .ok (szDateW.drop nTemp, { v with nWeekDay := i, i := i })
  else .ok (skipPhrase item szDateW, { v with i := i })

def monthItem (item : WChar) (szDateW : List WChar) (v : DateValues) : ItemResult :=
  let (i, nTemp) := findEither szDateW szLongMonthNamesW szShortMonthNamesW
  if i ≥ 12 then .ok (skipPhrase item szDateW, { v with i := i })
  else .ok (szDateW.drop nTemp, { v with nMonth := i + 1, i := i })

def amPmItem (item : WChar) (szDateW : List WChar) (v : DateValues) : ItemResult :=
  let (i, nTemp) := findName szDateW [wide "AM", wide "PM"]
  if i ≥ 2 then .ok (skipPhrase item szDateW, { v with i := i })
  else .ok (szDateW.drop nTemp, { v with nHourFlag := i + 1, i := i })

/-- The digits a number may have. -/
def maxDigits (item : WChar) : Nat :=
  if item == 0x6A || item == 0x66 then 3 else if item == 0x77 then 1 else if item == 0x59 then 4
  else 2

/-- The second `switch`: the range of the number and the variable it is for. -/
def storeNumber (env : DateEnvironment) (nTwoDigitsYearRule : Int) (item : WChar) (nTemp : Nat)
    (v : DateValues) : Except HResult DateValues :=
  if item == 0x64 then
    if nTemp < 1 || nTemp > 31 then .error .mxArithmeticOverflow else .ok { v with nDay := nTemp }
  else if item == 0x48 then
    if nTemp > 23 then .error .mxArithmeticOverflow
    else .ok { v with nHours := nTemp, nHourFlag := 0 }
  else if item == 0x49 then
    if nTemp < 1 || nTemp > 12 then .error .mxArithmeticOverflow
    else .ok { v with nHours := nTemp - 1, nHourFlag := -1 }
  else if item == 0x6A then
    if nTemp < 1 || nTemp > 366 then .error .mxArithmeticOverflow
    else .ok { v with nYDay := nTemp }
  else if item == 0x6D then
    if nTemp < 1 || nTemp > 12 then .error .mxArithmeticOverflow
    else .ok { v with nMonth := nTemp }
  else if item == 0x4D then
    if nTemp > 59 then .error .mxArithmeticOverflow else .ok { v with nMinutes := nTemp }
  else if item == 0x53 then
    if nTemp > 59 then .error .mxArithmeticOverflow else .ok { v with nSeconds := nTemp }
  else if item == 0x66 then
    if nTemp > 999 then .error .mxArithmeticOverflow else .ok { v with nMilliSeconds := nTemp }
  else if item == 0x77 then
    if nTemp > 6 then .error .mxArithmeticOverflow else .ok { v with nWeekDay := nTemp }
  else if item == 0x55 || item == 0x57 then
    if nTemp > 53 then .error .mxArithmeticOverflow
    else .ok { v with nWeekNumber := if item == 0x55 then nTemp else nTemp + 100 }
  else
    match if nTemp ≤ 99 then doTwoDigitsYearAdjustment env nTemp nTwoDigitsYearRule
      else .ok (nTemp : Int) with
    | .error hRes => .error hRes
    | .ok nYear =>
      if nYear < 1 || nYear > 99999999 then .error .mxArithmeticOverflow
      else .ok { v with nYear := nYear }

/-- A number.  `chBefore` is the character in front of the text, if there is one. -/
def numberItem (env : DateEnvironment) (nTwoDigitsYearRule : Int) (chBefore : Option WChar)
    (item : WChar) (szDateW : List WChar) (v : DateValues) : ItemResult := do
  let szDateW ←
    if item == 0x66 && charAt szDateW 0 == 0x2E then
      if chBefore == none || chBefore == some 0x2E then .error .eFail else .ok (szDateW.drop 1)
    else .ok szDateW
  if !isDigitW (charAt szDateW 0) then .error .eFail
  else
    let (nTemp, szDateW) := readDigits (maxDigits item) 0 szDateW
    let v ← storeNumber env nTwoDigitsYearRule item nTemp v
    .ok (if item == 0x66 then szDateW.dropWhile isDigitW else szDateW, v)

/-- Two digits of the offset, and the colon behind them. -/
def zonePart (nLimit : Nat) (szDateW : List WChar) : Except HResult (Nat × List WChar) :=
  if !isDigitW (charAt szDateW 0) || !isDigitW (charAt szDateW 1) then .error .eFail
  else
    let nTemp := ((charAt szDateW 0).toNat - 0x30) * 10 + ((charAt szDateW 1).toNat - 0x30)
    if nTemp > nLimit then .error .mxArithmeticOverflow
    else
      let szDateW := szDateW.drop 2
      .ok (nTemp, if charAt szDateW 0 == 0x3A then szDateW.drop 1 else szDateW)

/-- `numric_tz`: the sign, the hours, the minutes and the seconds, which are not used. -/
def numericZone (szDateW : List WChar) (v : DateValues) : ItemResult := do
  let nSign : Int := if charAt szDateW 0 == 0x2B then 1 else -1
  let (nTemp, szDateW) ← zonePart 14 (szDateW.drop 1)
  let (nTemp, szDateW) ←
    if isDigitW (charAt szDateW 0) then
      (zonePart 59 szDateW).map fun (nTemp2, szDateW) => (nTemp * 60 + nTemp2, szDateW)
    else .ok (nTemp * 60, szDateW)
  let szDateW ←
    if isDigitW (charAt szDateW 0) then (zonePart 59 szDateW).map fun _ => szDateW.drop 2
    else .ok szDateW
  let nOffset := nTemp * nSign
  if nOffset < -12 * 60 || nOffset > 14 * 60 then .error .mxArithmeticOverflow
  else .ok (szDateW, { v with nOffset := nOffset, bOffsetSpecified := true })

/-- A name of a zone, or the offset. -/
def zoneItem (szDateW : List WChar) (v : DateValues) : ItemResult :=
  let v := { v with nOffset := 0, bOffsetSpecified := false }
  let named (szDateW : List WChar) : ItemResult :=
    if isLetterW (charAt szDateW 0) then .error .eFail
    else .ok (szDateW, { v with bOffsetSpecified := true })
  let isSign (ch : WChar) := ch == 0x2B || ch == 0x2D
  if charAt szDateW 0 == 0x3C then .error .eNotImpl
  else if isLetterW (charAt szDateW 0) then
    if strNCompareW szDateW (wide "GMT") 3 true then named (szDateW.drop 3)
    else if strNCompareW szDateW (wide "UT") 2 true then named (szDateW.drop 2)
    else if strNCompareW szDateW (wide "Z") 1 true then
      if isSign (charAt szDateW 1) then numericZone (szDateW.drop 1) v else named (szDateW.drop 1)
    else .error .mxUnsupported
  else if isSign (charAt szDateW 0) then numericZone szDateW v
  else .ok (szDateW, v)

/-- The items that are numbers. -/
def isNumberItem (item : WChar) : Bool := (wide "dHIjmMSfwUWyY").contains item

/-- The `switch` over the items that stand for no format. -/
def readItem (env : DateEnvironment) (nTwoDigitsYearRule : Int) (chBefore : Option WChar)
    (item : WChar) (szDateW : List WChar) (v : DateValues) : ItemResult :=
  if item == 0x61 || item == 0x41 then weekDayItem item szDateW v
  else if item == 0x62 || item == 0x42 then monthItem item szDateW v
  else if isNumberItem item then numberItem env nTwoDigitsYearRule chBefore item szDateW v
  else if item == 0x70 then amPmItem item szDateW v
  else if item == 0x7A then zoneItem szDateW v
  else if item == 0x25 then
    if charAt szDateW 0 != 0x25 then .error .eFail else .ok (szDateW.drop 1, v)
  else .ok (szDateW, v)

/-! ### The loop -/

/-- Before a turn of the loop. -/
structure ScanState where
  szFormatW : List WChar
  szDateW : List WChar
  szOldFormatW : Option (List WChar)
  v : DateValues

/-- A separator of the settings. -/
def readSeparator (separator szDateW : List WChar) : Except HResult (List WChar) :=
  if !strNCompareW szDateW separator separator.length true then .error .eFail
  else .ok (szDateW.drop separator.length)

/-- What the format has in front that is no item: what is left of the format and of the text. -/
def readLiteral (ch : WChar) (szFormatW szDateW : List WChar) :
    Except HResult (List WChar × List WChar) :=
  if ch == 0x2F then (readSeparator szDateSeparatorW szDateW).map (szFormatW, ·)
  else if ch == 0x3A then (readSeparator szTimeSeparatorW szDateW).map (szFormatW, ·)
  else if ch == 0x5C then
    match szFormatW with
    | [] => .ok ([], szDateW)
    | ch :: szFormatW => if charAt szDateW 0 != ch then .error .eFail else .ok (szFormatW, szDateW)
  else if isBlankW ch then
    if !isBlankW (charAt szDateW 0) then .error .eFail
    else .ok (szFormatW.dropWhile isBlankW, szDateW.dropWhile isBlankW)
  else if charToUpperW (charAt szDateW 0) == charToUpperW ch then .ok (szFormatW, szDateW.drop 1)
  else .error .eFail

/-- The flags and the letter of an item, behind the percent sign. -/
def itemOf (bNested : Bool) (szFormatW : List WChar) : Bool × List WChar :=
  let bAlternateFlag := charAt szFormatW 0 == 0x23
  let szFormatW := if bAlternateFlag then szFormatW.drop 1 else szFormatW
  (bAlternateFlag, if bNested && charAt szFormatW 0 == 0x21 then szFormatW.drop 1 else szFormatW)

section Scan

variable (env : DateEnvironment) (nTwoDigitsYearRule : Int) (szOrigDateW : List WChar)

/-- `*(szDateW - 1)`, unless the text has just begun. -/
def charBefore (szDateW : List WChar) : Option WChar :=
  if szOrigDateW.length - szDateW.length = 0 then none
  else szOrigDateW[szOrigDateW.length - szDateW.length - 1]?

/-- A turn of the loop, or what is done where it ends. -/
def scanTurn (s : ScanState) : ScanState ⊕ Except HResult DateValues :=
  match s.szFormatW, s.szDateW with
  | ch :: szFormatW, _ :: _ =>
    if ch == 0x25 then
      match itemOf s.szOldFormatW.isSome szFormatW with
      | (_, []) => .inl { s with szFormatW := [] }
      | (bAlternateFlag, item :: szFormatW) =>
        match itemFormat bAlternateFlag item with
        | some szNestedW =>
          if s.szOldFormatW.isSome then .inr (.error .eInvalidArg)
          else .inl { s with szFormatW := szNestedW, szOldFormatW := some szFormatW }
        | none =>
          match readItem env nTwoDigitsYearRule (charBefore szOrigDateW s.szDateW) item s.szDateW
            s.v with
          | .error hRes => .inr (.error hRes)
          | .ok (szDateW, v) => .inl { s with szFormatW := szFormatW, szDateW := szDateW, v := v }
    else
      match readLiteral ch szFormatW s.szDateW with
      | .error hRes => .inr (.error hRes)
      | .ok (szFormatW, szDateW) => .inl { s with szFormatW := szFormatW, szDateW := szDateW }
  | szFormatW, szDateW =>
    match s.szOldFormatW, szDateW with
    | some szOldFormatW, _ :: _ => .inl ⟨szOldFormatW, szDateW, none, s.v⟩
    | _, _ =>
      if szDateW.isEmpty && !szFormatW.isEmpty then .inr (.error .eFail) else .inr (.ok s.v)

/-- What is left of both formats.  One that an item stands for has 27 characters at most. -/
def ScanState.left (s : ScanState) : Nat :=
  match s.szOldFormatW with
  | none => s.szFormatW.length * 32
  | some szOldFormatW => szOldFormatW.length * 32 + s.szFormatW.length + 1

/-- The loop, from a state of it. -/
def scanFrom (s : ScanState) : Except HResult DateValues :=
  Loop.exec (scanTurn env nTwoDigitsYearRule szOrigDateW) ScanState.left (.error .eFail) s

end Scan

/-! ### Behind the loop -/

/-- The loop over the months: the month and the day of a day of the year. -/
def monthOfYDay (bAlternateFlag : Bool) (i : Nat) : Nat → Nat → Nat → Option (Nat × Nat)
  | 0, _, _ => none
  | fuel + 1, nMonth, nDay =>
    let nTemp := aDateTimeMonthDays.getD nMonth 0 - aDateTimeMonthDays.getD (nMonth - 1) 0 +
      if bAlternateFlag && i == 2 then 1 else 0
    if nTemp ≥ nDay then some (nMonth, nDay)
    else monthOfYDay bAlternateFlag i fuel (nMonth + 1) (nDay - nTemp)

/-- The month and the day from the day of the year, or from the week. -/
def fixMonth (v : DateValues) : Except HResult DateValues :=
  if v.nYear ≥ 0 ∧ (v.nMonth < 0 ∨ v.nDay < 0) then
    let nYDay :=
      if v.nYDay < 0 ∧ v.nWeekDay ≥ 0 ∧ v.nWeekNumber ≥ 0 then
        v.nWeekNumber.tmod 100 * 7 + v.nWeekDay + 1 + if v.nWeekNumber ≥ 100 then 1 else 0
      else v.nYDay
    if nYDay > 0 then
      match monthOfYDay (isLeapYear v.nYear.toNat) v.i 12 1 nYDay.toNat with
      | none => .error .mxArithmeticOverflow
      | some (nMonth, nDay) => .ok { v with nMonth := nMonth, nDay := nDay }
    else .ok v
  else .ok v

/-- What is stored. -/
def storeValues (cDt : CDateTime) (v : DateValues) : HResult × CDateTime :=
  let v := if v.nHourFlag = 2 ∧ v.nHours < 12 then { v with nHours := v.nHours + 12 } else v
  match fixMonth v with
  | .error hRes => (hRes, cDt)
  | .ok v =>
    let v := if v.nYear < 0 ∨ v.nMonth < 0 ∨ v.nDay < 0 then
      { v with nYear := 1, nMonth := 1, nDay := 1 } else v
    let (hRes, cTicks) := setDateTimeOf cDt.cTicks v.nYear v.nMonth v.nDay v.nHours v.nMinutes
      v.nSeconds v.nMilliSeconds
    if hRes.failed then (hRes, ⟨cTicks, cDt.nGmtOffset⟩)
    else (.sOk, ⟨cTicks, if v.bOffsetSpecified then v.nOffset else 0⟩)

/-- `SetFromString(szDateW, szFormatW, NULL, nTwoDigitsYearRule)` -/
def setFromStringW (env : DateEnvironment) (cDt : CDateTime) (szDateW szFormatW : List WChar)
    (nTwoDigitsYearRule : Int) : HResult × CDateTime :=
  let szDateW := szStr szDateW
  if szDateW.isEmpty then (.eInvalidArg, cDt)
  else if 0 < nTwoDigitsYearRule ∧ nTwoDigitsYearRule ≤ 100 then (.eInvalidArg, cDt)
  else
    match scanFrom env nTwoDigitsYearRule szDateW
      ⟨szStr szFormatW, szDateW, none, { i := env.i }⟩ with
    | .error hRes => (hRes, cDt)
    | .ok v => storeValues cDt v

/-- `SetFromString(szDateA, szFormatA, NULL, nTwoDigitsYearRule)`: both texts are made wide with
the code page of the system. -/
def setFromStringA (conv : Conversions) (hasRoom : Nat → Bool) (env : DateEnvironment)
    (cDt : CDateTime) (szDateA szFormatA : List Byte) (nTwoDigitsYearRule : Int) :
    HResult × CDateTime :=
  let cStrTempDateW := copyWide conv false hasRoom szDateA
  let cStrTempFormatW := copyWide conv false hasRoom szFormatA
  if !cStrTempDateW.bRes || !cStrTempFormatW.bRes then (.eOutOfMemory, cDt)
  else setFromStringW env cDt cStrTempDateW.cStr cStrTempFormatW.cStr nTwoDigitsYearRule

/-! ### Turns of the loop -/

theorem length_itemOf_le (bNested : Bool) (szFormatW : List WChar) :
    (itemOf bNested szFormatW).2.length ≤ szFormatW.length := by
  have hdrop : ∀ (b : Bool) (sW : List WChar),
      (if b then sW.drop 1 else sW).length ≤ sW.length := by
    intro b sW
    split
    · rw [List.length_drop]
      exact Nat.sub_le _ _
    · exact Nat.le_refl _
  exact (hdrop _ _).trans (hdrop _ _)

theorem length_itemFormat_le {bAlternateFlag : Bool} {item : WChar} {szNestedW : List WChar}
    (h : itemFormat bAlternateFlag item = some szNestedW) : szNestedW.length ≤ 27 := by
  have hdate : (if bAlternateFlag then szShortDateFormatW else szLongDateFormatW).length ≤ 15 := by
    cases bAlternateFlag <;> decide
  have htime : szTimeFormatW.length = 11 := by decide
  have hblank : (wide " ").length = 1 := by decide
  rw [itemFormat] at h
  split at h
  · obtain rfl := Option.some.inj h
    rw [List.length_append, List.length_append]
    omega
  split at h
  · obtain rfl := Option.some.inj h
    omega
  split at h
  · obtain rfl := Option.some.inj h
    omega
  · cases h

theorem length_readLiteral_le {ch : WChar} {szFormatW szDateW : List WChar}
    {rest : List WChar × List WChar} (h : readLiteral ch szFormatW szDateW = .ok rest) :
    rest.1.length ≤ szFormatW.length := by
  unfold readLiteral at h
  split at h
  · obtain ⟨a, -, rfl⟩ := exists_of_map_ok h
    exact Nat.le_refl _
  split at h
  · obtain ⟨a, -, rfl⟩ := exists_of_map_ok h
    exact Nat.le_refl _
  split at h
  · cases szFormatW with
    | nil =>
      obtain rfl := Except.ok.inj h
      exact Nat.le_refl _
    | cons ch' szFormatW =>
      dsimp only at h
      split at h
      · cases h
      · obtain rfl := Except.ok.inj h
        exact Nat.le_succ _
  split at h
  · split at h
    · cases h
    · obtain rfl := Except.ok.inj h
      exact (List.dropWhile_sublist _).length_le
  split at h
  · obtain rfl := Except.ok.inj h
    exact Nat.le_refl _
  · cases h

section Scan

variable {env : DateEnvironment} {nTwoDigitsYearRule : Int} {szOrigDateW : List WChar}

/-- **Every turn takes something of the formats.** -/
theorem left_lt_of_scanTurn (s t : ScanState)
    (h : scanTurn env nTwoDigitsYearRule szOrigDateW s = .inl t) : t.left < s.left := by
  obtain ⟨szFormatW, szDateW, szOldFormatW, v⟩ := s
  -- a turn that only shortens the format in front
  have hshort : ∀ {szFormatW' szDateW' v'}, szFormatW'.length < szFormatW.length →
      (ScanState.mk szFormatW' szDateW' szOldFormatW v').left <
        (ScanState.mk szFormatW szDateW szOldFormatW v).left := by
    intro szFormatW' szDateW' v' hlt
    cases szOldFormatW with
    | none => exact Nat.mul_lt_mul_of_pos_right hlt (by decide)
    | some szOldFormatW =>
      change szOldFormatW.length * 32 + szFormatW'.length + 1 <
        szOldFormatW.length * 32 + szFormatW.length + 1
      omega
  have hleave : ∀ szFormatW szDateW, (match szOldFormatW, szDateW with
      | some szOldFormatW, _ :: _ =>
        (.inl ⟨szOldFormatW, szDateW, none, v⟩ : ScanState ⊕ Except HResult DateValues)
      | _, _ =>
        if szDateW.isEmpty && !szFormatW.isEmpty then .inr (.error .eFail) else .inr (.ok v)) =
          .inl t → t.left < (ScanState.mk szFormatW szDateW szOldFormatW v).left := by
    intro szFormatW szDateW hb
    split at hb
    · obtain rfl := Sum.inl.inj hb
      exact Nat.lt_succ_of_le (Nat.le_add_right _ _)
    · split at hb
      · cases hb
      · cases hb
  cases szFormatW with
  | nil => exact hleave [] szDateW h
  | cons ch szFormatW =>
    cases szDateW with
    | nil => exact hleave (ch :: szFormatW) [] h
    | cons chDate szDateW =>
      rw [scanTurn] at h
      dsimp only at h
      split at h
      · have hitem := length_itemOf_le szOldFormatW.isSome szFormatW
        split at h
        · obtain rfl := Sum.inl.inj h
          exact hshort (Nat.succ_pos _)
        rename_i bAlternateFlag item rest heq
        rw [heq, List.length_cons] at hitem
        split at h
        · rename_i szNestedW hnested
          split at h
          · cases h
          · -- the item stands for a format
            rename_i hnone
            obtain rfl := Sum.inl.inj h
            rw [Bool.not_eq_true, Option.isSome_eq_false_iff, Option.isNone_iff_eq_none] at hnone
            subst hnone
            have hlen := length_itemFormat_le hnested
            change rest.length * 32 + szNestedW.length + 1 < (szFormatW.length + 1) * 32
            omega
        · split at h
          · cases h
          · obtain rfl := Sum.inl.inj h
            exact hshort (by rw [List.length_cons]; omega)
      · split at h
        · cases h
        · rename_i szFormatW' szDateW' hliteral
          obtain rfl := Sum.inl.inj h
          exact hshort (Nat.lt_succ_of_le (length_readLiteral_le hliteral))

theorem scanFrom_inl {s t : ScanState}
    (h : scanTurn env nTwoDigitsYearRule szOrigDateW s = .inl t) :
    scanFrom env nTwoDigitsYearRule szOrigDateW s =
      scanFrom env nTwoDigitsYearRule szOrigDateW t :=
  Loop.exec_inl left_lt_of_scanTurn _ h

theorem scanFrom_inr {s : ScanState} {r : Except HResult DateValues}
    (h : scanTurn env nTwoDigitsYearRule szOrigDateW s = .inr r) :
    scanFrom env nTwoDigitsYearRule szOrigDateW s = r :=
  Loop.exec_inr _ h

/-- The letter of an item that stands for no format, and that is no flag. -/
def IsPlainItem (item : WChar) : Prop :=
  item ≠ 0x23 ∧ item ≠ 0x63 ∧ item ≠ 0x78 ∧ item ≠ 0x58

instance (item : WChar) : Decidable (IsPlainItem item) :=
  inferInstanceAs (Decidable (_ ∧ _ ∧ _ ∧ _))

variable {szFormatW szDateW : List WChar} {v : DateValues}

/-- An item, in a format that no item stands for. -/
theorem scanTurn_item {item : WChar} (hitem : IsPlainItem item) (hne : szDateW ≠ []) :
    scanTurn env nTwoDigitsYearRule szOrigDateW ⟨0x25 :: item :: szFormatW, szDateW, none, v⟩ =
      match readItem env nTwoDigitsYearRule (charBefore szOrigDateW szDateW) item szDateW v with
      | .error hRes => .inr (.error hRes)
      | .ok (szDateW, v) => .inl ⟨szFormatW, szDateW, none, v⟩ := by
  obtain ⟨hflag, hc, hx, hX⟩ := hitem
  have hof : itemOf false (item :: szFormatW) = (false, item :: szFormatW) := by
    simp [itemOf, hflag]
  have hformat : itemFormat false item = none := by
    simp [itemFormat, hc, hx, hX]
  cases szDateW with
  | nil => exact absurd rfl hne
  | cons ch szDateW =>
    rw [scanTurn]
    dsimp only
    rw [if_pos (by rfl), Option.isSome_none, hof]
    dsimp only
    rw [hformat]

theorem scanFrom_item {item : WChar} (hitem : IsPlainItem item) (hne : szDateW ≠ [])
    {rest : List WChar} {v' : DateValues}
    (hread : readItem env nTwoDigitsYearRule (charBefore szOrigDateW szDateW) item szDateW v =
      .ok (rest, v')) :
    scanFrom env nTwoDigitsYearRule szOrigDateW ⟨0x25 :: item :: szFormatW, szDateW, none, v⟩ =
      scanFrom env nTwoDigitsYearRule szOrigDateW ⟨szFormatW, rest, none, v'⟩ :=
  scanFrom_inl (by rw [scanTurn_item hitem hne, hread])

theorem scanFrom_item_error {item : WChar} (hitem : IsPlainItem item) (hne : szDateW ≠ [])
    {hRes : HResult}
    (hread : readItem env nTwoDigitsYearRule (charBefore szOrigDateW szDateW) item szDateW v =
      .error hRes) :
    scanFrom env nTwoDigitsYearRule szOrigDateW ⟨0x25 :: item :: szFormatW, szDateW, none, v⟩ =
      .error hRes :=
  scanFrom_inr (by rw [scanTurn_item hitem hne, hread])

theorem scanTurn_literal {ch : WChar} (hch : ch ≠ 0x25) (hne : szDateW ≠ []) :
    scanTurn env nTwoDigitsYearRule szOrigDateW ⟨ch :: szFormatW, szDateW, none, v⟩ =
      match readLiteral ch szFormatW szDateW with
      | .error hRes => .inr (.error hRes)
      | .ok (szFormatW, szDateW) => .inl ⟨szFormatW, szDateW, none, v⟩ := by
  cases szDateW with
  | nil => exact absurd rfl hne
  | cons chDate szDateW =>
    rw [scanTurn]
    dsimp only
    rw [if_neg (by rw [beq_iff_eq]; exact hch)]

theorem scanFrom_literal {ch : WChar} (hch : ch ≠ 0x25) (hne : szDateW ≠ [])
    {szFormatW' szDateW' : List WChar}
    (hread : readLiteral ch szFormatW szDateW = .ok (szFormatW', szDateW')) :
    scanFrom env nTwoDigitsYearRule szOrigDateW ⟨ch :: szFormatW, szDateW, none, v⟩ =
      scanFrom env nTwoDigitsYearRule szOrigDateW ⟨szFormatW', szDateW', none, v⟩ :=
  scanFrom_inl (by rw [scanTurn_literal hch hne, hread])

theorem scanFrom_literal_error {ch : WChar} (hch : ch ≠ 0x25) (hne : szDateW ≠ [])
    {hRes : HResult} (hread : readLiteral ch szFormatW szDateW = .error hRes) :
    scanFrom env nTwoDigitsYearRule szOrigDateW ⟨ch :: szFormatW, szDateW, none, v⟩ = .error hRes :=
  scanFrom_inr (by rw [scanTurn_literal hch hne, hread])

theorem scanFrom_nil : scanFrom env nTwoDigitsYearRule szOrigDateW ⟨[], [], none, v⟩ = .ok v :=
  scanFrom_inr rfl

end Scan

end MxLib.DateTime
