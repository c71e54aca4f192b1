import MxLib.Defines

/-!
# Dates as text

The calendar of `CDateTime` and its `AppendFormat`, with the default settings.  A date is
given by its ticks, which are the hundreds of nanoseconds since the first day of year 1,
and by the offset it is written at.

An item such as `%c` stands for a format of its own.  The loop goes over that format and
comes back, so the items that stand for a format are refused inside one.
-/

namespace MxLib.DateTime

/-! ### The calendar -/

def ticksPerDay : Nat := 864000000000
def ticksPerHour : Nat := 36000000000
def ticksPerMinute : Nat := 600000000
def ticksPerSecond : Nat := 10000000
def ticksPerMillisecond : Nat := 10000

def aDateTimeMonthDays : List Nat := [0, 31, 59, 90, 120, 151, 181, 212, 243, 273, 304, 334, 365]

def isLeapYear (nYear : Nat) : Bool :=
  1 ≤ nYear && nYear % 4 == 0 && (nYear % 100 != 0 || nYear % 400 == 0)

/-- The days of a month, before the test of the year. -/
def monthDays (nMonth nYear : Nat) : Nat :=
  aDateTimeMonthDays.getD nMonth 0 - aDateTimeMonthDays.getD (nMonth - 1) 0 +
    if isLeapYear nYear && nMonth == 2 then 1 else 0

/-- `GetDaysInMonth` -/
def getDaysInMonth (nMonth nYear : Nat) : Nat :=
  if nYear < 1 || nYear > 9999 || nMonth < 1 || nMonth > 12 then 0 else monthDays nMonth nYear

/-- `IsDateValid` -/
def isDateValid (nYear nMonth nDay : Nat) : Bool :=
  1 ≤ nDay && getDaysInMonth nMonth nYear > 0 && nDay ≤ getDaysInMonth nMonth nYear

/-- `TicksToYearAndDayOfYear` -/
def ticksToYearAndDayOfYear (nTicks : Nat) : Nat × Nat :=
  let nTotalDays := nTicks / ticksPerDay
  let nYears400 := nTotalDays / 146097
  let nDays400 := nTotalDays % 146097
  let nYears100 := nDays400 / 36524
  let nDays100 := nDays400 % 36524
  let nYears4 := nDays100 / 1461
  let nDays4 := nDays100 % 1461
  let nYears1 := nDays4 / 365
  let nYear := 400 * nYears400 + 100 * nYears100 + 4 * nYears4 + nYears1
  if nYears100 == 4 || nYears1 == 4 then (nYear, 366) else (nYear + 1, nDays4 % 365 + 1)

/-- The loop of `CalculateDayMonth`, with at most `fuel` months left. -/
def dayMonthFrom (nYear : Nat) : Nat → Nat → Nat → Nat × Nat
  | 0, nMonth, nDayOfYear => (nMonth, nDayOfYear)
  | fuel + 1, nMonth, nDayOfYear =>
    if nDayOfYear ≤ monthDays nMonth nYear then (nMonth, nDayOfYear)
    else dayMonthFrom nYear fuel (nMonth + 1) (nDayOfYear - monthDays nMonth nYear)

/-- `CalculateDayMonth`: the month and the day, or zeros. -/
def calculateDayMonth (nDayOfYear nYear : Nat) : Nat × Nat :=
  if nYear < 1 || nYear > 9999 || nDayOfYear < 1 then (0, 0)
  else if nDayOfYear > 365 + (if isLeapYear nYear then 1 else 0) then (0, 0)
  else dayMonthFrom nYear 12 1 nDayOfYear

/-- `GetDayOfWeek(nYear, nMonth, nDay)` -/
def getDayOfWeek (nYear nMonth nDay : Nat) : Int :=
  if !isDateValid nYear nMonth nDay then -1
  else
    let nTemp := nYear * 365 + nYear / 4 - nYear / 100 + nYear / 400 +
      aDateTimeMonthDays.getD (nMonth - 1) 0 + nDay
    let nTemp := if nMonth ≤ 2 && isLeapYear nYear then nTemp - 1 else nTemp
    ((nTemp - 1) % 7 : Nat)

/-! ### The items -/

def szShortDayNamesW : List (List WChar) :=
  ["Sun", "Mon", "Tue", "Wed", "Thu", "Fri", "Sat"].map wide

def szLongDayNamesW : List (List WChar) :=
  ["Sunday", "Monday", "Tuesday", "Wednesday", "Thursday", "Friday", "Saturday"].map wide

def szShortMonthNamesW : List (List WChar) :=
  ["Jan", "Feb", "Mar", "Apr", "May", "Jun", "Jul", "Aug", "Sep", "Oct", "Nov", "Dec"].map wide

def szLongMonthNamesW : List (List WChar) :=
  ["January", "February", "March", "April", "May", "June", "July", "August", "September",
    "October", "November", "December"].map wide

def szDateSeparatorW : List WChar := wide "/"
def szTimeSeparatorW : List WChar := wide ":"
def szShortDateFormatW : List WChar := wide "%m/%d/%y"
def szLongDateFormatW : List WChar := wide "%A, %B %#d, %Y"
def szTimeFormatW : List WChar := wide "%I:%M:%S %p"

/-- `Format_AddNumber` -/
def formatAddNumber (nNumber nMinDigits : Nat) : List WChar :=
  let aDigitsW := (Nat.toDigits 10 nNumber).map fun c => UInt16.ofNat c.toNat
  List.replicate (nMinDigits - aDigitsW.length) 0x30 ++ aDigitsW

/-- The week number, where `nWeekDay` is counted from the first day of a week. -/
def weekNumber (nDayOfYear nWeekDay : Nat) : Nat :=
  if nDayOfYear < nWeekDay then 0
  else if nDayOfYear % 7 ≥ nWeekDay then nDayOfYear / 7 + 1 else nDayOfYear / 7

/-- The text of an item that stands for no format. -/
def itemText (nTicks : Nat) (nGmtOffset : Int) (bAlternateFlag : Bool) (item : WChar) :
    List WChar :=
  let (nYear, nDayOfYear) := ticksToYearAndDayOfYear nTicks
  let (nMonth, nDay) := calculateDayMonth nDayOfYear nYear
  let nHours := nTicks % ticksPerDay / ticksPerHour
  let nWeekDay := (getDayOfWeek nYear nMonth nDay).toNat
  let short (n : Nat) := formatAddNumber n (if bAlternateFlag then 1 else 2)
  if item == 0x61 then szShortDayNamesW.getD nWeekDay []
  else if item == 0x41 then szLongDayNamesW.getD nWeekDay []
  else if item == 0x62 then szShortMonthNamesW.getD (nMonth - 1) []
  else if item == 0x42 then szLongMonthNamesW.getD (nMonth - 1) []
  else if item == 0x64 then short nDay
  else if item == 0x48 then short nHours
  else if item == 0x49 then short (if nHours % 12 == 0 then 12 else nHours % 12)
  else if item == 0x6A then formatAddNumber (nDayOfYear + 1) 3
  else if item == 0x6D then short nMonth
  else if item == 0x4D then short (nTicks % ticksPerHour / ticksPerMinute)
  else if item == 0x70 then
    let text := if nHours < 12 then wide "AM" else wide "PM"
    if bAlternateFlag then text.map (· + 0x20) else text
  else if item == 0x53 then short (nTicks % ticksPerMinute / ticksPerSecond)
  else if item == 0x66 then
    formatAddNumber (nTicks % ticksPerSecond / ticksPerMillisecond) (if bAlternateFlag then 1 else 3)
  else if item == 0x77 then short nWeekDay
  else if item == 0x55 then short (weekNumber nDayOfYear nWeekDay)
  else if item == 0x57 then
    short (weekNumber nDayOfYear (if nWeekDay == 0 then 6 else nWeekDay - 1))
  else if item == 0x79 then short (nYear % 100)
  else if item == 0x59 then short nYear
  else if item == 0x7A then
    if nGmtOffset = 0 then if bAlternateFlag then wide "+0000" else wide "GMT"
    else
      let nTemp := nGmtOffset.natAbs
      (if nGmtOffset ≥ 0 then wide "+" else wide "-") ++ formatAddNumber (nTemp / 60) 2 ++
        formatAddNumber (nTemp % 60) 2
  else if item == 0x25 then wide "%"
  else []

theorem exists_itemText_dayName (nTicks : Nat) (nGmtOffset : Int) (bAlternateFlag : Bool) :
    ∃ k, itemText nTicks nGmtOffset bAlternateFlag 0x61 = szShortDayNamesW.getD k [] :=
  ⟨_, rfl⟩

/-- The format an item stands for. -/
def itemFormat (bAlternateFlag : Bool) (item : WChar) : Option (List WChar) :=
  let date := if bAlternateFlag then szShortDateFormatW else szLongDateFormatW
  if item == 0x63 then some (date ++ wide " " ++ szTimeFormatW)
  else if item == 0x78 then some date
  else if item == 0x58 then some szTimeFormatW
  else none

/-! ### The loop -/

/-- What a turn of the loop reads from the format: a text, or an item. -/
inductive FormatPart
  | text (cStrW : List WChar)
  | item (bAlternateFlag : Bool) (item : WChar)

/-- The part at the front of a format, and the format behind it. -/
def nextPart (bNested : Bool) : List WChar → FormatPart × List WChar
  | [] => (.text [], [])
  | ch :: szFormatW =>
    if ch == 0x25 then
      let bAlternateFlag := szFormatW.head? == some 0x23
      let szFormatW := if bAlternateFlag then szFormatW.tail else szFormatW
      match if bNested && szFormatW.head? == some 0x21 then szFormatW.tail else szFormatW with
      | [] => (.text [], [])
      | item :: szFormatW => (.item bAlternateFlag item, szFormatW)
    else if ch == 0x2F then (.text szDateSeparatorW, szFormatW)
    else if ch == 0x3A then (.text szTimeSeparatorW, szFormatW)
    else if ch == 0x5C then
      match szFormatW with
      | [] => (.text [], [])
      | ch :: szFormatW => (.text [ch], szFormatW)
    else (.text [ch], szFormatW)

section Loop

variable (nTicks : Nat) (nGmtOffset : Int)

/-- The loop over a format that an item stands for. -/
def nestedFrom : Nat → List WChar → Except HResult (List WChar)
  | 0, _ => .ok []
  | _, [] => .ok []
  | fuel + 1, szFormatW =>
    match nextPart true szFormatW with
    | (.text cStrW, szFormatW) => (nestedFrom fuel szFormatW).map (cStrW ++ ·)
    | (.item bAlternateFlag item, szFormatW) =>
      match itemFormat bAlternateFlag item with
      | some _ => .error .eInvalidArg
      | none =>
        (nestedFrom fuel szFormatW).map (itemText nTicks nGmtOffset bAlternateFlag item ++ ·)

/-- The loop over the format.  A part takes at least one character, so as many turns as
there are characters are enough. -/
def formatFrom : Nat → List WChar → Except HResult (List WChar)
  | 0, _ => .ok []
  | _, [] => .ok []
  | fuel + 1, szFormatW =>
    match nextPart false szFormatW with
    | (.text cStrW, szFormatW) => (formatFrom fuel szFormatW).map (cStrW ++ ·)
    | (.item bAlternateFlag item, szFormatW) =>
      match itemFormat bAlternateFlag item with
      | some szNestedW =>
        match nestedFrom nTicks nGmtOffset szNestedW.length szNestedW with
        | .error hRes => .error hRes
        | .ok cStrW => (formatFrom fuel szFormatW).map (cStrW ++ ·)
      | none =>
        (formatFrom fuel szFormatW).map (itemText nTicks nGmtOffset bAlternateFlag item ++ ·)

/-- The text `AppendFormat` appends; the default settings give ASCII text. -/
def formatText (szFormatA : List Byte) : Except HResult (List Byte) :=
  let szFormatW := szFormatA.map UInt8.toUInt16
  (formatFrom nTicks nGmtOffset szFormatW.length szFormatW).map fun cStrW =>
    cStrW.map UInt16.toUInt8

theorem formatFrom_text {fuel : Nat} {ch : WChar} {szFormatW rest cStrW : List WChar}
    (h : nextPart false (ch :: szFormatW) = (.text cStrW, rest)) :
    formatFrom nTicks nGmtOffset (fuel + 1) (ch :: szFormatW) =
      (formatFrom nTicks nGmtOffset fuel rest).map (cStrW ++ ·) := by
  simp only [formatFrom, h]

theorem formatFrom_item {fuel : Nat} {ch item : WChar} {szFormatW rest : List WChar}
    {bAlternateFlag : Bool}
    (h : nextPart false (ch :: szFormatW) = (.item bAlternateFlag item, rest))
    (hitem : itemFormat bAlternateFlag item = none) :
    formatFrom nTicks nGmtOffset (fuel + 1) (ch :: szFormatW) =
      (formatFrom nTicks nGmtOffset fuel rest).map
        (itemText nTicks nGmtOffset bAlternateFlag item ++ ·) := by
  simp only [formatFrom, h, hitem]

end Loop

end MxLib.DateTime
