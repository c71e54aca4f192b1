import MxLib.DateTime.DateText

/-!
# Dates of HTTP

`ParseDate` tries four formats, one after the other.  The first is that of IMF-fixdate, and
the second one that of RFC 850 dates: `%Y` reads two digits as well as four.  The last one is
for the dates of `asctime`, but it wants a comma behind the name of the day and a time zone
behind the year, and there is neither: no such date is accepted.
-/

namespace MxLib.Http

open MxLib.DateTime MxLib.Library.Unicode

/-! ### The code -/

/-- The text that is parsed; `none` stands for the length `(SIZE_T)-1`. -/
def dateArgument {α : Type} [BEq α] [OfNat α 0] (hasRoom : Nat → Bool) (szDateTime : List α) :
    Option Nat → Except HResult (List α)
  | none => if (szStr szDateTime).length = 0 then .error .mxInvalidData else .ok szDateTime
  | some nDateTimeLen =>
    if nDateTimeLen > 0 then
      if hasRoom (nDateTimeLen + 1) then .ok (szDateTime.take nDateTimeLen)
      else .error .eOutOfMemory
    else .error .mxInvalidData

/-- The formats, as long as the call fails. -/
def parseFormats (setFromString : CDateTime → String → HResult × CDateTime) :
    HResult × CDateTime :=
  let r := setFromString .clear "%a, %d %b %Y %H:%M:%S %z"
  let r := if r.1.failed then setFromString r.2 "%A, %d-%b-%Y %H:%M:%S %z" else r
  let r := if r.1.failed then setFromString r.2 "%Y.%m.%dT%H:%M" else r
  let r := if r.1.failed then setFromString r.2 "%a, %b %d %H:%M:%S %Y %z" else r
  let hRes := if r.1 = .eFail then .mxInvalidData else r.1
  if hRes.failed then (hRes, .clear) else (hRes, r.2)

/-- `ParseDate(cDt, szDateTimeA, nDateTimeLen)`; `none` is the null pointer. -/
def parseDateA (conv : Conversions) (hasRoom : Nat → Bool) (env : DateEnvironment)
    (szDateTimeA : Option (List Byte)) (nDateTimeLen : Option Nat) : HResult × CDateTime :=
  match szDateTimeA with
  | none => (.ePointer, .clear)
  | some szDateTimeA =>
    match dateArgument hasRoom szDateTimeA nDateTimeLen with
    | .error hRes => (hRes, .clear)
    | .ok szDateTimeA => parseFormats fun cDt szFormat =>
      setFromStringA conv hasRoom env cDt szDateTimeA (ascii szFormat) 0

/-- `ParseDate(cDt, szDateTimeW, nDateTimeLen)` -/
def parseDateW (hasRoom : Nat → Bool) (env : DateEnvironment) (szDateTimeW : Option (List WChar))
    (nDateTimeLen : Option Nat) : HResult × CDateTime :=
  match szDateTimeW with
  | none => (.ePointer, .clear)
  | some szDateTimeW =>
    match dateArgument hasRoom szDateTimeW nDateTimeLen with
    | .error hRes => (hRes, .clear)
    | .ok szDateTimeW => parseFormats fun cDt szFormat =>
      setFromStringW env cDt szDateTimeW (wide szFormat) 0

/-! ### The three forms -/

/-- An instant of the years with four digits, in whole seconds. -/
structure HttpInstant where
  t : DateFields
  valid : t.Valid
  fourDigits : 1000 ≤ t.nYear
  whole : t.nMilliSeconds = 0

/-- `HTTP-date`: `IMF-fixdate`, `rfc850-date` and `asctime-date`. -/
inductive DateForm
  | imfFixdate | rfc850 | asctime
deriving DecidableEq

/-- `day-name`, Sunday first -/
def dayName : List (List WChar) := ["Sun", "Mon", "Tue", "Wed", "Thu", "Fri", "Sat"].map wide

/-- `day-name-l` -/
def dayNameL : List (List WChar) :=
  ["Sunday", "Monday", "Tuesday", "Wednesday", "Thursday", "Friday", "Saturday"].map wide

def monthName : List (List WChar) :=
  ["Jan", "Feb", "Mar", "Apr", "May", "Jun", "Jul", "Aug", "Sep", "Oct", "Nov", "Dec"].map wide

/-- The day of the week; the first day of year 1 is a Monday. -/
def weekDay (t : DateFields) : Nat := (absoluteDay t.nYear t.nMonth t.nDay + 1) % 7

/-- `time-of-day` -/
def timeOfDay (t : DateFields) : List (List WChar) :=
  [fixedDigits 2 t.nHours, wide ":", fixedDigits 2 t.nMinutes, wide ":", fixedDigits 2 t.nSeconds]

/-- The parts of the text. -/
def DateForm.parts (t : DateFields) : DateForm → List (List WChar)
  | .imfFixdate =>
    [dayName.getD (weekDay t) [], wide ", ", fixedDigits 2 t.nDay, wide " ",
      monthName.getD (t.nMonth - 1) [], wide " ", fixedDigits 4 t.nYear, wide " "] ++
      timeOfDay t ++ [wide " GMT"]
  | .rfc850 =>
    [dayNameL.getD (weekDay t) [], wide ", ", fixedDigits 2 t.nDay, wide "-",
      monthName.getD (t.nMonth - 1) [], wide "-", fixedDigits 2 t.nYear, wide " "] ++
      timeOfDay t ++ [wide " GMT"]
  | .asctime =>
    [dayName.getD (weekDay t) [], wide " ", monthName.getD (t.nMonth - 1) [], wide " ",
      if t.nDay < 10 then wide " " ++ fixedDigits 1 t.nDay else fixedDigits 2 t.nDay, wide " "] ++
      timeOfDay t ++ [wide " ", fixedDigits 4 t.nYear]

def DateForm.text (t : DateFields) (form : DateForm) : List WChar := (form.parts t).flatten

/-- The year a text stands for: with two digits only, it is the one of the hundred years that
end with the last one of the calendar rule. -/
def DateForm.StandsFor (env : DateEnvironment) (nYear : Nat) : DateForm → Nat → Prop
  | .rfc850, nYear' => ∃ nRule, env.yearRule = .ok nRule ∧ nYear' % 100 = nYear % 100 ∧
      (nYear' : Int) ≤ nRule ∧ nRule < nYear' + 100
  | _, nYear' => nYear' = nYear

/-- Narrow or wide, and with its length or without it, the text of the instant is accepted and
gives the instant, in the year that the text stands for. -/
def DateForm.Accepted (conv : Conversions) (env : DateEnvironment) (t : DateFields)
    (form : DateForm) : Prop :=
  ∀ nYear, form.StandsFor env t.nYear nYear → isDateValid nYear t.nMonth t.nDay = true →
    ∀ nDateTimeLen, nDateTimeLen = none ∨ nDateTimeLen = some (form.text t).length →
      parseDateW (fun _ => true) env (some (form.text t)) nDateTimeLen =
          (.sOk, ⟨{ t with nYear }.ticks, 0⟩) ∧
        parseDateA conv (fun _ => true) env (some ((form.text t).map UInt16.toUInt8)) nDateTimeLen =
          (.sOk, ⟨{ t with nYear }.ticks, 0⟩)

/-! ### The text of a date -/

/-- A character of ASCII that ends no text. -/
def IsDateChar (ch : WChar) : Prop := ch ≠ 0 ∧ ch.toNat < 0x80

/-- A part of the text of a date. -/
def IsDatePart (part : List WChar) : Prop := part.length ≤ 9 ∧ ∀ ch ∈ part, IsDateChar ch

instance (ch : WChar) : Decidable (IsDateChar ch) := inferInstanceAs (Decidable (_ ∧ _))

instance (part : List WChar) : Decidable (IsDatePart part) :=
  decidable_of_iff (part.length ≤ 9 ∧ (part.all fun ch => decide (IsDateChar ch)) = true)
    (and_congr_right fun _ => List.all_iff_forall_prop)

theorem isDatePart_getD {names : List (List WChar)} (h : ∀ name ∈ names, IsDatePart name)
    (i : Nat) : IsDatePart (names.getD i []) := by
  rw [List.getD_eq_getElem?_getD]
  cases hname : names[i]? with
  | none => exact ⟨Nat.zero_le _, nofun⟩
  | some name => exact h name (List.mem_of_getElem? hname)

theorem isDatePart_fixedDigits {k : Nat} (hk : k ≤ 8) (n : Nat) : IsDatePart (fixedDigits k n) := by
  refine ⟨by rw [length_fixedDigits]; omega, fun ch hch => ?_⟩
  have hdigit := (isDigitW_iff ch).mp (fixedDigits_digits k n ch hch)
  refine ⟨?_, by omega⟩
  rintro rfl
  exact absurd hdigit.1 (by decide)

theorem isDatePart_day (n : Nat) :
    IsDatePart (if n < 10 then wide " " ++ fixedDigits 1 n else fixedDigits 2 n) := by
  split
  · obtain ⟨-, htext⟩ := isDatePart_fixedDigits (by decide : 1 ≤ 8) n
    refine ⟨?_, fun ch hch => ?_⟩
    · rw [List.length_append, length_fixedDigits]
      decide
    · rcases List.mem_append.mp hch with hch | hch
      · have hblank : ∀ ch ∈ wide " ", IsDateChar ch :=
          List.all_iff_forall_prop.mp (by decide)
        exact hblank ch hch
      · exact htext ch hch
  · exact isDatePart_fixedDigits (by decide) n

theorem isDatePart_parts (t : DateFields) (form : DateForm) :
    ∀ part ∈ form.parts t, IsDatePart part := by
  have hday : IsDatePart (dayName.getD (weekDay t) []) := isDatePart_getD (by decide) _
  have hdayL : IsDatePart (dayNameL.getD (weekDay t) []) := isDatePart_getD (by decide) _
  have hmonth : IsDatePart (monthName.getD (t.nMonth - 1) []) :=
    isDatePart_getD (by decide) _
  have htwo : ∀ n, IsDatePart (fixedDigits 2 n) := isDatePart_fixedDigits (by decide)
  have hfour : ∀ n, IsDatePart (fixedDigits 4 n) := isDatePart_fixedDigits (by decide)
  have htime : ∀ part ∈ timeOfDay t, IsDatePart part := by
    have hcolon : IsDatePart (wide ":") := by decide
    simp only [timeOfDay, List.forall_mem_cons]
    exact ⟨htwo _, hcolon, htwo _, hcolon, htwo _, nofun⟩
  have hcomma : IsDatePart (wide ", ") := by decide
  have hblank : IsDatePart (wide " ") := by decide
  have hhyphen : IsDatePart (wide "-") := by decide
  have hgmt : IsDatePart (wide " GMT") := by decide
  cases form with
  | imfFixdate =>
    simp only [DateForm.parts, List.forall_mem_append, List.forall_mem_cons]
    exact ⟨⟨⟨hday, hcomma, htwo _, hblank, hmonth, hblank, hfour _, hblank, nofun⟩, htime⟩, hgmt,
      nofun⟩
  | rfc850 =>
    simp only [DateForm.parts, List.forall_mem_append, List.forall_mem_cons]
    exact ⟨⟨⟨hdayL, hcomma, htwo _, hhyphen, hmonth, hhyphen, htwo _, hblank, nofun⟩, htime⟩, hgmt,
      nofun⟩
  | asctime =>
    simp only [DateForm.parts, List.forall_mem_append, List.forall_mem_cons]
    exact ⟨⟨⟨hday, hblank, hmonth, hblank, isDatePart_day _, hblank, nofun⟩, htime⟩, hblank,
      hfour _, nofun⟩

theorem isDateChar_text (t : DateFields) (form : DateForm) : ∀ ch ∈ form.text t, IsDateChar ch := by
  intro ch hch
  obtain ⟨part, hpart, hmem⟩ := List.mem_flatten.mp hch
  exact (isDatePart_parts t form part hpart).2 ch hmem

theorem length_text_le (t : DateFields) (form : DateForm) : (form.text t).length ≤ 126 := by
  have hflatten : ∀ parts : List (List WChar), (∀ part ∈ parts, IsDatePart part) →
      parts.flatten.length ≤ 9 * parts.length := by
    intro parts h
    induction parts with
    | nil => exact Nat.zero_le _
    | cons part parts ih =>
      obtain ⟨hpart, hparts⟩ := List.forall_mem_cons.mp h
      have hlen := hpart.1
      have hrest := ih hparts
      rw [List.flatten_cons, List.length_append, List.length_cons]
      omega
  have hcount : (form.parts t).length ≤ 14 := by
    cases form <;> exact Nat.le_of_ble_eq_true rfl
  exact (hflatten _ (isDatePart_parts t form)).trans (Nat.mul_le_mul_left 9 hcount)

/-! ### The parts are read -/

theorem wide_time : wide "%H:%M:%S" = [0x25, 0x48, 0x3A, 0x25, 0x4D, 0x3A, 0x25, 0x53] := by
  decide

theorem wide_gmt : wide " GMT" = 0x20 :: wide "GMT" := by decide

/-- The text of an IMF-fixdate, part by part. -/
theorem text_imfFixdate (t : DateFields) : DateForm.imfFixdate.text t =
    dayName.getD (weekDay t) [] ++ 0x2C :: 0x20 :: (fixedDigits 2 t.nDay ++ 0x20 ::
      (monthName.getD (t.nMonth - 1) [] ++ 0x20 :: (fixedDigits 4 t.nYear ++ 0x20 ::
        ((timeOfDay t).flatten ++ 0x20 :: wide "GMT")))) := by
  have hcomma : wide ", " = [0x2C, 0x20] := by decide
  have hblank : wide " " = [0x20] := by decide
  rw [DateForm.text, DateForm.parts, hcomma, hblank, wide_gmt]
  simp only [List.flatten_append, List.flatten_cons, List.flatten_nil, List.append_nil,
    List.cons_append, List.nil_append]

theorem text_rfc850 (t : DateFields) : DateForm.rfc850.text t =
    dayNameL.getD (weekDay t) [] ++ 0x2C :: 0x20 :: (fixedDigits 2 t.nDay ++ 0x2D ::
      (monthName.getD (t.nMonth - 1) [] ++ 0x2D :: (fixedDigits 2 t.nYear ++ 0x20 ::
        ((timeOfDay t).flatten ++ 0x20 :: wide "GMT")))) := by
  have hcomma : wide ", " = [0x2C, 0x20] := by decide
  have hhyphen : wide "-" = [0x2D] := by decide
  have hblank : wide " " = [0x20] := by decide
  rw [DateForm.text, DateForm.parts, hcomma, hhyphen, hblank, wide_gmt]
  simp only [List.flatten_append, List.flatten_cons, List.flatten_nil, List.append_nil,
    List.cons_append, List.nil_append]

/-- The blank behind the name of the day is all that matters of `asctime`. -/
theorem exists_text_asctime (t : DateFields) :
    ∃ rest, DateForm.asctime.text t = dayName.getD (weekDay t) [] ++ 0x20 :: rest := by
  have hblank : wide " " = [0x20] := by decide
  refine ⟨(DateForm.asctime.parts t).tail.tail.flatten, ?_⟩
  rw [DateForm.text, DateForm.parts, hblank]
  rfl

theorem weekDay_lt (t : DateFields) : weekDay t < 7 := Nat.mod_lt _ (by decide)

theorem isBlankW_month {m : Nat} (hm : m < 12) (rest : List WChar) :
    isBlankW (charAt (monthName.getD m [] ++ rest) 0) = false := by
  have hnames : ∀ m < 12, monthName.getD m [] ≠ [] ∧
      isBlankW (charAt (monthName.getD m []) 0) = false := by decide
  obtain ⟨hne, hblank⟩ := hnames m hm
  cases hname : monthName.getD m [] with
  | nil => exact absurd hname hne
  | cons ch name =>
    rw [hname] at hblank
    exact hblank

theorem isBlankW_timeOfDay (t : DateFields) (rest : List WChar) :
    isBlankW (charAt ((timeOfDay t).flatten ++ rest) 0) = false := by
  rw [timeOfDay, List.flatten_cons, List.append_assoc]
  exact isBlankW_charAt_fixedDigits (by decide) _ _

theorem isDigitW_dayName {w : Nat} (hw : w < 7) (rest : List WChar) :
    isDigitW (charAt (dayName.getD w [] ++ rest) 0) = false := by
  have hnames : ∀ w < 7, dayName.getD w [] ≠ [] ∧
      isDigitW (charAt (dayName.getD w []) 0) = false := by decide
  obtain ⟨hne, hdigit⟩ := hnames w hw
  cases hname : dayName.getD w [] with
  | nil => exact absurd hname hne
  | cons ch name =>
    rw [hname] at hdigit
    exact hdigit

/-- The variables behind the text of a date in the year `nYear`. -/
def readValues (t : DateFields) (nYear : Nat) : DateValues :=
  { nYear := nYear, nMonth := (t.nMonth - 1 : Nat) + 1, nDay := t.nDay, nHours := t.nHours,
    nMinutes := t.nMinutes, nSeconds := t.nSeconds, nWeekDay := weekDay t,
    bOffsetSpecified := true, i := t.nMonth - 1 }

section Scan

variable {env : DateEnvironment} {szOrigDateW : List WChar} {t : DateFields} (ht : t.Valid)
include ht

/-- **The time of day**, before anything but a digit. -/
theorem scanFrom_timeOfDay {v : DateValues} {rest : List WChar}
    (hrest : isDigitW (charAt rest 0) = false) (szFormatW : List WChar) :
    scanFrom env 0 szOrigDateW
        ⟨wide "%H:%M:%S" ++ szFormatW, (timeOfDay t).flatten ++ rest, none, v⟩ =
      scanFrom env 0 szOrigDateW ⟨szFormatW, rest, none,
        { v with
          nHours := t.nHours, nHourFlag := 0, nMinutes := t.nMinutes,
          nSeconds := t.nSeconds }⟩ := by
  have hhours := ht.hours
  have hminutes := ht.minutes
  have hseconds := ht.seconds
  have hcolon : wide ":" = [0x3A] := by decide
  rw [wide_time, timeOfDay, hcolon]
  simp only [List.flatten_cons, List.flatten_nil, List.append_assoc, List.append_nil,
    List.cons_append, List.nil_append]
  refine (scanFrom_number (by decide) (by decide) (by decide) (by decide) rfl (by omega)
    (storeNumber_hours hhours) _).trans ?_
  refine (scanFrom_colon _ _).trans ?_
  refine (scanFrom_number (by decide) (by decide) (by decide) (by decide) rfl (by omega)
    (storeNumber_minutes hminutes) _).trans ?_
  refine (scanFrom_colon _ _).trans ?_
  exact scanFrom_number (by decide) (by decide) (by decide) (by decide) hrest (by omega)
    (storeNumber_seconds hseconds) _

/-- **The name of the day and the day of the month.** -/
theorem scanFrom_dayAndDate {v : DateValues} {item : WChar} (hitem : item ∈ wide "aA")
    {names : List (List WChar)} (hnames : names ∈ [szLongDayNamesW, szShortDayNamesW])
    {rest : List WChar} (hrest : isDigitW (charAt rest 0) = false) (szFormatW : List WChar) :
    scanFrom env 0 szOrigDateW
        ⟨0x25 :: item :: 0x2C :: 0x20 :: 0x25 :: 0x64 :: szFormatW,
          names.getD (weekDay t) [] ++ 0x2C :: 0x20 :: (fixedDigits 2 t.nDay ++ rest), none, v⟩ =
      scanFrom env 0 szOrigDateW ⟨szFormatW, rest, none,
        { v with nWeekDay := weekDay t, i := weekDay t, nDay := t.nDay }⟩ := by
  obtain ⟨-, -, hday, -⟩ := (isDateValid_iff _ _ _).mp ht.date
  have hday31 := day_le_of_isDateValid ht.date
  have hplain : ∀ ch ∈ wide "aA", IsPlainItem ch :=
    List.all_iff_forall_prop.mp (by decide)
  refine (scanFrom_item (hplain item hitem)
    (List.append_ne_nil_of_right_ne_nil _ (List.cons_ne_nil _ _))
    (readItem_weekDay hitem hnames (weekDay_lt t) (by decide) _)).trans ?_
  refine (scanFrom_char (by decide) _ _).trans ?_
  refine (scanFrom_blank rfl (isBlankW_charAt_fixedDigits (by decide) _ _)).trans ?_
  exact scanFrom_number (by decide) (by decide) (by decide) (by decide) hrest (by omega)
    (storeNumber_day hday hday31) _

theorem holds_readValues (hwhole : t.nMilliSeconds = 0) (nYear : Nat) :
    (readValues t nYear).Holds { t with nYear } := by
  obtain ⟨-, ⟨hmonth, -⟩, -⟩ := (isDateValid_iff _ _ _).mp ht.date
  refine ⟨rfl, ?_, rfl, rfl, rfl, rfl, ?_, nofun⟩
  · change ((t.nMonth - 1 : Nat) : Int) + 1 = t.nMonth
    omega
  · change (0 : Int) = t.nMilliSeconds
    rw [hwhole]
    rfl

/-- **An IMF-fixdate is read** with the first format. -/
theorem scanFrom_imfFixdate (hyear : 1000 ≤ t.nYear) :
    scanFrom env 0 szOrigDateW
        ⟨wide "%a, %d %b %Y %H:%M:%S %z", DateForm.imfFixdate.text t, none, { i := env.i }⟩ =
      .ok (readValues t t.nYear) := by
  obtain ⟨⟨h1, h9999⟩, ⟨hmonth, h12⟩, -⟩ := (isDateValid_iff _ _ _).mp ht.date
  have hformat : wide "%a, %d %b %Y %H:%M:%S %z" = [0x25, 0x61, 0x2C, 0x20, 0x25, 0x64, 0x20,
      0x25, 0x62, 0x20, 0x25, 0x59, 0x20] ++ (wide "%H:%M:%S" ++ [0x20, 0x25, 0x7A]) := by
    decide
  rw [hformat, text_imfFixdate]
  refine (scanFrom_dayAndDate ht (by decide) (by decide) rfl _).trans ?_
  refine (scanFrom_blank rfl (isBlankW_month (by omega) _)).trans ?_
  refine (scanFrom_item (by decide) (List.append_ne_nil_of_right_ne_nil _ (List.cons_ne_nil _ _))
    (readItem_month (by omega) (by decide) _)).trans ?_
  refine (scanFrom_blank rfl (isBlankW_charAt_fixedDigits (by decide) _ _)).trans ?_
  refine (scanFrom_number (by decide) (by decide) (by decide) (by decide) rfl (by omega)
    (storeNumber_year h1 h9999 (if_neg (by omega))) _).trans ?_
  refine (scanFrom_blank rfl (isBlankW_timeOfDay t _)).trans ?_
  refine (scanFrom_timeOfDay ht rfl _).trans ?_
  refine (scanFrom_blank rfl rfl).trans ?_
  refine (scanFrom_item (by decide) (by decide) readItem_gmt).trans ?_
  exact scanFrom_nil

/-- An RFC 850 date is refused with the first format, for the hyphen behind the day. -/
theorem scanFrom_rfc850_first : scanFrom env 0 szOrigDateW
    ⟨wide "%a, %d %b %Y %H:%M:%S %z", DateForm.rfc850.text t, none, { i := env.i }⟩ =
      .error .eFail := by
  have hformat : wide "%a, %d %b %Y %H:%M:%S %z" = [0x25, 0x61, 0x2C, 0x20, 0x25, 0x64, 0x20] ++
      wide "%b %Y %H:%M:%S %z" := by
    decide
  rw [hformat, text_rfc850]
  refine (scanFrom_dayAndDate ht (by decide) (by decide) rfl _).trans ?_
  exact scanFrom_blank_error _ (List.cons_ne_nil _ _) rfl

/-- **An RFC 850 date is read** with the second format, in the year that it stands for. -/
theorem scanFrom_rfc850 {nYear : Nat} (hyear : DateForm.rfc850.StandsFor env t.nYear nYear)
    (hvalid : isDateValid nYear t.nMonth t.nDay = true) :
    scanFrom env 0 szOrigDateW
        ⟨wide "%A, %d-%b-%Y %H:%M:%S %z", DateForm.rfc850.text t, none, { i := env.i }⟩ =
      .ok (readValues t nYear) := by
  obtain ⟨-, ⟨hmonth, h12⟩, -⟩ := (isDateValid_iff _ _ _).mp ht.date
  obtain ⟨⟨h1, h9999⟩, -⟩ := (isDateValid_iff _ _ _).mp hvalid
  obtain ⟨nRule, hrule, hmod, hle, hlt⟩ := hyear
  have hadjust : (if t.nYear % 10 ^ 2 ≤ 99 then
      doTwoDigitsYearAdjustment env (t.nYear % 10 ^ 2 : Nat) 0
      else .ok ((t.nYear % 10 ^ 2 : Nat) : Int)) = .ok (nYear : Int) := by
    rw [if_pos (by omega)]
    exact doTwoDigitsYearAdjustment_eq hrule hmod hle hlt
  have hformat : wide "%A, %d-%b-%Y %H:%M:%S %z" = [0x25, 0x41, 0x2C, 0x20, 0x25, 0x64, 0x2D,
      0x25, 0x62, 0x2D, 0x25, 0x59, 0x20] ++ (wide "%H:%M:%S" ++ [0x20, 0x25, 0x7A]) := by
    decide
  rw [hformat, text_rfc850]
  refine (scanFrom_dayAndDate ht (by decide) (by decide) rfl _).trans ?_
  refine (scanFrom_char (by decide) _ _).trans ?_
  refine (scanFrom_item (by decide) (List.append_ne_nil_of_right_ne_nil _ (List.cons_ne_nil _ _))
    (readItem_month (by omega) (by decide) _)).trans ?_
  refine (scanFrom_char (by decide) _ _).trans ?_
  refine (scanFrom_digits (by decide) (by decide) (by decide) (by decide) rfl
    (storeNumber_year h1 h9999 hadjust) _).trans ?_
  refine (scanFrom_blank rfl (isBlankW_timeOfDay t _)).trans ?_
  refine (scanFrom_timeOfDay ht rfl _).trans ?_
  refine (scanFrom_blank rfl rfl).trans ?_
  refine (scanFrom_item (by decide) (by decide) readItem_gmt).trans ?_
  exact scanFrom_nil

end Scan

/-- The formats that are tried. -/
def dateFormats : List String :=
  ["%a, %d %b %Y %H:%M:%S %z", "%A, %d-%b-%Y %H:%M:%S %z", "%Y.%m.%dT%H:%M",
    "%a, %b %d %H:%M:%S %Y %z"]

/-- With each format a date of `asctime` fails: there is no comma behind the name of the day,
and no number in its place. -/
theorem scanFrom_asctime {env : DateEnvironment} {szOrigDateW : List WChar} (t : DateFields)
    {szFormat : String} (hformat : szFormat ∈ dateFormats) :
    scanFrom env 0 szOrigDateW ⟨wide szFormat, DateForm.asctime.text t, none, { i := env.i }⟩ =
      .error .eFail := by
  obtain ⟨rest, htext⟩ := exists_text_asctime t
  have hcomma : ∀ {item : WChar} (szFormatW : List WChar), item ∈ wide "aA" →
      scanFrom env 0 szOrigDateW ⟨0x25 :: item :: 0x2C :: szFormatW,
        dayName.getD (weekDay t) [] ++ 0x20 :: rest, none, { i := env.i }⟩ = .error .eFail := by
    intro item szFormatW hitem
    have hplain : ∀ ch ∈ wide "aA", IsPlainItem ch :=
    List.all_iff_forall_prop.mp (by decide)
    refine (scanFrom_item (hplain item hitem)
      (List.append_ne_nil_of_right_ne_nil _ (List.cons_ne_nil _ _))
      (readItem_weekDay hitem (by decide) (weekDay_lt t) (by decide) _)).trans ?_
    exact scanFrom_char_error (by decide) _ (List.cons_ne_nil _ _)
      (by rw [charAt_cons_zero]; decide)
  have hnumber : ∀ szFormatW : List WChar, scanFrom env 0 szOrigDateW ⟨0x25 :: 0x59 :: szFormatW,
      dayName.getD (weekDay t) [] ++ 0x20 :: rest, none, { i := env.i }⟩ = .error .eFail :=
    fun szFormatW => scanFrom_item_error (by decide)
      (List.append_ne_nil_of_right_ne_nil _ (List.cons_ne_nil _ _))
      (readItem_noDigit (by decide) (by decide) (isDigitW_dayName (weekDay_lt t) _))
  have hsplit : ∀ szFormat ∈ dateFormats,
      (wide szFormat).take 2 = [0x25, 0x59] ∨ (wide szFormat).take 3 = [0x25, 0x61, 0x2C] ∨
        (wide szFormat).take 3 = [0x25, 0x41, 0x2C] := by decide
  rw [htext]
  rcases hsplit szFormat hformat with htake | htake | htake
  · rw [← List.take_append_drop 2 (wide szFormat), htake]
    exact hnumber _
  · rw [← List.take_append_drop 3 (wide szFormat), htake]
    exact hcomma _ (by decide)
  · rw [← List.take_append_drop 3 (wide szFormat), htake]
    exact hcomma _ (by decide)

/-! ### Both texts -/

/-- `MultiByteToWideChar` leaves ASCII as it is, in the code page of the system too. -/
def KeepsAscii (conv : Conversions) : Prop :=
  ∀ sA : List Byte, (∀ ch ∈ sA, ch.toNat < 0x80) →
    conv.multiByteToWideChar .acp sA = sA.map UInt8.toUInt16

theorem toNat_toUInt8_of_isDateChar {ch : WChar} (h : IsDateChar ch) :
    ch.toUInt8.toNat = ch.toNat := by
  rw [UInt16.toNat_toUInt8, Nat.mod_eq_of_lt (Nat.lt_trans h.2 (by decide))]

theorem map_ne_zero {sW : List WChar} (htext : ∀ ch ∈ sW, IsDateChar ch) :
    ∀ ch ∈ sW.map UInt16.toUInt8, ch ≠ 0 := by
  intro ch hch hzero
  obtain ⟨ch, hmem, rfl⟩ := List.mem_map.mp hch
  refine (htext ch hmem).1 (UInt16.toNat_inj.mp ?_)
  rw [← toNat_toUInt8_of_isDateChar (htext ch hmem), hzero]
  rfl

/-- A text of ASCII is made wide in one block. -/
theorem copyWide_of_isDateChar {conv : Conversions} (hconv : KeepsAscii conv) {sW : List WChar}
    (htext : ∀ ch ∈ sW, IsDateChar ch) (hne : sW ≠ []) (hlen : sW.length ≤ 16384) :
    copyWide conv false (fun _ => true) (sW.map UInt16.toUInt8) = ⟨true, sW⟩ := by
  have hback : (sW.map UInt16.toUInt8).map UInt8.toUInt16 = sW := by
    rw [List.map_map]
    conv_rhs => rw [← List.map_id sW]
    refine List.map_congr_left fun ch hch => UInt16.toNat_inj.mp ?_
    rw [Function.comp_apply, UInt8.toNat_toUInt16, toNat_toUInt8_of_isDateChar (htext ch hch)]
    rfl
  have hwide : conv.multiByteToWideChar .acp (sW.map UInt16.toUInt8) = sW := by
    rw [hconv, hback]
    intro ch hch
    obtain ⟨ch, hmem, rfl⟩ := List.mem_map.mp hch
    rw [toNat_toUInt8_of_isDateChar (htext ch hmem)]
    exact (htext ch hmem).2
  have hblock : blockA (sW.map UInt16.toUInt8) = (sW.map UInt16.toUInt8).length :=
    if_neg (by rw [List.length_map]; omega)
  have hone := @concatN_of_one_block _ _ blockA (conv.multiByteToWideChar .acp) blockA_pos _ hblock
    (by rwa [Ne, List.map_eq_nil_iff]) (by rwa [hwide]) []
  rw [hwide] at hone
  rw [copyWide, szStr_of_ne_zero (map_ne_zero htext)]
  exact hone

/-- A narrow text of ASCII is read as the wide one. -/
theorem setFromStringA_eq {conv : Conversions} (hconv : KeepsAscii conv) (env : DateEnvironment)
    (cDt : CDateTime) {sW : List WChar} (htext : ∀ ch ∈ sW, IsDateChar ch) (hne : sW ≠ [])
    (hlen : sW.length ≤ 16384) {szFormat : String} (hformat : szFormat ∈ dateFormats) :
    setFromStringA conv (fun _ => true) env cDt (sW.map UInt16.toUInt8) (ascii szFormat) 0 =
      setFromStringW env cDt sW (wide szFormat) 0 := by
  have hformats : ∀ szFormat ∈ dateFormats,
      ((wide szFormat).all fun ch => decide (IsDateChar ch)) = true ∧
      wide szFormat ≠ [] ∧ (wide szFormat).length ≤ 16384 ∧
        ascii szFormat = (wide szFormat).map UInt16.toUInt8 := by decide
  obtain ⟨htextFormat, hneFormat, hlenFormat, hascii⟩ := hformats szFormat hformat
  rw [setFromStringA, hascii, copyWide_of_isDateChar hconv htext hne hlen,
    copyWide_of_isDateChar hconv (List.all_iff_forall_prop.mp htextFormat) hneFormat hlenFormat]
  rfl

/-! ### The result -/

theorem parseFormats_congr {set set' : CDateTime → String → HResult × CDateTime}
    (h : ∀ cDt, ∀ szFormat ∈ dateFormats, set cDt szFormat = set' cDt szFormat) :
    parseFormats set = parseFormats set' := by
  rw [parseFormats, parseFormats, h _ _ (by decide), h _ _ (by decide), h _ _ (by decide),
    h _ _ (by decide)]

/-- The formats after the first one are not tried, or the second one is the last. -/
theorem parseFormats_ok {set : CDateTime → String → HResult × CDateTime} {cDt : CDateTime}
    (h : set .clear "%a, %d %b %Y %H:%M:%S %z" = (.sOk, cDt) ∨
      set .clear "%a, %d %b %Y %H:%M:%S %z" = (.eFail, .clear) ∧
        set .clear "%A, %d-%b-%Y %H:%M:%S %z" = (.sOk, cDt)) :
    parseFormats set = (.sOk, cDt) := by
  rcases h with hfirst | ⟨hfirst, hsecond⟩
  · rw [parseFormats, hfirst]
    rfl
  · rw [parseFormats, hfirst]
    change (let r := set .clear "%A, %d-%b-%Y %H:%M:%S %z"; _) = _
    rw [hsecond]
    rfl

theorem parseFormats_failed {set : CDateTime → String → HResult × CDateTime}
    (h : ∀ szFormat ∈ dateFormats, set .clear szFormat = (.eFail, .clear)) :
    parseFormats set = (.mxInvalidData, .clear) := by
  have hfailed : HResult.eFail.failed = true := rfl
  simp only [dateFormats, List.forall_mem_cons] at h
  obtain ⟨hfirst, hsecond, hthird, hfourth, -⟩ := h
  rw [parseFormats]
  simp only [hfirst, hfailed, if_true, hsecond, hthird, hfourth]
  rfl

theorem dateArgument_eq {α : Type} [BEq α] [LawfulBEq α] [OfNat α 0] {szDateTime : List α}
    (hzero : ∀ ch ∈ szDateTime, ch ≠ 0) (hne : szDateTime ≠ []) {nDateTimeLen : Option Nat}
    (hlen : nDateTimeLen = none ∨ nDateTimeLen = some szDateTime.length) :
    dateArgument (fun _ => true) szDateTime nDateTimeLen = .ok szDateTime := by
  have hpos := List.length_pos_of_ne_nil hne
  rcases hlen with rfl | rfl
  · rw [dateArgument, szStr_of_ne_zero hzero, if_neg (Nat.pos_iff_ne_zero.mp hpos)]
  · rw [dateArgument, if_pos hpos, if_pos rfl, List.take_length]

theorem text_ne_nil (t : DateFields) (form : DateForm) : form.text t ≠ [] := by
  have happend : ∀ {part rest : List WChar} {ch : WChar}, part ++ ch :: rest ≠ [] :=
    List.append_ne_nil_of_right_ne_nil _ (List.cons_ne_nil _ _)
  cases form with
  | imfFixdate =>
    rw [text_imfFixdate]
    exact happend
  | rfc850 =>
    rw [text_rfc850]
    exact happend
  | asctime =>
    obtain ⟨rest, htext⟩ := exists_text_asctime t
    rw [htext]
    exact happend

section Result

variable {env : DateEnvironment} {t : DateFields} {form : DateForm} {nDateTimeLen : Option Nat}
  (hlen : nDateTimeLen = none ∨ nDateTimeLen = some (form.text t).length)
include hlen

theorem parseDateW_eq : parseDateW (fun _ => true) env (some (form.text t)) nDateTimeLen =
    parseFormats fun cDt szFormat => setFromStringW env cDt (form.text t) (wide szFormat) 0 := by
  have hzero : ∀ ch ∈ form.text t, ch ≠ 0 := fun ch hch => (isDateChar_text t form ch hch).1
  rw [parseDateW, dateArgument_eq hzero (text_ne_nil t form) hlen]

/-- **Both texts of a date give the same.** -/
theorem parseDateA_eq {conv : Conversions} (hconv : KeepsAscii conv) :
    parseDateA conv (fun _ => true) env (some ((form.text t).map UInt16.toUInt8)) nDateTimeLen =
      parseDateW (fun _ => true) env (some (form.text t)) nDateTimeLen := by
  have htext := isDateChar_text t form
  have hne := text_ne_nil t form
  have hshort : (form.text t).length ≤ 16384 := (length_text_le t form).trans (by decide)
  rw [parseDateW_eq hlen, parseDateA, dateArgument_eq (map_ne_zero htext)
    (by rwa [Ne, List.map_eq_nil_iff]) (by rwa [List.length_map])]
  exact parseFormats_congr fun cDt szFormat hformat =>
    setFromStringA_eq hconv env cDt htext hne hshort hformat

end Result

/-- A format with which the text of a date is read or refused. -/
theorem setFromStringW_text {env : DateEnvironment} {t : DateFields} {form : DateForm}
    {szFormat : String} (hformat : szFormat ∈ dateFormats) (cDt : CDateTime) :
    setFromStringW env cDt (form.text t) (wide szFormat) 0 =
      match scanFrom env 0 (form.text t) ⟨wide szFormat, form.text t, none, { i := env.i }⟩ with
      | .error hRes => (hRes, cDt)
      | .ok v => storeValues cDt v := by
  have hformats : ∀ szFormat ∈ dateFormats,
      ((wide szFormat).all fun ch => decide (ch ≠ 0)) = true := by decide
  exact setFromStringW_eq (fun ch hch => (isDateChar_text t form ch hch).1) (text_ne_nil t form)
    (List.all_iff_forall_prop.mp (hformats szFormat hformat)) cDt

/-- What is stored of an instant that was read. -/
theorem storeValues_readValues {t : DateFields} (ht : t.Valid) (hwhole : t.nMilliSeconds = 0)
    {nYear : Nat} (hvalid : isDateValid nYear t.nMonth t.nDay = true) (cDt : CDateTime) :
    storeValues cDt (readValues t nYear) = (.sOk, ⟨{ t with nYear }.ticks, 0⟩) := by
  have hnew : DateFields.Valid { t with nYear } :=
    ⟨hvalid, ht.hours, ht.minutes, ht.seconds, ht.milliSeconds⟩
  rw [storeValues_eq (holds_readValues ht hwhole nYear) hnew]
  rfl

/-- **A date of `asctime` is refused**, whatever the instant. -/
theorem parseDateW_asctime (env : DateEnvironment) (t : DateFields) :
    parseDateW (fun _ => true) env (some (DateForm.asctime.text t)) none =
      (.mxInvalidData, .clear) := by
  rw [parseDateW_eq (.inl rfl)]
  refine parseFormats_failed fun szFormat hformat => ?_
  rw [setFromStringW_text hformat, scanFrom_asctime t hformat]

/-- **A date of HTTP is accepted for the instant that it stands for unless it has the form of
`asctime`.** -/
theorem accepted_iff {conv : Conversions} (hconv : KeepsAscii conv) (env : DateEnvironment)
    (instant : HttpInstant) (form : DateForm) :
    form.Accepted conv env instant.t ↔ form ≠ .asctime := by
  obtain ⟨t, ht, hyear, hwhole⟩ := instant
  constructor
  · rintro h rfl
    obtain ⟨hwide, -⟩ := h t.nYear rfl ht.date none (.inl rfl)
    rw [parseDateW_asctime] at hwide
    cases hwide
  · intro hform nYear hstands hvalid nDateTimeLen hlen
    have hwide : parseDateW (fun _ => true) env (some (form.text t)) nDateTimeLen =
        (.sOk, ⟨{ t with nYear }.ticks, 0⟩) := by
      rw [parseDateW_eq hlen]
      refine parseFormats_ok ?_
      rw [setFromStringW_text (by decide), setFromStringW_text (by decide)]
      cases form with
      | imfFixdate =>
        obtain rfl : nYear = t.nYear := hstands
        rw [scanFrom_imfFixdate ht hyear]
        exact .inl (storeValues_readValues ht hwhole hvalid _)
      | rfc850 =>
        rw [scanFrom_rfc850_first ht, scanFrom_rfc850 ht hstands hvalid]
        exact .inr ⟨rfl, storeValues_readValues ht hwhole hvalid _⟩
      | asctime => exact absurd rfl hform
    exact ⟨hwide, by rw [parseDateA_eq hlen hconv, hwide]⟩

theorem keepsAscii_replacing : KeepsAscii replacing := by
  intro sA hascii
  change decodeText sA = _
  induction sA with
  | nil => rfl
  | cons ch sA ih =>
    obtain ⟨hch, hrest⟩ := List.forall_mem_cons.mp hascii
    have hunit : UInt16.ofNat ch.toNat = ch.toUInt16 := by
      apply UInt16.toNat_inj.mp
      rw [UInt8.toNat_toUInt16, UInt16.toNat_ofNat_of_lt' (Nat.lt_trans hch (by decide))]
    rw [decodeText, decodeFrom, decodeLead, if_pos hch, List.map_cons, hunit]
    exact congrArg _ (ih hrest)

/-- The calendar as it comes: the two digits end with 2049. -/
def calendar2049 : DateEnvironment := ⟨some 2049, ⟨2024, 1, 1, 0, 0, 0, 0⟩, 0⟩

/-- Sunday, 6 November 1994, 08:49:37. -/
def november1994 : HttpInstant where
  t := ⟨1994, 11, 6, 8, 49, 37, 0⟩
  valid := ⟨by decide, by decide, by decide, by decide, by decide⟩
  fourDigits := by decide
  whole := rfl

theorem accepted_november1994 :
    DateForm.rfc850.text november1994.t = wide "Sunday, 06-Nov-94 08:49:37 GMT" ∧
      DateForm.rfc850.Accepted replacing calendar2049 november1994.t :=
  ⟨by decide,
    (accepted_iff keepsAscii_replacing calendar2049 november1994 .rfc850).mpr nofun⟩

/-- The same instant as `asctime` writes it. -/
theorem not_accepted_asctime :
    DateForm.asctime.text november1994.t = wide "Sun Nov  6 08:49:37 1994" ∧
      ¬ DateForm.asctime.Accepted replacing calendar2049 november1994.t := by
  refine ⟨by decide, fun h => ?_⟩
  obtain ⟨hwide, -⟩ := h 1994 rfl (by decide) none (.inl rfl)
  rw [parseDateW_asctime] at hwide
  cases hwide

end MxLib.Http
