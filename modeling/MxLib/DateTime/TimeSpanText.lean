import Mathlib.Data.List.TakeWhile
import MxLib.DateTime.TimeSpanTicks
import MxLib.Library.Decimal

/-!
# Time spans as text

`CTimeSpan::Parse` reads `[ws][-][dd.]hh:mm:ss[.ff]`.  The narrow and the wide one differ in the
characters and in one code, so a text is the list of the codes of its characters, of which there
are at most `nLength`.

Its numbers are read by `myStrTol`, which takes blanks and a sign in front of the digits and does
not ask for a digit.  So more is read than is written in the comment, and what is behind the dot
of the seconds is read even where no number is.  `Number` is what is read as a number, and
`Reading` what is read as a time span; `parsesSpan_iff` says when that is right.
-/

namespace MxLib.TimeSpan

open MxLib.DateTime MxLib.Library

def chMinus : Nat := 0x2D
def chDot : Nat := 0x2E
def chColon : Nat := 0x3A

def isBlank (c : Nat) : Bool := c == 0x20 || c == 0x09

/-! ### `Parse` -/

/-- Whether there is a minus sign at the cursor, and the cursor behind it. -/
def takeSign (s : List Nat) : Bool × List Nat :=
  if s.head? = some chMinus then (true, s.drop 1) else (false, s)

/-- The digits of a `ULONG`; there is no number if it gets too large. -/
def addDigits (nVal : Nat) : List Nat → Option Nat × List Nat
  | [] => (some nVal, [])
  | c :: s =>
    if 0x30 ≤ c ∧ c ≤ 0x39 then
      if nVal > 0xFFFFFFFF / 10 then (none, c :: s)
      else if nVal * 10 > 0xFFFFFFFF - (c - 0x30) then (none, c :: s)
      else addDigits (nVal * 10 + (c - 0x30)) s
    else (some nVal, c :: s)

/-- `myStrTol` and `myWcsTol`: the number, if there is one, and the cursor. -/
def myStrTol (s : List Nat) : Option Int × List Nat :=
  let (bNeg, s) := takeSign (s.dropWhile isBlank)
  match addDigits 0 s with
  | (none, s) => (none, s)
  | (some nVal, s) =>
    if !bNeg then if nVal > 0x7FFFFFFF then (none, s) else (some nVal, s)
    else if nVal > 0x80000000 then (none, s) else (some (-nVal), s)

/-- A number from 0 to `nMax`, or the code and the cursor where `Parse` ends. -/
def readNumber (nMax : Int) (s : List Nat) : Except (HResult × List Nat) (Int × List Nat) :=
  match myStrTol s with
  | (none, s) => .error (.mxInvalidData, s)
  | (some n, s) => if n < 0 ∨ n > nMax then .error (.mxInvalidData, s) else .ok (n, s)

/-- A separator, which is there or ends `Parse`. -/
def readColon (hRes : HResult) (s : List Nat) : Except (HResult × List Nat) (List Nat) :=
  if s.head? = some chColon then .ok (s.drop 1) else .error (hRes, s)

/-- The days and the hours.  The first number is the days if there is a dot behind it. -/
def readHours (s : List Nat) : Except (HResult × List Nat) (Int × Int × List Nat) :=
  match readNumber 0x7FFFFFFF s with
  | .error e => .error e
  | .ok (nDays, sNext) =>
    if sNext.head? = some chDot then
      (readNumber 23 (sNext.drop 1)).map fun (nHours, sNext) => (nDays, nHours, sNext)
    else if nDays > 23 then .error (.mxInvalidData, s)
    else .ok (0, nDays, sNext)

/-- The ticks behind a dot. -/
def readTicks (s : List Nat) : Except (HResult × List Nat) (Int × List Nat) :=
  if s.head? = some chDot then readNumber 9999999 (s.drop 1) else .ok (0, s)

/-- The numbers of a time span. -/
structure Fields where
  nDays : Int
  nHours : Int
  nMinutes : Int
  nSeconds : Int
  nTicksX : Int
deriving DecidableEq

/-- What `Parse` reads behind the sign. -/
def readFields (hRes : HResult) (s : List Nat) :
    Except (HResult × List Nat) (Fields × List Nat) := do
  let (nDays, nHours, s) ← readHours s
  let s ← readColon hRes s
  let (nMinutes, s) ← readNumber 59 s
  let s ← readColon hRes s
  let (nSeconds, s) ← readNumber 59 s
  let (nTicksX, s) ← readTicks s
  pure (⟨nDays, nHours, nMinutes, nSeconds, nTicksX⟩, s)

/-- `Parse`, where `hRes` stands for a missing colon: the code, the ticks afterwards, and what is
left at `lpszEndString`. -/
def parse (hRes : HResult) (nTicks : Int) (s : List Nat) : HResult × Int × List Nat :=
  let (bSign, s) := takeSign (s.dropWhile isBlank)
  match readFields hRes s with
  | .error (hRes, s) => (hRes, nTicks, s)
  | .ok (f, s) =>
    let (nResult, bOverflow) := calculateTicks f.nDays f.nHours f.nMinutes f.nSeconds 0
    if bOverflow || wrapLongLong (nResult + f.nTicksX) < nResult then
      (.mxArithmeticOverflow, nTicks, s)
    else
      let nResult := wrapLongLong (nResult + f.nTicksX)
      (.sOk, if !bSign then nResult else wrapLongLong (-nResult), s)

/-- The codes of the characters that `Parse` may look at. -/
def codesA (szSrcA : List Byte) (nLength : Nat) : List Nat := (szSrcA.take nLength).map UInt8.toNat

def codesW (szSrcW : List WChar) (nLength : Nat) : List Nat :=
  (szSrcW.take nLength).map UInt16.toNat

def parseA (nTicks : Int) (szSrcA : List Byte) (nLength : Nat) : HResult × Int × List Nat :=
  parse .eFail nTicks (codesA szSrcA nLength)

def parseW (nTicks : Int) (szSrcW : List WChar) (nLength : Nat) : HResult × Int × List Nat :=
  parse .eInvalidArg nTicks (codesW szSrcW nLength)

/-! ### Time spans as they are written -/

def startsWithDigit (s : List Nat) : Bool := s.head?.any Decimal.isDigit

/-- A number as it is written. -/
def IsNumber (d : List Nat) : Prop := d ≠ [] ∧ ∀ c ∈ d, Decimal.isDigit c = true

/-- A time span as it is written, with the digits of its numbers. -/
structure Written where
  bSign : Bool
  dd : Option (List Nat)
  hh : List Nat
  mm : List Nat
  ss : List Nat
  ff : Option (List Nat)

/-- The text of a time span. -/
def Written.text (w : Written) : List Nat :=
  (if w.bSign then [chMinus] else []) ++ (w.dd.elim [] fun d => d ++ [chDot]) ++ w.hh ++
    chColon :: (w.mm ++ chColon :: (w.ss ++ w.ff.elim [] fun d => chDot :: d))

/-- The number in front of a dot, or none. -/
def optionValue (d : Option (List Nat)) : Int := d.elim 0 fun d => Decimal.value 0 d

/-- The ticks of the numbers. -/
def ticks (nDays nHours nMinutes nSeconds nTicksX : Int) : Int :=
  ticksPerDay * nDays + timeOfDay nHours nMinutes nSeconds 0 + nTicksX

/-- A number with a sign. -/
def signed (bSign : Bool) (n : Int) : Int := if bSign then -n else n

/-- The signed number of ticks. -/
def Written.total (w : Written) : Int :=
  signed w.bSign (ticks (optionValue w.dd) (Decimal.value 0 w.hh) (Decimal.value 0 w.mm)
    (Decimal.value 0 w.ss) (optionValue w.ff))

/-- The text begins with a time span, which ends where no digit of its last number is left, and no
dot with a digit behind it either if it has none. -/
structure Begins (s : List Nat) (w : Written) (rest : List Nat) : Prop where
  text : ∃ blanks, (∀ c ∈ blanks, isBlank c = true) ∧ s = blanks ++ (w.text ++ rest)
  dd : ∀ d ∈ w.dd, IsNumber d
  hh : IsNumber w.hh
  mm : IsNumber w.mm
  ss : IsNumber w.ss
  ff : ∀ d ∈ w.ff, IsNumber d
  ends : startsWithDigit rest = false
  endsDot : w.ff = none → rest.head? = some chDot → startsWithDigit (rest.drop 1) = false

/-- The numbers are in range, and the total is a `LONGLONG`. -/
structure Written.InRange (w : Written) : Prop where
  hh : Decimal.value 0 w.hh ≤ 23
  mm : Decimal.value 0 w.mm ≤ 59
  ss : Decimal.value 0 w.ss ≤ 59
  ff : optionValue w.ff ≤ 9999999
  total : IsLongLong w.total

/-- **A text is taken exactly if it begins with a time span**: the ticks are its total, and the
cursor is behind it. -/
structure ParsesSpan (nTicks : Int) (s : List Nat) (r : HResult × Int × List Nat) : Prop where
  taken : ∀ w rest, Begins s w rest → w.InRange → r = (.sOk, w.total, rest)
  refused : (∀ w rest, Begins s w rest → ¬ w.InRange) → r.1.failed = true ∧ r.2.1 = nTicks

/-! ### Numbers as they are read -/

/-- What is read as a number. -/
structure Number where
  blanks : List Nat
  bNeg : Bool
  digits : List Nat

def Number.value (n : Number) : Int := signed n.bNeg (Decimal.value 0 n.digits)

/-- The number is written with digits only. -/
def Number.IsPlain (n : Number) : Prop := n.blanks = [] ∧ n.bNeg = false ∧ n.digits ≠ []

/-- The number at the cursor, and what is behind it. -/
def number (s : List Nat) : Number × List Nat :=
  let (bNeg, sNext) := takeSign (s.dropWhile isBlank)
  (⟨s.takeWhile isBlank, bNeg, sNext.takeWhile Decimal.isDigit⟩, sNext.dropWhile Decimal.isDigit)

/-- What is read as a time span, behind its sign. -/
structure Reading where
  days : Option Number
  hours : Number
  minutes : Number
  seconds : Number
  fraction : Option Number
  rest : List Nat

/-- What is read as days and hours. -/
def readingHours (s : List Nat) : Option Number × Number × List Nat :=
  if (number s).2.head? = some chDot then
    (some (number s).1, number ((number s).2.drop 1))
  else (none, number s)

/-- What is read as ticks. -/
def readingTicks (s : List Nat) : Option Number × List Nat :=
  if s.head? = some chDot then (some (number (s.drop 1)).1, (number (s.drop 1)).2) else (none, s)

/-- What is read behind the sign, unless a colon is missing. -/
def reading (s : List Nat) : Option Reading :=
  let (days, hours, s) := readingHours s
  if s.head? ≠ some chColon then none
  else
    let (minutes, s) := number (s.drop 1)
    if s.head? ≠ some chColon then none
    else
      let (seconds, s) := number (s.drop 1)
      let (fraction, rest) := readingTicks s
      some ⟨days, hours, minutes, seconds, fraction, rest⟩

/-- The number before a dot, or none. -/
def Number.optionValue (n : Option Number) : Int := n.elim 0 Number.value

namespace Reading

variable (r : Reading)

def fields : Fields :=
  ⟨Number.optionValue r.days, r.hours.value, r.minutes.value, r.seconds.value,
    Number.optionValue r.fraction⟩

/-- The numbers up to the seconds are in range. -/
structure TimeInRange : Prop where
  days : ∀ n ∈ r.days, 0 ≤ n.value
  hours : 0 ≤ r.hours.value ∧ r.hours.value ≤ 23
  minutes : 0 ≤ r.minutes.value ∧ r.minutes.value ≤ 59
  seconds : 0 ≤ r.seconds.value ∧ r.seconds.value ≤ 59

/-- All numbers are in range, the days in that of an `int`. -/
structure InRange : Prop extends r.TimeInRange where
  daysInt : ∀ n ∈ r.days, n.value ≤ 0x7FFFFFFF
  fraction : ∀ n ∈ r.fraction, 0 ≤ n.value ∧ n.value ≤ 9999999

/-- The numbers up to the seconds are written with digits only. -/
structure TimeIsPlain : Prop where
  days : ∀ n ∈ r.days, n.IsPlain
  hours : r.hours.IsPlain
  minutes : r.minutes.IsPlain
  seconds : r.seconds.IsPlain

/-- All numbers are written with digits only. -/
structure IsPlain : Prop extends r.TimeIsPlain where
  fraction : ∀ n ∈ r.fraction, n.IsPlain

/-- The ticks up to the seconds. -/
def time : Int :=
  ticksPerDay * Number.optionValue r.days +
    timeOfDay r.hours.value r.minutes.value r.seconds.value 0

/-- The total without its sign. -/
def total : Int := r.time + Number.optionValue r.fraction

/-- The 64 bits of the ticks show that they are too large. -/
def OverflowSeen : Prop :=
  wrapLongLong r.time < 0 ∨ 2 ^ 63 ≤ wrapLongLong r.time + Number.optionValue r.fraction

/-- **Where reading is right**: what is in range has plain numbers and fits, or is seen to be too
large; it is not the smallest number; and a dot behind plain seconds has a digit behind it. -/
structure Clear (bSign : Bool) : Prop where
  taken : r.InRange → (r.IsPlain ∧ IsLongLong (signed bSign r.total)) ∨ r.OverflowSeen
  notSmallest : r.InRange → r.IsPlain → signed bSign r.total ≠ -2 ^ 63
  dot : r.TimeInRange → r.TimeIsPlain → IsLongLong (signed bSign r.time) →
    ∀ n ∈ r.fraction, n.IsPlain

end Reading

/-- What is read at the beginning of the text. -/
def ClearText (s : List Nat) : Prop :=
  ∀ r, reading (takeSign (s.dropWhile isBlank)).2 = some r →
    r.Clear (takeSign (s.dropWhile isBlank)).1

/-! ### Reading numbers -/

/-- An `int`. -/
def IsInt (n : Int) : Prop := -2 ^ 31 ≤ n ∧ n < 2 ^ 31

/-- **The digits are added up**, unless they make more than a `ULONG`. -/
theorem addDigits_eq (s : List Nat) : ∀ nVal, nVal ≤ 0xFFFFFFFF →
    (Decimal.value nVal (s.takeWhile Decimal.isDigit) ≤ 0xFFFFFFFF →
      addDigits nVal s = (some (Decimal.value nVal (s.takeWhile Decimal.isDigit)),
        s.dropWhile Decimal.isDigit)) ∧
    (0xFFFFFFFF < Decimal.value nVal (s.takeWhile Decimal.isDigit) →
      ∃ sNext, addDigits nVal s = (none, sNext)) := by
  induction s with
  | nil => exact fun nVal h => ⟨fun _ => rfl, fun hlt => absurd h (Nat.not_le.mpr hlt)⟩
  | cons c s ih =>
    intro nVal h
    by_cases hc : 0x30 ≤ c ∧ c ≤ 0x39
    · rw [List.takeWhile_cons_of_pos (Decimal.isDigit_iff.mpr hc),
        List.dropWhile_cons_of_pos (Decimal.isDigit_iff.mpr hc), Decimal.value_cons, addDigits,
        if_pos hc]
      have hle := Decimal.le_value (s.takeWhile Decimal.isDigit) (10 * nVal + (c - 0x30))
      by_cases hmul : nVal > 0xFFFFFFFF / 10
      · rw [if_pos hmul]
        exact ⟨fun hfits => by omega, fun _ => ⟨_, rfl⟩⟩
      · rw [if_neg hmul]
        by_cases hadd : nVal * 10 > 0xFFFFFFFF - (c - 0x30)
        · rw [if_pos hadd]
          exact ⟨fun hfits => by omega, fun _ => ⟨_, rfl⟩⟩
        · rw [if_neg hadd, Nat.mul_comm nVal 10]
          exact ih _ (by omega)
    · have hdigit : ¬ Decimal.isDigit c = true := fun hd => hc (Decimal.isDigit_iff.mp hd)
      rw [List.takeWhile_cons_of_neg hdigit, List.dropWhile_cons_of_neg hdigit, addDigits,
        if_neg hc]
      exact ⟨fun _ => rfl, fun hlt => absurd h (Nat.not_le.mpr hlt)⟩

/-- **`myStrTol`** reads the number at the cursor if it is an `int`. -/
theorem myStrTol_eq (s : List Nat) :
    (IsInt (number s).1.value → myStrTol s = (some (number s).1.value, (number s).2)) ∧
      (¬ IsInt (number s).1.value → ∃ sNext, myStrTol s = (none, sNext)) := by
  rw [myStrTol, number, Number.value, signed, IsInt]
  rcases takeSign (s.dropWhile isBlank) with ⟨bNeg, sNext⟩
  obtain ⟨hsum, hover⟩ := addDigits_eq sNext 0 (by decide)
  dsimp only
  generalize Decimal.value 0 (sNext.takeWhile Decimal.isDigit) = nVal at hsum hover ⊢
  by_cases hle : nVal ≤ 0xFFFFFFFF
  · rw [hsum hle]
    cases bNeg with
    | false =>
      simp only [Bool.not_false, if_true, Bool.false_eq_true, if_false]
      by_cases hint : nVal > 0x7FFFFFFF
      · rw [if_pos hint]
        exact ⟨fun h => by omega, fun _ => ⟨_, rfl⟩⟩
      · rw [if_neg hint]
        exact ⟨fun _ => rfl, fun h => by omega⟩
    | true =>
      simp only [Bool.not_true, Bool.false_eq_true, if_false, if_true]
      by_cases hint : nVal > 0x80000000
      · rw [if_pos hint]
        exact ⟨fun h => by omega, fun _ => ⟨_, rfl⟩⟩
      · rw [if_neg hint]
        exact ⟨fun _ => rfl, fun h => by omega⟩
  · obtain ⟨sStop, hnone⟩ := hover (by omega)
    rw [hnone]
    refine ⟨fun h => ?_, fun _ => ⟨sStop, rfl⟩⟩
    split at h <;> omega

/-- **A number in range** is read, and any other one ends `Parse`. -/
theorem readNumber_eq (nMax : Int) (hmax : nMax ≤ 0x7FFFFFFF) (s : List Nat) :
    (0 ≤ (number s).1.value ∧ (number s).1.value ≤ nMax →
      readNumber nMax s = .ok ((number s).1.value, (number s).2)) ∧
    (¬ (0 ≤ (number s).1.value ∧ (number s).1.value ≤ nMax) →
      ∃ sNext, readNumber nMax s = .error (.mxInvalidData, sNext)) := by
  obtain ⟨hread, hnone⟩ := myStrTol_eq s
  rw [readNumber]
  by_cases hint : IsInt (number s).1.value
  · rw [hread hint]
    dsimp only
    refine ⟨fun h => if_neg (by omega), fun h => ⟨_, if_pos (by omega)⟩⟩
  · obtain ⟨sNext, hs⟩ := hnone hint
    rw [hs]
    rw [IsInt] at hint
    exact ⟨fun h => by omega, fun _ => ⟨_, rfl⟩⟩

/-- The days and the hours are in range. -/
def HoursInRange (days : Option Number) (hours : Number) : Prop :=
  (∀ n ∈ days, 0 ≤ n.value ∧ n.value ≤ 0x7FFFFFFF) ∧ 0 ≤ hours.value ∧ hours.value ≤ 23

/-- **The days and the hours** are read if they are in range. -/
theorem readHours_eq {s sNext : List Nat} {days : Option Number} {hours : Number}
    (h : readingHours s = (days, hours, sNext)) :
    (HoursInRange days hours →
      readHours s = .ok (Number.optionValue days, hours.value, sNext)) ∧
    (¬ HoursInRange days hours → ∃ sStop, readHours s = .error (.mxInvalidData, sStop)) := by
  obtain ⟨hread, hstop⟩ := readNumber_eq 0x7FFFFFFF (Int.le_refl _) s
  rw [readingHours] at h
  rw [readHours]
  by_cases hdot : (number s).2.head? = some chDot
  · rw [if_pos hdot] at h
    obtain ⟨rfl, hhours⟩ := Prod.mk.inj h
    obtain ⟨hread', hstop'⟩ := readNumber_eq 23 (by decide) ((number s).2.drop 1)
    rw [hhours] at hread' hstop'
    by_cases hdays : 0 ≤ (number s).1.value ∧ (number s).1.value ≤ 0x7FFFFFFF
    · rw [hread hdays]
      dsimp only
      rw [if_pos hdot]
      refine ⟨fun hin => ?_, fun hout => ?_⟩
      · rw [hread' hin.2]
        rfl
      · obtain ⟨sStop, hs⟩ := hstop' fun hin =>
          hout ⟨fun n hn => Option.some.inj hn ▸ hdays, hin⟩
        rw [hs]
        exact ⟨sStop, rfl⟩
    · obtain ⟨sStop, hs⟩ := hstop hdays
      rw [hs]
      exact ⟨fun hin => absurd (hin.1 _ rfl) hdays, fun _ => ⟨sStop, rfl⟩⟩
  · rw [if_neg hdot] at h
    obtain ⟨rfl, hnumber⟩ := Prod.mk.inj h
    rw [hnumber] at hread hstop hdot
    by_cases hint : 0 ≤ hours.value ∧ hours.value ≤ 0x7FFFFFFF
    · rw [hread hint]
      dsimp only
      rw [if_neg hdot]
      refine ⟨fun hin => ?_, fun hout => ?_⟩
      · rw [if_neg (Int.not_lt.mpr hin.2.2)]
        rfl
      · refine ⟨s, if_pos ?_⟩
        by_contra hle
        exact hout ⟨fun n hn => (by cases hn), hint.1, Int.not_lt.mp hle⟩
    · obtain ⟨sStop, hs⟩ := hstop hint
      rw [hs]
      refine ⟨fun hin => absurd ⟨hin.2.1, ?_⟩ hint, fun _ => ⟨sStop, rfl⟩⟩
      exact Int.le_trans hin.2.2 (by decide)

/-- **The ticks** are read if they are in range. -/
theorem readTicks_eq {s sNext : List Nat} {fraction : Option Number}
    (h : readingTicks s = (fraction, sNext)) :
    ((∀ n ∈ fraction, 0 ≤ n.value ∧ n.value ≤ 9999999) →
      readTicks s = .ok (Number.optionValue fraction, sNext)) ∧
    (¬ (∀ n ∈ fraction, 0 ≤ n.value ∧ n.value ≤ 9999999) →
      ∃ sStop, readTicks s = .error (.mxInvalidData, sStop)) := by
  rw [readingTicks] at h
  rw [readTicks]
  by_cases hdot : s.head? = some chDot
  · rw [if_pos hdot] at h
    obtain ⟨rfl, rfl⟩ := Prod.mk.inj h
    obtain ⟨hread, hstop⟩ := readNumber_eq 9999999 (by decide) (s.drop 1)
    rw [if_pos hdot]
    refine ⟨fun hin => ?_, fun hout => ?_⟩
    · have hmem := hin _ rfl
      exact hread hmem
    · refine hstop fun hin => hout ?_
      intro n hn
      exact Option.some.inj hn ▸ hin
  · rw [if_neg hdot] at h
    obtain ⟨rfl, rfl⟩ := Prod.mk.inj h
    rw [if_neg hdot]
    exact ⟨fun _ => rfl, fun hout => absurd (fun n hn => (by cases hn)) hout⟩

/-- The steps of a reading. -/
theorem reading_eq_some_iff {s : List Nat} {r : Reading} :
    reading s = some r ↔ ∃ s1 s2 s3, readingHours s = (r.days, r.hours, s1) ∧
      s1.head? = some chColon ∧ number (s1.drop 1) = (r.minutes, s2) ∧
      s2.head? = some chColon ∧ number (s2.drop 1) = (r.seconds, s3) ∧
      readingTicks s3 = (r.fraction, r.rest) := by
  rw [reading]
  constructor
  · intro h
    rcases hhours : readingHours s with ⟨days, hours, s1⟩
    rw [hhours] at h
    dsimp only at h
    split at h
    · cases h
    next hcolon =>
      rcases hminutes : number (s1.drop 1) with ⟨minutes, s2⟩
      rw [hminutes] at h
      dsimp only at h
      split at h
      · cases h
      next hcolon' =>
        rcases hseconds : number (s2.drop 1) with ⟨seconds, s3⟩
        rcases hticks : readingTicks s3 with ⟨fraction, rest⟩
        rw [hseconds] at h
        dsimp only at h
        rw [hticks] at h
        obtain rfl := Option.some.inj h
        exact ⟨s1, s2, s3, rfl, not_not.mp hcolon, hminutes, not_not.mp hcolon', hseconds,
          hticks⟩
  · rintro ⟨s1, s2, s3, hhours, hcolon, hminutes, hcolon', hseconds, hticks⟩
    rw [hhours]
    dsimp only
    rw [if_neg (not_not.mpr hcolon), hminutes]
    dsimp only
    rw [if_neg (not_not.mpr hcolon'), hseconds]
    dsimp only
    rw [hticks]

theorem Reading.InRange.hoursInRange {r : Reading} (h : r.InRange) :
    HoursInRange r.days r.hours :=
  ⟨fun n hn => ⟨h.days n hn, h.daysInt n hn⟩, h.hours⟩

/-- **What is read is taken if it is in range.** -/
theorem readFields_of_reading (hRes : HResult) {s : List Nat} {r : Reading}
    (h : reading s = some r) (hin : r.InRange) :
    readFields hRes s = .ok (r.fields, r.rest) := by
  obtain ⟨s1, s2, s3, hhours, hcolon, hminutes, hcolon', hseconds, hticks⟩ :=
    reading_eq_some_iff.mp h
  have hread := (readNumber_eq 59 (by decide) (s1.drop 1)).1
  have hread' := (readNumber_eq 59 (by decide) (s2.drop 1)).1
  rw [hminutes] at hread
  rw [hseconds] at hread'
  simp only [readFields, bind, Except.bind, pure, Except.pure,
    (readHours_eq hhours).1 hin.hoursInRange, readColon, if_pos hcolon, if_pos hcolon',
    hread hin.minutes, hread' hin.seconds, (readTicks_eq hticks).1 hin.fraction]
  rfl

/-- **Nothing else is taken.** -/
theorem readFields_error (hRes : HResult) {s : List Nat}
    (h : ∀ r, reading s = some r → ¬ r.InRange) :
    ∃ e sStop, readFields hRes s = .error (e, sStop) ∧ (e = .mxInvalidData ∨ e = hRes) := by
  simp only [readFields, bind, Except.bind, pure, Except.pure]
  rcases hhours : readingHours s with ⟨days, hours, s1⟩
  by_cases hh : HoursInRange days hours
  swap
  · obtain ⟨sStop, hs⟩ := (readHours_eq hhours).2 hh
    rw [hs]
    exact ⟨_, _, rfl, .inl rfl⟩
  rw [(readHours_eq hhours).1 hh]
  dsimp only
  rw [readColon]
  by_cases hcolon : s1.head? = some chColon
  swap
  · rw [if_neg hcolon]
    exact ⟨_, _, rfl, .inr rfl⟩
  rw [if_pos hcolon]
  dsimp only
  rcases hminutes : number (s1.drop 1) with ⟨minutes, s2⟩
  obtain ⟨hread, hstop⟩ := readNumber_eq 59 (by decide) (s1.drop 1)
  rw [hminutes] at hread hstop
  by_cases hm : 0 ≤ minutes.value ∧ minutes.value ≤ 59
  swap
  · obtain ⟨sStop, hs⟩ := hstop hm
    rw [hs]
    exact ⟨_, _, rfl, .inl rfl⟩
  rw [hread hm]
  dsimp only
  rw [readColon]
  by_cases hcolon' : s2.head? = some chColon
  swap
  · rw [if_neg hcolon']
    exact ⟨_, _, rfl, .inr rfl⟩
  rw [if_pos hcolon']
  dsimp only
  rcases hseconds : number (s2.drop 1) with ⟨seconds, s3⟩
  obtain ⟨hread', hstop'⟩ := readNumber_eq 59 (by decide) (s2.drop 1)
  rw [hseconds] at hread' hstop'
  by_cases hs : 0 ≤ seconds.value ∧ seconds.value ≤ 59
  swap
  · obtain ⟨sStop, hs⟩ := hstop' hs
    rw [hs]
    exact ⟨_, _, rfl, .inl rfl⟩
  rw [hread' hs]
  dsimp only
  rcases hticks : readingTicks s3 with ⟨fraction, rest⟩
  by_cases hx : ∀ n ∈ fraction, 0 ≤ n.value ∧ n.value ≤ 9999999
  · exact absurd ⟨⟨fun n hn => (hh.1 n hn).1, hh.2, hm, hs⟩, fun n hn => (hh.1 n hn).2, hx⟩
      (h ⟨days, hours, minutes, seconds, fraction, rest⟩ (reading_eq_some_iff.mpr
        ⟨s1, s2, s3, hhours, hcolon, hminutes, hcolon', hseconds, hticks⟩))
  · obtain ⟨sStop, hs⟩ := (readTicks_eq hticks).2 hx
    rw [hs]
    exact ⟨_, _, rfl, .inl rfl⟩

/-! ### What `Parse` does -/

/-- A number before the dot is not negative in a reading in range. -/
theorem optionValue_nonneg {n : Option Number} (h : ∀ m ∈ n, 0 ≤ m.value) :
    0 ≤ Number.optionValue n := by
  cases n with
  | none => exact Int.le_refl 0
  | some m => exact h m rfl

/-- `CalculateTicks`, for days that are not negative. -/
theorem calculateTicks_of_nonneg {nDays nHours nMinutes nSeconds : Int} (hdays : 0 ≤ nDays)
    (htime : IsTime nHours nMinutes nSeconds 0) :
    (wrapLongLong (ticksPerDay * nDays + timeOfDay nHours nMinutes nSeconds 0) < 0 →
      calculateTicks nDays nHours nMinutes nSeconds 0 = (0, true)) ∧
    (0 ≤ wrapLongLong (ticksPerDay * nDays + timeOfDay nHours nMinutes nSeconds 0) →
      calculateTicks nDays nHours nMinutes nSeconds 0 =
        (wrapLongLong (ticksPerDay * nDays + timeOfDay nHours nMinutes nSeconds 0), false)) := by
  obtain ⟨h0, hlt⟩ := timeOfDay_range htime
  rw [calculateTicks, if_neg (not_not.mpr htime), addDays_eq h0 hlt]
  generalize timeOfDay nHours nMinutes nSeconds 0 = t at h0 hlt ⊢
  have hsign : SignShows nDays t ↔ wrapLongLong (ticksPerDay * nDays + t) < 0 := by
    rw [SignShows]
    by_cases hpos : nDays > 0
    · rw [if_pos hpos]
    · -- there are no days, and the time of day is not wrapped
      obtain rfl : nDays = 0 := by omega
      rw [if_neg hpos, Int.mul_zero, Int.zero_add]
      rw [ticksPerDay] at hlt
      rw [wrapLongLong_of_isLongLong ⟨by omega, by omega⟩]
      omega
  constructor
  · intro hneg
    simp [hsign, hneg]
  · intro hnonneg
    simp [hsign, Int.not_lt.mpr hnonneg]

/-- **`Parse` takes what is in range**, unless the 64 bits show that it is too large. -/
theorem parse_of_reading (hRes : HResult) (nTicks : Int) {s : List Nat} {r : Reading}
    (h : reading (takeSign (s.dropWhile isBlank)).2 = some r) (hin : r.InRange) :
    (r.OverflowSeen → parse hRes nTicks s = (.mxArithmeticOverflow, nTicks, r.rest)) ∧
      (¬ r.OverflowSeen → parse hRes nTicks s = (.sOk,
        signed (takeSign (s.dropWhile isBlank)).1
          (wrapLongLong r.time + Number.optionValue r.fraction), r.rest)) := by
  obtain ⟨hneg, hnonneg⟩ := calculateTicks_of_nonneg (optionValue_nonneg hin.days)
    ⟨hin.hours, hin.minutes, hin.seconds, by decide, by decide⟩
  have hx0 : 0 ≤ Number.optionValue r.fraction := optionValue_nonneg fun n hn => (hin.fraction n hn).1
  have hx : Number.optionValue r.fraction ≤ 9999999 := by
    cases hf : r.fraction with
    | none => decide
    | some n => exact (hin.fraction n hf).2
  rw [parse]
  dsimp only
  rw [readFields_of_reading hRes h hin]
  dsimp only [Reading.fields]
  rw [Reading.OverflowSeen, Reading.time]
  generalize (takeSign (s.dropWhile isBlank)).1 = bSign
  obtain ⟨hlo, hhi⟩ := isLongLong_wrapLongLong (ticksPerDay * Number.optionValue r.days +
    timeOfDay r.hours.value r.minutes.value r.seconds.value 0)
  generalize wrapLongLong (ticksPerDay * Number.optionValue r.days +
    timeOfDay r.hours.value r.minutes.value r.seconds.value 0) = n at hlo hhi hneg hnonneg ⊢
  generalize Number.optionValue r.fraction = x at hx0 hx ⊢
  by_cases hsign : n < 0
  · rw [hneg hsign]
    exact ⟨fun _ => rfl, fun hseen => absurd (.inl hsign) hseen⟩
  · rw [hnonneg (Int.not_lt.mp hsign)]
    dsimp only
    rw [Bool.false_or]
    by_cases hover : n + x < 2 ^ 63
    · have hsum : wrapLongLong (n + x) = n + x := wrapLongLong_of_lt (by omega) hover
      rw [hsum, if_neg (by rw [decide_eq_true_iff]; omega)]
      refine ⟨fun hseen => by omega, fun _ => ?_⟩
      cases bSign with
      | false => rfl
      | true =>
        rw [signed, if_pos rfl, wrapLongLong_of_isLongLong ⟨by omega, by omega⟩]
        rfl
    · have hsum : wrapLongLong (n + x) = n + x - 2 ^ 64 :=
        wrapLongLong_of_ge (by omega) (by omega)
      rw [hsum, if_pos (by rw [decide_eq_true_iff]; omega)]
      exact ⟨fun _ => rfl, fun hseen => by omega⟩

theorem parse_error (hRes : HResult) (hfail : hRes.failed = true) (nTicks : Int) {s : List Nat}
    (h : ∀ r, reading (takeSign (s.dropWhile isBlank)).2 = some r → ¬ r.InRange) :
    (parse hRes nTicks s).1.failed = true ∧ (parse hRes nTicks s).2.1 = nTicks := by
  obtain ⟨e, sStop, herror, he⟩ := readFields_error hRes h
  rw [parse]
  dsimp only
  rw [herror]
  refine ⟨?_, rfl⟩
  rcases he with rfl | rfl
  · rfl
  · exact hfail

/-! ### What is written and what is read -/

/-- A number that is written with digits only. -/
def Number.plain (d : List Nat) : Number := ⟨[], false, d⟩

theorem Number.value_plain (d : List Nat) : (Number.plain d).value = Decimal.value 0 d := rfl

theorem facts_of_isDigit {c : Nat} (h : Decimal.isDigit c = true) :
    isBlank c = false ∧ c ≠ chMinus ∧ c ≠ chDot ∧ c ≠ chColon := by
  obtain ⟨hlo, hhi⟩ := Decimal.isDigit_iff.mp h
  refine ⟨?_, ?_, ?_, ?_⟩
  · rw [isBlank, Bool.or_eq_false_iff, beq_eq_false_iff_ne, beq_eq_false_iff_ne]
    omega
  · rw [chMinus]
    omega
  · rw [chDot]
    omega
  · rw [chColon]
    omega

theorem startsWithDigit_dropWhile (s : List Nat) :
    startsWithDigit (s.dropWhile Decimal.isDigit) = false := by
  rw [startsWithDigit]
  cases h : (s.dropWhile Decimal.isDigit).head? with
  | none => rfl
  | some c =>
    have hnot := List.head?_dropWhile_not Decimal.isDigit s
    rw [h] at hnot
    exact hnot

/-- A blank, a sign or a digit is what a text of this kind does not start with. -/
theorem takeSign_of_isNumber {d : List Nat} (h : IsNumber d) (rest : List Nat) :
    takeSign ((d ++ rest).dropWhile isBlank) = (false, d ++ rest) := by
  obtain ⟨hne, hdigits⟩ := h
  obtain ⟨c, d, rfl⟩ := List.exists_cons_of_ne_nil hne
  obtain ⟨hblank, hminus, -, -⟩ := facts_of_isDigit (hdigits c List.mem_cons_self)
  rw [List.cons_append, List.dropWhile_cons_of_neg (by rw [hblank]; decide), takeSign, if_neg]
  rw [List.head?_cons, Option.some.injEq]
  exact hminus

/-- **A number as it is written** is read as its digits. -/
theorem number_append {d : List Nat} (h : IsNumber d) {rest : List Nat}
    (hrest : startsWithDigit rest = false) : number (d ++ rest) = (Number.plain d, rest) := by
  have hstop : rest.takeWhile Decimal.isDigit = [] ∧ rest.dropWhile Decimal.isDigit = rest := by
    cases rest with
    | nil => exact ⟨rfl, rfl⟩
    | cons c rest =>
      have hc : Decimal.isDigit c = false := hrest
      exact ⟨List.takeWhile_cons_of_neg (by rw [hc]; decide),
        List.dropWhile_cons_of_neg (by rw [hc]; decide)⟩
  have hblanks : (d ++ rest).takeWhile isBlank = [] := by
    obtain ⟨c, d, rfl⟩ := List.exists_cons_of_ne_nil h.1
    exact List.takeWhile_cons_of_neg
      (by rw [(facts_of_isDigit (h.2 c List.mem_cons_self)).1]; decide)
  rw [number, takeSign_of_isNumber h rest]
  dsimp only
  rw [hblanks, List.takeWhile_append_of_pos h.2, List.dropWhile_append_of_pos h.2, hstop.1,
    hstop.2, List.append_nil, Number.plain]

/-- A number that is read as its digits is written so. -/
theorem number_of_isPlain {s : List Nat} (h : (number s).1.IsPlain) :
    IsNumber (number s).1.digits ∧ s = (number s).1.digits ++ (number s).2 ∧
      (number s).1 = Number.plain (number s).1.digits := by
  obtain ⟨hblanks, hneg, hdigits⟩ := h
  have hdrop : s.dropWhile isBlank = s := by
    have happ := List.takeWhile_append_dropWhile (p := isBlank) (l := s)
    rw [show s.takeWhile isBlank = [] from hblanks, List.nil_append] at happ
    exact happ
  have hsign : takeSign s = (false, s) := by
    have hfalse : (takeSign (s.dropWhile isBlank)).1 = false := hneg
    rw [hdrop, takeSign] at hfalse
    rw [takeSign]
    split
    next hminus =>
      rw [if_pos hminus] at hfalse
      cases hfalse
    · rfl
  have hnumber : number s = (⟨s.takeWhile isBlank, false, s.takeWhile Decimal.isDigit⟩,
      s.dropWhile Decimal.isDigit) := by
    rw [number, hdrop, hsign]
  rw [hnumber] at hblanks hdigits ⊢
  refine ⟨⟨hdigits, fun c hc => List.mem_takeWhile_imp hc⟩,
    List.takeWhile_append_dropWhile.symm, ?_⟩
  rw [Number.plain]
  exact congrArg (fun blanks => Number.mk blanks false _) hblanks

theorem startsWithDigit_number (s : List Nat) : startsWithDigit (number s).2 = false :=
  startsWithDigit_dropWhile _

theorem number_suffix (s : List Nat) : (number s).2 <:+ s := by
  have hsign : (takeSign (s.dropWhile isBlank)).2 <:+ s.dropWhile isBlank := by
    rw [takeSign]
    split
    · exact List.drop_suffix _ _
    · exact List.suffix_rfl
  exact (List.dropWhile_suffix _).trans (hsign.trans (List.dropWhile_suffix _))

/-- Where no digit is, no plain number is read. -/
theorem not_isPlain_number {s : List Nat} (h : startsWithDigit s = false) :
    ¬ (number s).1.IsPlain := by
  intro hplain
  obtain ⟨⟨hne, hdigits⟩, hs, -⟩ := number_of_isPlain hplain
  obtain ⟨c, d, hd⟩ := List.exists_cons_of_ne_nil hne
  have hc := hdigits c (hd ▸ List.mem_cons_self)
  rw [hs, hd, List.cons_append, startsWithDigit, List.head?_cons] at h
  exact absurd hc (by rw [show Decimal.isDigit c = false from h]; decide)

/-- What is read stands for what is written, but for a dot behind the seconds that no digit
follows. -/
structure Matches (r : Reading) (w : Written) (rest : List Nat) : Prop where
  days : r.days = w.dd.map Number.plain
  hours : r.hours = Number.plain w.hh
  minutes : r.minutes = Number.plain w.mm
  seconds : r.seconds = Number.plain w.ss
  fraction : (r.fraction = w.ff.map Number.plain ∧ r.rest = rest) ∨
    (w.ff = none ∧ rest.head? = some chDot ∧ r.rest ≠ rest ∧ ∃ n, r.fraction = some n ∧ ¬ n.IsPlain)

/-- What follows the hours, as it is written. -/
def Written.tail (w : Written) (rest : List Nat) : List Nat :=
  chColon :: (w.mm ++ chColon :: (w.ss ++ (w.ff.elim [] (fun d => chDot :: d) ++ rest)))

theorem Written.text_append (w : Written) (rest : List Nat) :
    w.text ++ rest = (if w.bSign then [chMinus] else []) ++
      ((w.dd.elim [] fun d => d ++ [chDot]) ++ (w.hh ++ w.tail rest)) := by
  rw [Written.text, Written.tail]
  simp only [List.append_assoc, List.cons_append]

theorem startsWithDigit_tail (w : Written) (rest : List Nat) :
    startsWithDigit (w.tail rest) = false := rfl

theorem body_hours {w : Written} (hdd : ∀ d ∈ w.dd, IsNumber d) (hhh : IsNumber w.hh)
    (rest : List Nat) :
    readingHours ((w.dd.elim [] fun d => d ++ [chDot]) ++ (w.hh ++ w.tail rest)) =
      (w.dd.map Number.plain, Number.plain w.hh, w.tail rest) := by
  rw [readingHours]
  cases hd : w.dd with
  | none =>
    have hnumber := number_append hhh (startsWithDigit_tail w rest)
    have hcolon : ¬ (w.tail rest).head? = some chDot := fun hdot =>
      absurd (Option.some.inj hdot) (show ¬ chColon = chDot by decide)
    rw [Option.elim_none, List.nil_append, hnumber, if_neg hcolon]
    rfl
  | some d =>
    have hdot : startsWithDigit (chDot :: (w.hh ++ w.tail rest)) = false := rfl
    have hnumber := number_append (hdd d hd) hdot
    rw [Option.elim_some, List.append_assoc, List.singleton_append, hnumber]
    dsimp only
    rw [List.head?_cons, if_pos rfl, List.drop_one, List.tail_cons,
      number_append hhh (startsWithDigit_tail w rest)]
    rfl

/-- What is behind the seconds. -/
theorem tail_ticks {w : Written} {rest : List Nat} (hff : ∀ d ∈ w.ff, IsNumber d)
    (hends : startsWithDigit rest = false)
    (hdot : w.ff = none → rest.head? = some chDot → startsWithDigit (rest.drop 1) = false) :
    startsWithDigit (w.ff.elim [] (fun d => chDot :: d) ++ rest) = false ∧
      ((readingTicks (w.ff.elim [] (fun d => chDot :: d) ++ rest) =
          (w.ff.map Number.plain, rest)) ∨
        (w.ff = none ∧ rest.head? = some chDot ∧ ∃ n r, readingTicks (w.ff.elim [] (fun d => chDot :: d) ++ rest) =
          (some n, r) ∧ ¬ n.IsPlain ∧ r ≠ rest)) := by
  rw [readingTicks]
  cases hf : w.ff with
  | none =>
    rw [Option.elim_none, List.nil_append]
    refine ⟨hends, ?_⟩
    by_cases hhead : rest.head? = some chDot
    · refine .inr ⟨rfl, hhead, _, _, if_pos hhead, not_isPlain_number (hdot hf hhead), fun heq => ?_⟩
      have hlen := (number_suffix (rest.drop 1)).length_le
      cases rest with
      | nil => cases hhead
      | cons c rest =>
        rw [heq, List.drop_one, List.tail_cons, List.length_cons] at hlen
        exact Nat.not_succ_le_self _ hlen
    · rw [if_neg hhead]
      exact .inl rfl
  | some d =>
    rw [Option.elim_some]
    refine ⟨rfl, .inl ?_⟩
    rw [List.cons_append, List.head?_cons, if_pos rfl, List.drop_one, List.tail_cons,
      number_append (hff d hf) hends]
    rfl

/-- **A time span as it is written is read**, and the sign in front of it. -/
theorem Begins.reading {s : List Nat} {w : Written} {rest : List Nat} (h : Begins s w rest) :
    (takeSign (s.dropWhile isBlank)).1 = w.bSign ∧
      ∃ r, TimeSpan.reading (takeSign (s.dropWhile isBlank)).2 = some r ∧ Matches r w rest := by
  obtain ⟨⟨blanks, hblanks, rfl⟩, hdd, hhh, hmm, hss, hff, hends, hdot⟩ := h
  rw [Written.text_append, List.dropWhile_append_of_pos hblanks]
  obtain ⟨hdigit, hticks⟩ := tail_ticks hff hends hdot
  have hhours := body_hours hdd hhh rest
  generalize hbody : (w.dd.elim [] fun d => d ++ [chDot]) ++ (w.hh ++ w.tail rest) = body
    at hhours ⊢
  have hsign : takeSign (((if w.bSign then [chMinus] else []) ++ body).dropWhile isBlank) =
      (w.bSign, body) := by
    cases w.bSign with
    | true =>
      rw [if_pos rfl, List.singleton_append, List.dropWhile_cons_of_neg (by decide), takeSign,
        if_pos List.head?_cons]
      rfl
    | false =>
      rw [if_neg (by decide), List.nil_append, ← hbody]
      cases hd : w.dd with
      | none => exact takeSign_of_isNumber hhh _
      | some d =>
        rw [Option.elim_some, List.append_assoc]
        exact takeSign_of_isNumber (hdd d hd) _
  rw [hsign]
  refine ⟨rfl, ?_⟩
  have hminutes : number (w.mm ++
      chColon :: (w.ss ++ (w.ff.elim [] (fun d => chDot :: d) ++ rest))) = _ :=
    number_append hmm rfl
  have hseconds := number_append hss hdigit
  rcases hticks with hticks | ⟨hnone, hhead, n, r, hticks, hn, hr⟩
  · exact ⟨⟨_, _, _, _, _, _⟩, reading_eq_some_iff.mpr ⟨_, _, _, hhours, rfl, hminutes, rfl,
      hseconds, hticks⟩, rfl, rfl, rfl, rfl, .inl ⟨rfl, rfl⟩⟩
  · exact ⟨⟨_, _, _, _, _, _⟩, reading_eq_some_iff.mpr ⟨_, _, _, hhours, rfl, hminutes, rfl,
      hseconds, hticks⟩, rfl, rfl, rfl, rfl, .inr ⟨hnone, hhead, hr, n, rfl, hn⟩⟩

theorem eq_cons_of_head? {c : Nat} {s : List Nat} (h : s.head? = some c) :
    s = c :: s.drop 1 := by
  cases s with
  | nil => cases h
  | cons a s =>
    obtain rfl := Option.some.inj h
    rfl

/-- A digit is read as a plain number. -/
theorem isPlain_number {s : List Nat} (h : startsWithDigit s = true) : (number s).1.IsPlain := by
  cases s with
  | nil => cases h
  | cons c s =>
    have hc : Decimal.isDigit c = true := h
    obtain ⟨hblank, hminus, -, -⟩ := facts_of_isDigit hc
    have hdrop : (c :: s).dropWhile isBlank = c :: s :=
      List.dropWhile_cons_of_neg (by rw [hblank]; decide)
    have hsign : takeSign (c :: s) = (false, c :: s) :=
      if_neg fun heq => hminus (Option.some.inj heq)
    rw [number, hdrop, hsign]
    refine ⟨List.takeWhile_cons_of_neg (by rw [hblank]; decide), rfl, ?_⟩
    dsimp only
    rw [List.takeWhile_cons_of_pos hc]
    exact List.cons_ne_nil _ _

/-- What is read as ticks stands for a fraction, or for none. -/
theorem readingTicks_matches {s rest : List Nat} {fraction : Option Number}
    (hs : startsWithDigit s = false) (h : readingTicks s = (fraction, rest)) :
    ∃ ff rest', s = ff.elim [] (fun d => chDot :: d) ++ rest' ∧ (∀ d ∈ ff, IsNumber d) ∧
      startsWithDigit rest' = false ∧
      (ff = none → rest'.head? = some chDot → startsWithDigit (rest'.drop 1) = false) ∧
      ((fraction = ff.map Number.plain ∧ rest = rest') ∨
        (ff = none ∧ rest'.head? = some chDot ∧ rest ≠ rest' ∧
          ∃ n, fraction = some n ∧ ¬ n.IsPlain)) := by
  rw [readingTicks] at h
  by_cases hdot : s.head? = some chDot
  · rw [if_pos hdot] at h
    obtain ⟨rfl, rfl⟩ := Prod.mk.inj h
    by_cases hplain : (number (s.drop 1)).1.IsPlain
    · obtain ⟨hnumber, happ, hvalue⟩ := number_of_isPlain hplain
      refine ⟨some (number (s.drop 1)).1.digits, (number (s.drop 1)).2, ?_,
        fun d hd => Option.some.inj hd ▸ hnumber, startsWithDigit_number _,
        fun hnone => (by cases hnone), .inl ⟨congrArg some hvalue, rfl⟩⟩
      rw [Option.elim_some, List.cons_append, ← happ]
      exact eq_cons_of_head? hdot
    · refine ⟨none, s, rfl, fun d hd => (by cases hd), hs, fun _ _ => ?_,
        .inr ⟨rfl, hdot, fun heq => ?_, _, rfl, hplain⟩⟩
      · by_contra hdigit
        exact hplain (isPlain_number (Bool.eq_true_of_not_eq_false hdigit))
      · have hle := (number_suffix (s.drop 1)).length_le
        have hlen := congrArg List.length (eq_cons_of_head? hdot)
        rw [heq] at hle
        rw [List.length_cons] at hlen
        omega
  · rw [if_neg hdot] at h
    obtain ⟨rfl, rfl⟩ := Prod.mk.inj h
    exact ⟨none, s, rfl, fun d hd => (by cases hd), hs, fun _ hhead => absurd hhead hdot,
      .inl ⟨rfl, rfl⟩⟩

/-- What is read as plain days and hours is written so. -/
theorem readingHours_matches {s sNext : List Nat} {days : Option Number} {hours : Number}
    (h : readingHours s = (days, hours, sNext)) (hdays : ∀ n ∈ days, n.IsPlain)
    (hhours : hours.IsPlain) :
    ∃ dd : Option (List Nat), s = (dd.elim [] fun d => d ++ [chDot]) ++ (hours.digits ++ sNext) ∧
      (∀ d ∈ dd, IsNumber d) ∧ IsNumber hours.digits ∧ days = dd.map Number.plain ∧
      hours = Number.plain hours.digits := by
  rw [readingHours] at h
  by_cases hdot : (number s).2.head? = some chDot
  · rw [if_pos hdot] at h
    obtain ⟨rfl, hnumber⟩ := Prod.mk.inj h
    obtain ⟨hdd, happ, hvalue⟩ := number_of_isPlain (hdays _ rfl)
    have hplain : (number ((number s).2.drop 1)).1.IsPlain := by
      rw [hnumber]
      exact hhours
    obtain ⟨hhh, happ', hvalue'⟩ := number_of_isPlain hplain
    rw [hnumber] at hhh happ' hvalue'
    refine ⟨some (number s).1.digits, ?_, fun d hd => Option.some.inj hd ▸ hdd, hhh,
      congrArg some hvalue, hvalue'⟩
    rw [Option.elim_some, ← happ', List.append_assoc, List.singleton_append,
      ← eq_cons_of_head? hdot]
    exact happ
  · rw [if_neg hdot] at h
    obtain ⟨rfl, hnumber⟩ := Prod.mk.inj h
    have hplain : (number s).1.IsPlain := by
      rw [hnumber]
      exact hhours
    obtain ⟨hhh, happ, hvalue⟩ := number_of_isPlain hplain
    rw [hnumber] at hhh happ hvalue
    exact ⟨none, happ, fun d hd => (by cases hd), hhh, rfl, hvalue⟩

/-- The text is what was skipped and taken, and what is left. -/
theorem takeSign_append (s : List Nat) :
    s = s.takeWhile isBlank ++
      ((if (takeSign (s.dropWhile isBlank)).1 then [chMinus] else []) ++
        (takeSign (s.dropWhile isBlank)).2) := by
  have happ := (List.takeWhile_append_dropWhile (p := isBlank) (l := s)).symm
  rw [takeSign]
  split
  next hminus =>
    rw [if_pos rfl, List.singleton_append, ← eq_cons_of_head? hminus]
    exact happ
  · exact happ

/-- **A time span that is read with plain numbers** is written so. -/
theorem Begins.of_reading {s : List Nat} {r : Reading}
    (h : TimeSpan.reading (takeSign (s.dropWhile isBlank)).2 = some r) (hplain : r.TimeIsPlain) :
    ∃ w rest, Begins s w rest ∧ w.bSign = (takeSign (s.dropWhile isBlank)).1 ∧
      Matches r w rest := by
  obtain ⟨s1, s2, s3, hhours, hcolon, hminutes, hcolon', hseconds, hticks⟩ :=
    reading_eq_some_iff.mp h
  obtain ⟨dd, hbody, hdd, hhh, hdays, hvalue⟩ :=
    readingHours_matches hhours hplain.days hplain.hours
  have hm : (number (s1.drop 1)).1.IsPlain := by
    rw [hminutes]
    exact hplain.minutes
  obtain ⟨hmm, happ, hvalue'⟩ := number_of_isPlain hm
  rw [hminutes] at hmm happ hvalue'
  have hs : (number (s2.drop 1)).1.IsPlain := by
    rw [hseconds]
    exact hplain.seconds
  obtain ⟨hss, happ', hvalue''⟩ := number_of_isPlain hs
  have hstop := startsWithDigit_number (s2.drop 1)
  rw [hseconds] at hss happ' hvalue'' hstop
  obtain ⟨ff, rest, hrest, hff, hends, hdot, hfraction⟩ := readingTicks_matches hstop hticks
  refine ⟨⟨(takeSign (s.dropWhile isBlank)).1, dd, r.hours.digits, r.minutes.digits,
    r.seconds.digits, ff⟩, rest, ⟨⟨s.takeWhile isBlank, fun c hc => List.mem_takeWhile_imp hc, ?_⟩,
    hdd, hhh, hmm, hss, hff, hends, hdot⟩, rfl, hdays, hvalue, hvalue', hvalue'', hfraction⟩
  rw [Written.text_append, Written.tail]
  dsimp only
  rw [← hrest, ← happ', ← eq_cons_of_head? hcolon', ← happ, ← eq_cons_of_head? hcolon, ← hbody]
  exact takeSign_append s

/-! ### Where `Parse` is right -/

theorem IsNumber.isPlain {d : List Nat} (h : IsNumber d) : (Number.plain d).IsPlain :=
  ⟨rfl, rfl, h.1⟩

theorem optionValue_map_plain (d : Option (List Nat)) :
    Number.optionValue (d.map Number.plain) = optionValue d := by
  cases d with
  | none => rfl
  | some d => rfl

theorem optionValue_written_nonneg (d : Option (List Nat)) : 0 ≤ optionValue d := by
  cases d with
  | none => exact Int.le_refl 0
  | some d => exact Int.natCast_nonneg _

section

variable {s : List Nat} {r : Reading} {w : Written} {rest : List Nat}

theorem Matches.timeIsPlain (h : Matches r w rest) (hw : Begins s w rest) : r.TimeIsPlain := by
  refine ⟨fun n hn => ?_, ?_, ?_, ?_⟩
  · rw [h.days] at hn
    obtain ⟨d, hd, rfl⟩ := Option.map_eq_some_iff.mp hn
    exact (hw.dd d hd).isPlain
  · rw [h.hours]
    exact hw.hh.isPlain
  · rw [h.minutes]
    exact hw.mm.isPlain
  · rw [h.seconds]
    exact hw.ss.isPlain

/-- The ticks up to the seconds, and with the fraction. -/
theorem Matches.time_eq (h : Matches r w rest) :
    r.time = ticks (optionValue w.dd) (Decimal.value 0 w.hh) (Decimal.value 0 w.mm)
      (Decimal.value 0 w.ss) 0 := by
  rw [Reading.time, ticks, h.days, h.hours, h.minutes, h.seconds, optionValue_map_plain,
    Int.add_zero]
  rfl

theorem Matches.total_eq (h : Matches r w rest) :
    w.total = signed w.bSign (r.time + optionValue w.ff) := by
  rw [Written.total, h.time_eq, ticks, ticks, Int.add_zero]

theorem Matches.days_nonneg (h : Matches r w rest) : ∀ n ∈ r.days, 0 ≤ n.value := by
  intro n hn
  rw [h.days] at hn
  obtain ⟨d, hd, rfl⟩ := Option.map_eq_some_iff.mp hn
  exact Int.natCast_nonneg _

theorem Matches.timeInRange (h : Matches r w rest) (hin : w.InRange) : r.TimeInRange := by
  refine ⟨h.days_nonneg, ?_, ?_, ?_⟩
  · rw [h.hours, Number.value_plain]
    exact ⟨Int.natCast_nonneg _, Int.ofNat_le.mpr hin.hh⟩
  · rw [h.minutes, Number.value_plain]
    exact ⟨Int.natCast_nonneg _, Int.ofNat_le.mpr hin.mm⟩
  · rw [h.seconds, Number.value_plain]
    exact ⟨Int.natCast_nonneg _, Int.ofNat_le.mpr hin.ss⟩

/-- What is written is in range if it is read so, and the total fits. -/
theorem Matches.inRange (h : Matches r w rest) (hin : r.TimeInRange)
    (hff : optionValue w.ff ≤ 9999999) (htotal : IsLongLong w.total) : w.InRange := by
  obtain ⟨-, ⟨-, hhours⟩, ⟨-, hminutes⟩, -, hseconds⟩ := hin
  rw [h.hours, Number.value_plain] at hhours
  rw [h.minutes, Number.value_plain] at hminutes
  rw [h.seconds, Number.value_plain] at hseconds
  exact ⟨Int.ofNat_le.mp hhours, Int.ofNat_le.mp hminutes, Int.ofNat_le.mp hseconds, hff, htotal⟩

end

/-- The time of day and the days are not negative. -/
theorem Reading.TimeInRange.time_nonneg {r : Reading} (h : r.TimeInRange) :
    0 ≤ r.time ∧ ticksPerDay * Number.optionValue r.days ≤ r.time := by
  have htime : IsTime r.hours.value r.minutes.value r.seconds.value 0 :=
    ⟨h.hours, h.minutes, h.seconds, by decide, by decide⟩
  obtain ⟨h0, -⟩ := timeOfDay_range htime
  have hdays := optionValue_nonneg h.days
  rw [Reading.time, ticksPerDay]
  omega

theorem isLongLong_signed {bSign : Bool} {n m : Int} (h0 : 0 ≤ n) (hle : n ≤ m)
    (h : IsLongLong (signed bSign m)) : IsLongLong (signed bSign n) := by
  rw [IsLongLong, signed] at *
  split at h <;> split <;> omega

/-- A total that is a `LONGLONG`, and not the smallest, is not seen to be too large. -/
theorem not_overflowSeen {r : Reading} {bSign : Bool} (hin : r.TimeInRange)
    (hx : 0 ≤ Number.optionValue r.fraction) (hfits : IsLongLong (signed bSign r.total))
    (hne : signed bSign r.total ≠ -2 ^ 63) :
    ¬ r.OverflowSeen ∧ wrapLongLong r.time = r.time := by
  have h0 := hin.time_nonneg.1
  have hlt : r.time + Number.optionValue r.fraction < 2 ^ 63 := by
    rw [IsLongLong, Reading.total, signed] at *
    split at hfits <;> rename_i hsign
    · rw [if_pos hsign] at hne
      omega
    · omega
  have hwrap : wrapLongLong r.time = r.time :=
    wrapLongLong_of_isLongLong ⟨by omega, by omega⟩
  refine ⟨?_, hwrap⟩
  rw [Reading.OverflowSeen, hwrap]
  omega

/-- What is seen to be too large is so. -/
theorem overflowSeen_of_ge {r : Reading} (hin : r.TimeInRange)
    (hx : 0 ≤ Number.optionValue r.fraction)
    (hx' : Number.optionValue r.fraction ≤ 9999999) (h : r.total = 2 ^ 63) : r.OverflowSeen := by
  have h0 := hin.time_nonneg.1
  rw [Reading.total] at h
  rw [Reading.OverflowSeen]
  by_cases hlt : r.time < 2 ^ 63
  · rw [wrapLongLong_of_lt (by omega) hlt]
    exact .inr (by omega)
  · rw [wrapLongLong_of_ge (Int.not_lt.mp hlt) (by omega)]
    exact .inl (by omega)

section

variable {hRes : HResult} {nTicks : Int} {s : List Nat}

/-- What is read with its fraction is in range and plain if it is written so. -/
theorem Matches.reading_inRange {r : Reading} {w : Written} {rest : List Nat}
    (hmatch : Matches r w rest) (hw : Begins s w rest) (hin : w.InRange)
    (hfraction : r.fraction = w.ff.map Number.plain) :
    r.InRange ∧ r.IsPlain ∧ signed w.bSign r.total = w.total := by
  have htime := hmatch.timeInRange hin
  have hff0 := optionValue_written_nonneg w.ff
  have hvalue : Number.optionValue r.fraction = optionValue w.ff := by
    rw [hfraction, optionValue_map_plain]
  have hsum : signed w.bSign r.total = w.total := by
    rw [hmatch.total_eq, Reading.total, hvalue]
  have hdays : Number.optionValue r.days ≤ 0x7FFFFFFF := by
    have hle := htime.time_nonneg
    have hfits := hin.total
    rw [← hsum, Reading.total, hvalue, IsLongLong, signed] at hfits
    rw [ticksPerDay] at hle
    split at hfits <;> omega
  refine ⟨⟨htime, fun n hn => ?_, fun n hn => ?_⟩, ⟨hmatch.timeIsPlain hw, fun n hn => ?_⟩, hsum⟩
  · rw [show r.days = some n from hn] at hdays
    exact hdays
  · have hff := hin.ff
    rw [← hvalue, show r.fraction = some n from hn] at hff hff0
    exact ⟨hff0, hff⟩
  · rw [hfraction] at hn
    obtain ⟨d, hd, rfl⟩ := Option.map_eq_some_iff.mp hn
    exact (hw.ff d hd).isPlain

/-- **What is written in range is taken** where all of it is read, but for the smallest number. -/
theorem parse_of_begins {r : Reading} {w : Written} {rest : List Nat}
    (hread : reading (takeSign (s.dropWhile isBlank)).2 = some r) (hmatch : Matches r w rest)
    (hw : Begins s w rest) (hin : w.InRange) (hne : w.total ≠ -2 ^ 63)
    (hfraction : r.fraction = w.ff.map Number.plain ∧ r.rest = rest) :
    parse hRes nTicks s = (.sOk, w.total, rest) := by
  obtain ⟨hinr, -, hsum⟩ := hmatch.reading_inRange hw hin hfraction.1
  have hfits : IsLongLong (signed w.bSign r.total) := by
    rw [hsum]
    exact hin.total
  rw [← hsum] at hne
  obtain ⟨hseen, hwrap⟩ := not_overflowSeen hinr.toTimeInRange
    (optionValue_nonneg fun n hn => (hinr.fraction n hn).1) hfits hne
  rw [(parse_of_reading hRes nTicks hread hinr).2 hseen, hwrap, hw.reading.1, hfraction.2, ← hsum,
    Reading.total]

/-- What is clear is taken as it is written. -/
theorem taken_of_clearText (hclear : ClearText s) {w : Written} {rest : List Nat}
    (hw : Begins s w rest) (hin : w.InRange) : parse hRes nTicks s = (.sOk, w.total, rest) := by
  obtain ⟨hsign, r, hread, hmatch⟩ := hw.reading
  have hr := hclear r hread
  rw [hsign] at hr
  have htime := hmatch.timeInRange hin
  have hff0 := optionValue_written_nonneg w.ff
  have htotal := hin.total
  rw [hmatch.total_eq] at htotal
  have hfits := isLongLong_signed htime.time_nonneg.1 (by omega) htotal
  obtain ⟨hfraction, hrest⟩ | ⟨-, -, -, n, hn, hnot⟩ := hmatch.fraction
  · obtain ⟨hinr, hplain, hsum⟩ := hmatch.reading_inRange hw hin hfraction
    have hne : w.total ≠ -2 ^ 63 := by
      rw [← hsum]
      exact hr.notSmallest hinr hplain
    exact parse_of_begins hread hmatch hw hin hne ⟨hfraction, hrest⟩
  · exact absurd (hr.dot htime (hmatch.timeIsPlain hw) hfits n hn) hnot

/-- What is clear and not written so is refused. -/
theorem refused_of_clearText (hfail : hRes.failed = true) (hclear : ClearText s)
    (h : ∀ w rest, Begins s w rest → ¬ w.InRange) :
    (parse hRes nTicks s).1.failed = true ∧ (parse hRes nTicks s).2.1 = nTicks := by
  by_cases hread : ∀ r, reading (takeSign (s.dropWhile isBlank)).2 = some r → ¬ r.InRange
  · exact parse_error hRes hfail nTicks hread
  · push Not at hread
    obtain ⟨r, hread, hin⟩ := hread
    obtain ⟨htaken, -⟩ := parse_of_reading hRes nTicks hread hin
    rcases (hclear r hread).taken hin with ⟨hplain, hfits⟩ | hseen
    · -- what is read so is written, and its numbers are in range
      obtain ⟨w, rest, hw, hsign, hmatch⟩ := Begins.of_reading hread hplain.toTimeIsPlain
      obtain ⟨hfraction, -⟩ | ⟨-, -, -, n, hn, hnot⟩ := hmatch.fraction
      · have hvalue : Number.optionValue r.fraction = optionValue w.ff := by
          rw [hfraction, optionValue_map_plain]
        refine absurd (hmatch.inRange hin.toTimeInRange ?_ ?_) (h w rest hw)
        · rw [← hvalue]
          cases hf : r.fraction with
          | none => decide
          | some n => exact (hin.fraction n hf).2
        · rw [hmatch.total_eq, ← hvalue, hsign]
          exact hfits
      · exact absurd (hplain.fraction n hn) hnot
    · rw [htaken hseen]
      exact ⟨rfl, rfl⟩

/-- What is read in range is taken only if it is written so. -/
theorem ParsesSpan.begins (h : ParsesSpan nTicks s (parse hRes nTicks s)) {r : Reading}
    (hread : reading (takeSign (s.dropWhile isBlank)).2 = some r) (hin : r.InRange)
    (hseen : ¬ r.OverflowSeen) :
    ∃ w, Begins s w r.rest ∧ w.InRange ∧ Matches r w r.rest ∧
      w.bSign = (takeSign (s.dropWhile isBlank)).1 := by
  have htaken := (parse_of_reading hRes nTicks hread hin).2 hseen
  by_cases hw : ∀ w rest, Begins s w rest → ¬ w.InRange
  · -- it is refused
    have hfailed := (h.refused hw).1
    rw [htaken] at hfailed
    cases hfailed
  · push Not at hw
    obtain ⟨w, rest, hw, hinw⟩ := hw
    obtain ⟨hsign, r', hread', hmatch⟩ := hw.reading
    obtain rfl := Option.some.inj (hread.symm.trans hread')
    have hparsed := h.taken w rest hw hinw
    rw [htaken] at hparsed
    obtain rfl : r.rest = rest := (Prod.mk.inj (Prod.mk.inj hparsed).2).2
    exact ⟨w, hw, hinw, hmatch, hsign.symm⟩

/-- What is right is clear. -/
theorem ParsesSpan.clearText (hfail : hRes.failed = true)
    (h : ParsesSpan nTicks s (parse hRes nTicks s)) : ClearText s := by
  intro r hread
  refine ⟨fun hin => ?_, fun hin hplain hsmallest => ?_, fun hin hplain hfits n hn => ?_⟩
  · by_cases hseen : r.OverflowSeen
    · exact .inr hseen
    · obtain ⟨w, hw, hinw, hmatch, hsign⟩ := h.begins hread hin hseen
      obtain ⟨hfraction, -⟩ | ⟨-, -, hne, -⟩ := hmatch.fraction
      · have hvalue : Number.optionValue r.fraction = optionValue w.ff := by
          rw [hfraction, optionValue_map_plain]
        refine .inl ⟨⟨hmatch.timeIsPlain hw, fun n hn => ?_⟩, ?_⟩
        · rw [hfraction] at hn
          obtain ⟨d, hd, rfl⟩ := Option.map_eq_some_iff.mp hn
          exact (hw.ff d hd).isPlain
        · rw [← hsign, Reading.total, hvalue, ← hmatch.total_eq]
          exact hinw.total
      · exact absurd rfl hne
  · -- the sum is one too large before the sign is taken
    obtain ⟨w, rest, hw, hsign, hmatch⟩ := Begins.of_reading hread hplain.toTimeIsPlain
    have hx : Number.optionValue r.fraction ≤ 9999999 := by
      cases hf : r.fraction with
      | none => decide
      | some n => exact (hin.fraction n hf).2
    have hx0 : 0 ≤ Number.optionValue r.fraction :=
      optionValue_nonneg fun n hn => (hin.fraction n hn).1
    obtain ⟨hfraction, -⟩ | ⟨-, -, -, n, hn, hnot⟩ := hmatch.fraction
    · have hvalue : Number.optionValue r.fraction = optionValue w.ff := by
        rw [hfraction, optionValue_map_plain]
      have htotal : w.total = -2 ^ 63 := by
        rw [hmatch.total_eq, hsign, ← hvalue]
        exact hsmallest
      have hinw : w.InRange := hmatch.inRange hin.toTimeInRange (by rw [← hvalue]; exact hx)
        (by rw [htotal]; exact ⟨by decide, by decide⟩)
      have hparsed := h.taken w rest hw hinw
      have hge : r.total = 2 ^ 63 := by
        have h0 := hin.toTimeInRange.time_nonneg.1
        rw [Reading.total] at hsmallest ⊢
        rw [signed] at hsmallest
        split at hsmallest <;> omega
      rw [(parse_of_reading hRes nTicks hread hin).1
        (overflowSeen_of_ge hin.toTimeInRange hx0 hx hge)] at hparsed
      cases (Prod.mk.inj hparsed).1
    · exact hnot (hplain.fraction n hn)
  · -- the dot is behind what is written, and is read nevertheless
    by_contra hnot
    obtain ⟨w, rest, hw, hsign, hmatch⟩ := Begins.of_reading hread hplain
    obtain ⟨hfraction, -⟩ | ⟨hnone, -, hne, -⟩ := hmatch.fraction
    · rw [hfraction] at hn
      obtain ⟨d, hd, rfl⟩ := Option.map_eq_some_iff.mp hn
      exact hnot (hw.ff d hd).isPlain
    · have hzero : optionValue w.ff = 0 := by
        rw [hnone]
        rfl
      have hinw : w.InRange := by
        apply hmatch.inRange hin
        · rw [hzero]
          decide
        · rw [hmatch.total_eq, hzero, hsign, Int.add_zero]
          exact hfits
      have hparsed := h.taken w rest hw hinw
      by_cases hinr : r.InRange
      · obtain ⟨hover, hread'⟩ := parse_of_reading hRes nTicks hread hinr
        by_cases hseen : r.OverflowSeen
        · rw [hover hseen] at hparsed
          cases (Prod.mk.inj hparsed).1
        · rw [hread' hseen] at hparsed
          exact hne (Prod.mk.inj (Prod.mk.inj hparsed).2).2
      · have hfailed := (parse_error hRes hfail nTicks fun r' hread' hin' =>
          hinr (Option.some.inj (hread.symm.trans hread') ▸ hin')).1
        rw [hparsed] at hfailed
        cases hfailed

/-- **`Parse` is right exactly where the text is clear.** -/
theorem parsesSpan_iff (hfail : hRes.failed = true) :
    ParsesSpan nTicks s (parse hRes nTicks s) ↔ ClearText s := by
  constructor
  · intro h
    exact h.clearText hfail
  · intro h
    exact ⟨fun w rest hw hin => taken_of_clearText h hw hin,
      fun hw => refused_of_clearText hfail h hw⟩

end

/-- Both versions read a time span exactly where what they read is clear. -/
theorem parsesSpan_both_iff (nTicks : Int) (szSrcA : List Byte) (szSrcW : List WChar)
    (nLength : Nat) :
    (ParsesSpan nTicks (codesA szSrcA nLength) (parseA nTicks szSrcA nLength) ↔
      ClearText (codesA szSrcA nLength)) ∧
    (ParsesSpan nTicks (codesW szSrcW nLength) (parseW nTicks szSrcW nLength) ↔
      ClearText (codesW szSrcW nLength)) :=
  ⟨parsesSpan_iff rfl, parsesSpan_iff rfl⟩

theorem not_begins_colons (w : Written) (rest : List Nat) :
    ¬ Begins [chColon, chColon] w rest := by
  intro h
  obtain ⟨-, r, hread, hmatch⟩ := h.reading
  obtain rfl : r = ⟨none, ⟨[], false, []⟩, ⟨[], false, []⟩, ⟨[], false, []⟩, none, []⟩ :=
    Option.some.inj (hread.symm.trans rfl)
  exact h.hh.1 (Number.mk.inj hmatch.hours).2.2.symm

/-- Two colons are a time span to both, although no number is there. -/
theorem not_parsesSpan_colons :
    ¬ ParsesSpan 7 (codesA [0x3A, 0x3A] 2) (parseA 7 [0x3A, 0x3A] 2) ∧
      ¬ ParsesSpan 7 (codesW [0x3A, 0x3A] 2) (parseW 7 [0x3A, 0x3A] 2) := by
  constructor
  · intro h
    obtain ⟨-, hticks⟩ := h.refused fun w rest hw => absurd hw (not_begins_colons w rest)
    exact absurd hticks (by decide)
  · intro h
    obtain ⟨-, hticks⟩ := h.refused fun w rest hw => absurd hw (not_begins_colons w rest)
    exact absurd hticks (by decide)

end MxLib.TimeSpan
