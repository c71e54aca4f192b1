import MxLib.DateTime.TimeSpanText

/-!
# Time spans that are written and read again

`CTimeSpan::Format` writes the milliseconds behind the dot, as a number without leading zeros,
and `CTimeSpan::Parse` reads a number of ticks there.  So a time span comes back, truncated to
milliseconds, only if it has none behind its seconds (`formatRoundTrip_iff`).
-/

namespace MxLib.TimeSpan

open MxLib.DateTime MxLib.Library

/-! ### `Format` -/

section

variable (nTicks : Int)

def getDays : Int := nTicks.tdiv ticksPerDay

def getHours : Int := (nTicks.tmod ticksPerDay).tdiv ticksPerHour

def getMinutes : Int := (nTicks.tmod ticksPerHour).tdiv ticksPerMinute

def getSeconds : Int := (nTicks.tmod ticksPerMinute).tdiv ticksPerSecond

end

/-- `%I64u`, of a number without its sign. -/
def appendNumber (cStrDestW : List WChar) (nTemp : Int) : List WChar :=
  cStrDestW ++ (Decimal.numeral nTemp.natAbs).map UInt16.ofNat

/-- `AppendFormat(cStrDestW)` -/
def appendFormat (cStrDestW : List WChar) (nTicks : Int) : List WChar :=
  let cStrDestW := if nTicks < 0 then cStrDestW ++ [0x2D] else cStrDestW
  let cStrDestW :=
    if getDays nTicks ≠ 0 then appendNumber cStrDestW (getDays nTicks) ++ [0x2E] else cStrDestW
  let cStrDestW := appendNumber cStrDestW (getHours nTicks) ++ [0x3A]
  let cStrDestW := appendNumber cStrDestW (getMinutes nTicks) ++ [0x3A]
  let cStrDestW := appendNumber cStrDestW (getSeconds nTicks)
  let nTemp := (nTicks.tmod ticksPerSecond).natAbs
  if nTemp ≠ 0 then appendNumber (cStrDestW ++ [0x2E]) (nTemp / 10000 : Nat) else cStrDestW

/-- `Format(cStrDestW)` -/
def format (nTicks : Int) : List WChar := appendFormat [] nTicks

/-- The ticks without what is less than a millisecond. -/
def toMilliseconds (nTicks : Int) : Int := nTicks.tdiv ticksPerMillisecond * ticksPerMillisecond

/-- **What is written is read again**, over the ticks `nPrevious`, from a buffer with anything
behind the text and its end. -/
def RoundTrips (nTicks nPrevious : Int) (behind : List WChar) (nLength : Nat) : Prop :=
  let r := parseW nPrevious (format nTicks ++ 0 :: behind) nLength
  r.1.succeeded = true ∧ r.2.1 = toMilliseconds nTicks

/-! ### What is written -/

/-- The numbers that are written. -/
def written (nTicks : Int) : Written where
  bSign := decide (nTicks < 0)
  dd := if getDays nTicks ≠ 0 then some (Decimal.numeral (getDays nTicks).natAbs) else none
  hh := Decimal.numeral (getHours nTicks).natAbs
  mm := Decimal.numeral (getMinutes nTicks).natAbs
  ss := Decimal.numeral (getSeconds nTicks).natAbs
  ff := if (nTicks.tmod ticksPerSecond).natAbs ≠ 0 then
    some (Decimal.numeral ((nTicks.tmod ticksPerSecond).natAbs / 10000)) else none

theorem isNumber_numeral (n : Nat) : IsNumber (Decimal.numeral n) :=
  ⟨Decimal.numeral_ne_nil n, Decimal.isDigit_numeral n⟩

theorem map_toNat_numeral (n : Nat) :
    ((Decimal.numeral n).map UInt16.ofNat).map UInt16.toNat = Decimal.numeral n := by
  rw [List.map_map]
  refine (List.map_congr_left fun c hc => ?_).trans (List.map_id _)
  have hdigit := Decimal.isDigit_iff.mp (Decimal.isDigit_numeral n c hc)
  exact UInt16.toNat_ofNat_of_lt (show c < 2 ^ 16 by omega)

theorem map_appendNumber (cStrDestW : List WChar) (nTemp : Int) :
    (appendNumber cStrDestW nTemp).map UInt16.toNat =
      cStrDestW.map UInt16.toNat ++ Decimal.numeral nTemp.natAbs := by
  rw [appendNumber, List.map_append, map_toNat_numeral]

/-- **`Format` writes these numbers.** -/
theorem map_format (nTicks : Int) : (format nTicks).map UInt16.toNat = (written nTicks).text := by
  rw [format, appendFormat, Written.text, written]
  dsimp only
  have hdays (cStrDestW : List WChar) : (if getDays nTicks ≠ 0 then
        appendNumber cStrDestW (getDays nTicks) ++ [0x2E] else cStrDestW).map UInt16.toNat =
      cStrDestW.map UInt16.toNat ++ ((if getDays nTicks ≠ 0 then
        some (Decimal.numeral (getDays nTicks).natAbs) else none).elim [] fun d => d ++ [chDot]) := by
    split
    · rw [List.map_append, map_appendNumber, List.append_assoc]
      rfl
    · exact (List.append_nil _).symm
  have hsign : (if nTicks < 0 then [] ++ [0x2D] else []).map UInt16.toNat =
      if decide (nTicks < 0) = true then [chMinus] else [] := by
    by_cases hneg : nTicks < 0
    · rw [if_pos hneg, if_pos (decide_eq_true hneg)]
      rfl
    · rw [if_neg hneg, if_neg (by rw [decide_eq_true_iff]; exact hneg)]
      rfl
  have hticks (cStrDestW : List WChar) (n : Nat) : (if n ≠ 0 then
        appendNumber (cStrDestW ++ [0x2E]) (n / 10000 : Nat) else cStrDestW).map UInt16.toNat =
      cStrDestW.map UInt16.toNat ++ ((if n ≠ 0 then
        some (Decimal.numeral (n / 10000)) else none).elim [] fun d => chDot :: d) := by
    split
    · rw [map_appendNumber, List.map_append, List.append_assoc]
      rfl
    · exact (List.append_nil _).symm
  rw [hticks]
  simp only [map_appendNumber, List.map_append, hdays, hsign]
  simp only [List.append_assoc]
  rfl

/-- What is behind the text. -/
theorem codesW_format (nTicks : Int) (behind : List WChar) {nLength : Nat}
    (h : (format nTicks).length ≤ nLength) :
    ∃ rest, codesW (format nTicks ++ 0 :: behind) nLength = (written nTicks).text ++ rest ∧
      (rest = [] ∨ ∃ r, rest = 0 :: r) := by
  refine ⟨((0 :: behind).take (nLength - (format nTicks).length)).map UInt16.toNat, ?_, ?_⟩
  · rw [codesW, List.take_append, List.take_of_length_le h, List.map_append, map_format]
  · cases nLength - (format nTicks).length with
    | zero => exact .inl rfl
    | succ n => exact .inr ⟨_, rfl⟩

/-! ### What is read again -/

section

variable {nTicks : Int}

/-- The numbers, without the sign of the ticks. -/
theorem natAbs_getters (nTicks : Int) :
    (getDays nTicks).natAbs = nTicks.natAbs / 864000000000 ∧
      (getHours nTicks).natAbs = nTicks.natAbs % 864000000000 / 36000000000 ∧
      (getMinutes nTicks).natAbs = nTicks.natAbs % 36000000000 / 600000000 ∧
      (getSeconds nTicks).natAbs = nTicks.natAbs % 600000000 / 10000000 ∧
      (nTicks.tmod ticksPerSecond).natAbs = nTicks.natAbs % 10000000 := by
  refine ⟨?_, ?_, ?_, ?_, ?_⟩
  · rw [getDays, Int.natAbs_tdiv]
    rfl
  · rw [getHours, Int.natAbs_tdiv, Int.natAbs_tmod]
    rfl
  · rw [getMinutes, Int.natAbs_tdiv, Int.natAbs_tmod]
    rfl
  · rw [getSeconds, Int.natAbs_tdiv, Int.natAbs_tmod]
    rfl
  · rw [Int.natAbs_tmod]
    rfl

/-- The ticks that the written numbers stand for. -/
def writtenTicks (n : Nat) : Nat := n / 10000000 * 10000000 + n % 10000000 / 10000

theorem optionValue_written_dd (nTicks : Int) :
    optionValue (written nTicks).dd = (nTicks.natAbs / 864000000000 : Nat) := by
  rw [written, (natAbs_getters nTicks).1]
  dsimp only
  split
  · rw [optionValue, Option.elim_some, Decimal.value_numeral]
  next hzero =>
    have h0 := (natAbs_getters nTicks).1
    rw [not_not.mp hzero] at h0
    rw [← h0]
    rfl

theorem optionValue_written_ff (nTicks : Int) :
    optionValue (written nTicks).ff = (nTicks.natAbs % 10000000 / 10000 : Nat) := by
  rw [written, (natAbs_getters nTicks).2.2.2.2]
  dsimp only
  split
  · rw [optionValue, Option.elim_some, Decimal.value_numeral]
  next hzero =>
    rw [not_not.mp hzero]
    rfl

theorem total_written (nTicks : Int) :
    (written nTicks).total = signed (decide (nTicks < 0)) (writtenTicks nTicks.natAbs) := by
  obtain ⟨-, hhours, hminutes, hseconds, -⟩ := natAbs_getters nTicks
  rw [Written.total, optionValue_written_dd, optionValue_written_ff]
  have hsum : ticks (nTicks.natAbs / 864000000000 : Nat) (Decimal.value 0 (written nTicks).hh)
      (Decimal.value 0 (written nTicks).mm) (Decimal.value 0 (written nTicks).ss)
      (nTicks.natAbs % 10000000 / 10000 : Nat) = writtenTicks nTicks.natAbs := by
    rw [written]
    dsimp only
    rw [Decimal.value_numeral, Decimal.value_numeral, Decimal.value_numeral, hhours, hminutes,
      hseconds, ticks, timeOfDay, writtenTicks, ticksPerDay, ticksPerMillisecond]
    omega
  rw [hsum, written]

/-- The text is read as the numbers that were written. -/
theorem begins_written {s rest : List Nat} (hs : s = (written nTicks).text ++ rest)
    (hrest : rest = [] ∨ ∃ r, rest = 0 :: r) : Begins s (written nTicks) rest := by
  have hends : startsWithDigit rest = false := by
    rcases hrest with rfl | ⟨r, rfl⟩ <;> rfl
  refine ⟨⟨[], fun c hc => (by cases hc), hs⟩, fun d hd => ?_, isNumber_numeral _,
    isNumber_numeral _, isNumber_numeral _, fun d hd => ?_, hends, fun _ hdot => ?_⟩
  · rw [written, Option.mem_def] at hd
    obtain ⟨-, hd⟩ := Option.ite_none_right_eq_some.mp hd
    rw [← Option.some.inj hd]
    exact isNumber_numeral _
  · rw [written, Option.mem_def] at hd
    obtain ⟨-, hd⟩ := Option.ite_none_right_eq_some.mp hd
    rw [← Option.some.inj hd]
    exact isNumber_numeral _
  · rcases hrest with rfl | ⟨r, rfl⟩
    · cases hdot
    · exact absurd (Option.some.inj hdot) (by decide)

theorem inRange_written (h : -2 ^ 63 < nTicks) (h' : nTicks < 2 ^ 63) :
    (written nTicks).InRange := by
  obtain ⟨-, hhours, hminutes, hseconds, -⟩ := natAbs_getters nTicks
  refine ⟨?_, ?_, ?_, ?_, ?_⟩
  · rw [written, Decimal.value_numeral, hhours]
    omega
  · rw [written, Decimal.value_numeral, hminutes]
    omega
  · rw [written, Decimal.value_numeral, hseconds]
    omega
  · rw [optionValue_written_ff]
    omega
  · rw [total_written, writtenTicks, IsLongLong, signed]
    split <;> omega

/-- **`Parse` reads the ticks that the written numbers stand for.** -/
theorem parseW_format (h : -2 ^ 63 < nTicks) (h' : nTicks < 2 ^ 63) (nPrevious : Int)
    (behind : List WChar) {nLength : Nat} (hlen : (format nTicks).length ≤ nLength) :
    ∃ rest, parseW nPrevious (format nTicks ++ 0 :: behind) nLength =
      (.sOk, signed (decide (nTicks < 0)) (writtenTicks nTicks.natAbs), rest) := by
  obtain ⟨rest, hcodes, hrest⟩ := codesW_format nTicks behind hlen
  have hw := begins_written hcodes hrest
  obtain ⟨-, r, hread, hmatch⟩ := hw.reading
  have hne : (written nTicks).total ≠ -2 ^ 63 := by
    rw [total_written, writtenTicks, signed]
    split <;> omega
  refine ⟨rest, ?_⟩
  rw [parseW, ← total_written]
  apply parse_of_begins hread hmatch hw (inRange_written h h') hne
  rcases hmatch.fraction with hfraction | ⟨-, hdot, -⟩
  · exact hfraction
  · rcases hrest with rfl | ⟨r, rfl⟩
    · cases hdot
    · exact absurd (Option.some.inj hdot) (by decide)

theorem toMilliseconds_eq (nTicks : Int) :
    toMilliseconds nTicks =
      signed (decide (nTicks < 0)) (nTicks.natAbs / 10000 * 10000 : Nat) := by
  rw [toMilliseconds, ticksPerMillisecond, signed]
  by_cases hneg : nTicks < 0
  · rw [if_pos (decide_eq_true hneg), ← Int.neg_neg nTicks, Int.neg_tdiv,
      Int.tdiv_eq_ediv_of_nonneg (by omega)]
    omega
  · rw [if_neg (by rw [decide_eq_true_iff]; exact hneg), Int.tdiv_eq_ediv_of_nonneg (by omega)]
    omega

/-- The ticks that are written are those without what is less than a millisecond only if there
are no milliseconds behind the seconds. -/
theorem writtenTicks_eq_iff (nTicks : Int) :
    signed (decide (nTicks < 0)) (writtenTicks nTicks.natAbs) = toMilliseconds nTicks ↔
      nTicks.natAbs % 10000000 < 10000 := by
  rw [toMilliseconds_eq, signed, signed, writtenTicks]
  split <;> omega

/-- **A time span comes back exactly if it has no milliseconds behind its seconds.** -/
theorem formatRoundTrip_iff (h : -2 ^ 63 < nTicks) (h' : nTicks < 2 ^ 63) (nPrevious : Int)
    (behind : List WChar) {nLength : Nat} (hlen : (format nTicks).length ≤ nLength) :
    RoundTrips nTicks nPrevious behind nLength ↔ nTicks.natAbs % 10000000 < 10000 := by
  obtain ⟨rest, hparse⟩ := parseW_format h h' nPrevious behind hlen
  rw [RoundTrips, hparse, ← writtenTicks_eq_iff]
  exact and_iff_right rfl

end

/-- A whole second comes back. -/
theorem formatRoundTrip_second : RoundTrips 10000000 0 [] 5 :=
  (formatRoundTrip_iff (by decide) (by decide) 0 [] (by decide)).mpr (by decide)

/-- Half a second comes back as 500 ticks. -/
theorem not_formatRoundTrip : ¬ RoundTrips 5000000 0 [] 9 := by
  intro h
  exact absurd h.2 (by decide)

end MxLib.TimeSpan
