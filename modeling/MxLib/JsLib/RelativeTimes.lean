import MxLib.JsLib.JsonWebToken

/-!
# Relative times

A text with a sign is meant to count backwards.  `GetOptionalTimestamp` negates the number and
calls `Sub` with it, which negates it again: the date moves forwards, sign or not
(`string_eq_forward`).

So `movesRight_iff` asks for a number that is zero where there is a sign, if the date exists; whole
years lose the fraction of a second besides.  A date that does not exist is refused unless the date
that is reached forwards exists, which for weeks, days and hours may be one that wrapped around.
-/

namespace MxLib.JsLib.JsonWebToken

open MxLib.Library MxLib.DateTime

/-! ### What is asked for -/

/-- A text that is a relative time: a sign, digits, spaces and a unit. -/
structure RelativeTime where
  bNegative : Bool
  digits : List Byte
  nBlanks : Nat
  unit : List Byte
  nUnits : TimeUnit
  ne_nil : digits ≠ []
  isDigit : ∀ ch ∈ digits, Decimal.isDigit ch.toNat = true
  lt : numberOf digits < 2 ^ 31
  isSpelling : nUnits.IsSpelling unit

namespace RelativeTime

variable (r : RelativeTime)

def text : List Byte :=
  (if r.bNegative then [0x2D] else []) ++
    (r.digits ++ (List.replicate r.nBlanks 0x20 ++ r.unit))

/-- The number, without its sign. -/
def n : Nat := numberOf r.digits

/-- The units to move by. -/
def nCount : Int := if r.bNegative then -(r.n : Int) else r.n

end RelativeTime

/-- The ticks of a unit that is not a year. -/
def TimeUnit.nTicks : TimeUnit → Nat
  | .years => 0
  | .weeks => 7 * ticksPerDay
  | .days => ticksPerDay
  | .hours => ticksPerHour
  | .minutes => ticksPerMinute
  | .seconds => ticksPerSecond
  | .milliseconds => ticksPerMillisecond

/-- There is a date so many units away. -/
def InRange (nTicks : Nat) (nCount : Int) (u : TimeUnit) : Prop :=
  if u = .years then
    1 ≤ (getDateTime nTicks).nYear + nCount ∧ (getDateTime nTicks).nYear + nCount ≤ 9999
  else 0 ≤ nTicks + nCount * u.nTicks ∧ nTicks + nCount * u.nTicks ≤ xMaxValueTicks

theorem inRange_years {nTicks : Nat} {nCount : Int} : InRange nTicks nCount .years ↔
    1 ≤ (getDateTime nTicks).nYear + nCount ∧ (getDateTime nTicks).nYear + nCount ≤ 9999 := Iff.rfl

instance (nTicks : Nat) (nCount : Int) (u : TimeUnit) : Decidable (InRange nTicks nCount u) :=
  inferInstanceAs (Decidable (ite _ _ _))

/-- This is the date so many units away.  Years keep the month and the time of day, and the day,
which is the last one of the month at most. -/
def IsMoved (nTicks : Nat) (nCount : Int) (u : TimeUnit) (nNewTicks : Nat) : Prop :=
  if u = .years then
    HasDate nNewTicks ((getDateTime nTicks).nYear + nCount) (getDateTime nTicks).nMonth
      (min ((getDateTime nTicks).nDay : Int)
        (getDaysInMonthOf (getDateTime nTicks).nMonth ((getDateTime nTicks).nYear + nCount))) ∧
    nNewTicks % ticksPerDay = nTicks % ticksPerDay
  else (nNewTicks : Int) = nTicks + nCount * u.nTicks

/-- The result is the date so many units away, or an error if there is none. -/
def Yields (nTicks : Nat) (nCount : Int) (u : TimeUnit) (result : Except HResult Nat) : Prop :=
  if InRange nTicks nCount u then
    ∃ nNewTicks, result = .ok nNewTicks ∧ IsMoved nTicks nCount u nNewTicks
  else ∃ hRes, result = .error hRes

/-- The base is moved by the relative time, and by a negative one it is not moved forwards. -/
structure MovesRight (r : RelativeTime) (nTicks : Nat) (result : Except HResult Nat) : Prop where
  yields : Yields nTicks r.nCount r.nUnits result
  not_later : r.bNegative = true → ∀ nNewTicks, result = .ok nNewTicks → nNewTicks ≤ nTicks

/-- The number of units forwards is a date to `Add`, which counts ticks modulo `2 ^ 64`. -/
def Lands (nTicks n : Nat) (u : TimeUnit) : Prop :=
  if u = .years then InRange nTicks n u
  else ∃ nOffset nUnits, u.count n = .ok (nOffset, nUnits) ∧
    0 ≤ nTicks + wrapLongLong (nOffset * nUnits.nTicks) ∧
    nTicks + wrapLongLong (nOffset * nUnits.nTicks) ≤ xMaxValueTicks

/-! ### The way forwards -/

/-- The base, so many units later. -/
def forward (nTicks n : Nat) (u : TimeUnit) : Except HResult Nat := do
  let (nOffset, nUnits) ← u.count n
  thrown (add nTicks nOffset nUnits)

@[simp] theorem thrown_sOk (nTicks : Nat) : thrown (.sOk, nTicks) = .ok nTicks := rfl

@[simp] theorem thrown_overflow (nTicks : Nat) :
    thrown (.mxArithmeticOverflow, nTicks) = .error .mxArithmeticOverflow := rfl

section Forward

variable {nTicks n : Nat} {u : TimeUnit}

/-- The test of the weeks keeps what it lets pass below `2 ^ 31`. -/
theorem count_spec (hn : n < 2 ^ 31) {nOffset : Nat} {nUnits : EUnits}
    (h : u.count n = .ok (nOffset, nUnits)) :
    nOffset < 2 ^ 31 ∧ (u ≠ .years → nUnits.isDuration = true) := by
  cases u with
  | weeks =>
    rw [TimeUnit.count, inWeeks] at h
    split at h
    · cases h
    · split at h
      · cases h
      · obtain ⟨rfl, rfl⟩ := Prod.mk.inj (Except.ok.inj h)
        exact ⟨by omega, fun _ => rfl⟩
  | years =>
    obtain ⟨rfl, rfl⟩ := Prod.mk.inj (Except.ok.inj h)
    exact ⟨hn, fun h => absurd rfl h⟩
  | _ =>
    obtain ⟨rfl, rfl⟩ := Prod.mk.inj (Except.ok.inj h)
    exact ⟨hn, fun _ => rfl⟩

/-- Ticks of the range are counted right. -/
theorem count_of_le (hu : u ≠ .years) (h : n * u.nTicks ≤ xMaxValueTicks) :
    ∃ nOffset nUnits, u.count n = .ok (nOffset, nUnits) ∧
      nOffset * nUnits.nTicks = n * u.nTicks := by
  cases u with
  | years => exact absurd rfl hu
  | weeks =>
    rw [TimeUnit.nTicks, ticksPerDay, xMaxValueTicks] at h
    have hdays : n * 7 % 2 ^ 32 = n * 7 := by omega
    refine ⟨n * 7, .day, ?_, ?_⟩
    · rw [TimeUnit.count, inWeeks, hdays, if_neg (by omega), if_neg (by omega)]
    · rw [EUnits.nTicks, TimeUnit.nTicks, Nat.mul_assoc]
  | _ => exact ⟨n, _, rfl, rfl⟩

theorem forward_of_count {nOffset : Nat} {nUnits : EUnits} (h : nTicks ≤ xMaxValueTicks)
    (hn : n < 2 ^ 31) (hu : u ≠ .years) (hcount : u.count n = .ok (nOffset, nUnits)) :
    forward nTicks n u =
      if 0 ≤ nTicks + wrapLongLong (nOffset * nUnits.nTicks) ∧
          nTicks + wrapLongLong (nOffset * nUnits.nTicks) ≤ xMaxValueTicks then
        .ok (nTicks + wrapLongLong (nOffset * nUnits.nTicks)).toNat
      else .error .mxArithmeticOverflow := by
  obtain ⟨hlt, hunits⟩ := count_spec hn hcount
  rw [forward, hcount]
  change thrown (add nTicks nOffset nUnits) = _
  rw [addCount_eq h hlt (hunits hu), apply_ite thrown, thrown_sOk, thrown_overflow]

/-- Years go through `SetDate`. -/
theorem forward_years (h : nTicks ≤ xMaxValueTicks) (hn : n < 2 ^ 31) :
    forward nTicks n .years =
      if InRange nTicks n .years then
        .ok (storeMonth nTicks ((getDateTime nTicks).nYear + n) (getDateTime nTicks).nMonth).2
      else .error .mxArithmeticOverflow := by
  have hadd : add nTicks n .year =
      storeYear nTicks (.year, n, (getDateTime nTicks).nMonth) := by
    change addToDate nTicks n .year = _
    rw [addToDate, if_neg (by simp)]
  change thrown (add nTicks n .year) = _
  rw [hadd, storeYear_eq h ⟨by omega, by omega⟩]
  by_cases hin : InRange nTicks n .years
  · obtain ⟨⟨-, hmonth⟩, -⟩ := date_bounds h
    obtain ⟨nNewTicks, hstore, -⟩ := storeMonth_spec h ⟨inRange_years.mp hin, hmonth⟩
    rw [if_pos hin, if_pos (inRange_years.mp hin), hstore, thrown_sOk]
  · rw [if_neg hin, if_neg (inRange_years.not.mp hin), thrown_overflow]

/-- **The base is refused exactly where it does not land.** -/
theorem forward_eq_ok_iff (h : nTicks ≤ xMaxValueTicks) (hn : n < 2 ^ 31) :
    (∃ nNewTicks, forward nTicks n u = .ok nNewTicks) ↔ Lands nTicks n u := by
  rw [Lands]
  by_cases hu : u = .years
  · subst hu
    rw [if_pos rfl, forward_years h hn]
    split
    · rename_i hin
      exact iff_of_true ⟨_, rfl⟩ hin
    · rename_i hout
      exact iff_of_false (fun ⟨_, hok⟩ => by cases hok) hout
  rw [if_neg hu]
  constructor
  · rintro ⟨nNewTicks, hok⟩
    obtain ⟨⟨nOffset, nUnits⟩, hcount, -⟩ := exists_of_bind_ok hok
    refine ⟨nOffset, nUnits, hcount, ?_⟩
    rw [forward_of_count h hn hu hcount] at hok
    by_contra hout
    rw [if_neg hout] at hok
    cases hok
  · rintro ⟨nOffset, nUnits, hcount, hin⟩
    exact ⟨_, by rw [forward_of_count h hn hu hcount, if_pos hin]⟩

/-- Where the ticks of the units are no more than those of a date, they are not wrapped. -/
theorem forward_of_le (h : nTicks ≤ xMaxValueTicks) (hn : n < 2 ^ 31) (hu : u ≠ .years)
    (hle : n * u.nTicks ≤ xMaxValueTicks) :
    forward nTicks n u =
      if nTicks + n * u.nTicks ≤ xMaxValueTicks then .ok (nTicks + n * u.nTicks)
      else .error .mxArithmeticOverflow := by
  obtain ⟨nOffset, nUnits, hcount, hmul⟩ := count_of_le hu hle
  have hwrap : wrapLongLong (nOffset * (nUnits.nTicks : Int)) = (n * u.nTicks : Nat) := by
    rw [← Nat.cast_mul, hmul]
    rw [xMaxValueTicks] at hle
    exact wrapLongLong_of_isLongLong ⟨by omega, by omega⟩
  rw [forward_of_count h hn hu hcount, hwrap]
  by_cases hin : nTicks + n * u.nTicks ≤ xMaxValueTicks
  · rw [if_pos hin, if_pos (by omega)]
    congr 1
  · rw [if_neg hin, if_neg (by omega)]

theorem TimeUnit.nTicks_pos (hu : u ≠ .years) : 0 < u.nTicks := by
  cases u with
  | years => exact absurd rfl hu
  | _ => decide

/-- **A date that exists is reached**, but years lose the fraction of the second. -/
theorem forward_of_inRange (h : nTicks ≤ xMaxValueTicks) (hn : n < 2 ^ 31)
    (hin : InRange nTicks n u) :
    ∃ nNewTicks ≤ xMaxValueTicks, forward nTicks n u = .ok nNewTicks ∧
      (IsMoved nTicks n u nNewTicks ↔ (u = .years → nTicks % ticksPerSecond = 0)) := by
  by_cases hu : u = .years
  · subst hu
    obtain ⟨⟨-, hmonth⟩, -⟩ := date_bounds h
    obtain ⟨nNewTicks, hstore, hhas, hmod⟩ := storeMonth_spec h ⟨inRange_years.mp hin, hmonth⟩
    have hle := storeMonth_le h ((getDateTime nTicks).nYear + n) (getDateTime nTicks).nMonth
    rw [hstore] at hle
    refine ⟨nNewTicks, hle, ?_, ?_⟩
    · rw [forward_years h hn, if_pos hin, hstore]
    · rw [IsMoved, if_pos rfl, and_iff_right hhas, imp_iff_right rfl]
      omega
  · rw [InRange, if_neg hu] at hin
    have hsum : nTicks + n * u.nTicks ≤ xMaxValueTicks := by
      rw [← Nat.cast_mul] at hin
      omega
    refine ⟨_, hsum, ?_, ?_⟩
    · rw [forward_of_le h hn hu (by omega), if_pos hsum]
    · rw [IsMoved, if_neg hu, Nat.cast_add, Nat.cast_mul]
      exact iff_of_true rfl fun h => absurd h hu

/-- Forwards is not backwards. -/
theorem not_isMoved_neg (h : nTicks ≤ xMaxValueTicks) (hn : n < 2 ^ 31) (hpos : 0 < n)
    (hin : InRange nTicks (-n) u) {nNewTicks : Nat} (hok : forward nTicks n u = .ok nNewTicks) :
    ¬ IsMoved nTicks (-n) u nNewTicks := by
  intro hmoved
  by_cases hu : u = .years
  · subst hu
    have hforward : InRange nTicks n .years := (forward_eq_ok_iff h hn).mp ⟨nNewTicks, hok⟩
    obtain ⟨⟨-, hmonth⟩, -⟩ := date_bounds h
    obtain ⟨t, hstore, hhas, -⟩ := storeMonth_spec h ⟨inRange_years.mp hforward, hmonth⟩
    rw [forward_years h hn, if_pos hforward, hstore] at hok
    obtain rfl : t = nNewTicks := Except.ok.inj hok
    have hyear := hhas.1
    have hyear' := hmoved.1.1
    omega
  · rw [InRange, if_neg hu, Int.neg_mul, ← Nat.cast_mul] at hin
    rw [IsMoved, if_neg hu, Int.neg_mul, ← Nat.cast_mul] at hmoved
    have hunit := Nat.mul_pos hpos (TimeUnit.nTicks_pos hu)
    rw [forward_of_le h hn hu (by omega)] at hok
    split at hok
    · have := Except.ok.inj hok
      omega
    · cases hok

/-- Not moved is not later. -/
theorem le_of_isMoved_zero (h : nTicks ≤ xMaxValueTicks) {nNewTicks : Nat}
    (hle : nNewTicks ≤ xMaxValueTicks) (hmoved : IsMoved nTicks 0 u nNewTicks) :
    nNewTicks ≤ nTicks := by
  rw [IsMoved] at hmoved
  by_cases hu : u = .years
  · rw [if_pos hu, Int.add_zero] at hmoved
    obtain ⟨hdate, htime⟩ := hmoved
    obtain ⟨hmonth, -⟩ := date_bounds h
    obtain ⟨-, ⟨-, -⟩, -, hday⟩ := (isDateValid_iff _ _ _).mp (getDateTime_date h).1
    rw [(getDaysInMonthOf_eq hmonth).1, Int.toNat_natCast, Int.toNat_natCast,
      Int.min_eq_left (by omega)] at hdate
    exact Nat.le_of_eq (ticks_unique h hle hdate htime)
  · rw [if_neg hu] at hmoved
    omega

end Forward

/-! ### The text -/

/-- **The sign is lost**: a date goes forwards by the number, with a sign or without one. -/
theorem string_eq_forward (r : RelativeTime) {lpBaseDt : Option Nat}
    {setFromNow : Except HResult Nat} {nTicks : Nat}
    (hbase : baseDate lpBaseDt setFromNow = .ok nTicks) :
    getOptionalTimestamp (.string r.text) lpBaseDt setFromNow = forward nTicks r.n r.nUnits := by
  obtain ⟨hdigit, hspace⟩ := first_of_isSpelling r.isSpelling
  have hread : readCount (r.digits ++ (List.replicate r.nBlanks 0x20 ++ r.unit)) =
      r.nUnits.count r.n :=
    (readCount_eq r.ne_nil r.isDigit r.lt r.nBlanks hdigit hspace).trans
      (readUnits_of_isSpelling r.isSpelling r.n)
  have hsign : (charAt r.text 0 == 0x2D) = r.bNegative := by
    cases hneg : r.bNegative with
    | true =>
      rw [RelativeTime.text, hneg]
      rfl
    | false =>
      obtain ⟨ch, digits, hcons⟩ := List.exists_cons_of_ne_nil r.ne_nil
      have hch := r.isDigit ch (hcons ▸ List.mem_cons_self)
      rw [RelativeTime.text, hneg, hcons]
      refine beq_eq_false_iff_ne.mpr fun hminus => ?_
      obtain rfl : ch = 0x2D := hminus
      cases hch
  have htext : (if r.bNegative = true then r.text.drop 1 else r.text) =
      r.digits ++ (List.replicate r.nBlanks 0x20 ++ r.unit) := by
    rw [RelativeTime.text]
    cases r.bNegative <;> rfl
  rw [getOptionalTimestamp]
  dsimp only
  rw [hsign, htext, hread, hbase, forward]
  cases hcount : r.nUnits.count r.n with
  | error hRes => rfl
  | ok c =>
    obtain ⟨nOffset, nUnits⟩ := c
    have hlt := (count_spec r.lt hcount).1
    change thrown (if r.bNegative = true then sub nTicks (-nOffset) nUnits
      else add nTicks nOffset nUnits) = thrown (add nTicks nOffset nUnits)
    rw [sub_neg nTicks (by omega), ite_self]

/-- **A relative time is right exactly where nothing is subtracted**, and no years are counted with
the fraction of a second left; or where the date asked for and the one that is reached are both out
of range. -/
theorem movesRight_iff (r : RelativeTime) {nTicks : Nat} (h : nTicks ≤ xMaxValueTicks)
    {lpBaseDt : Option Nat} {setFromNow : Except HResult Nat}
    (hbase : baseDate lpBaseDt setFromNow = .ok nTicks) :
    MovesRight r nTicks (getOptionalTimestamp (.string r.text) lpBaseDt setFromNow) ↔
      if InRange nTicks r.nCount r.nUnits then
        (r.bNegative = true → r.n = 0) ∧ (r.nUnits = .years → nTicks % ticksPerSecond = 0)
      else ¬ Lands nTicks r.n r.nUnits := by
  have hlt : r.n < 2 ^ 31 := r.lt
  rw [string_eq_forward r hbase]
  by_cases hin : InRange nTicks r.nCount r.nUnits
  · rw [if_pos hin]
    by_cases hzero : r.bNegative = true → r.n = 0
    · have hcount : r.nCount = r.n := by
        rw [RelativeTime.nCount]
        split
        · rw [hzero ‹_›]
          rfl
        · rfl
      rw [hcount] at hin
      obtain ⟨t, hle, hok, hmoved⟩ := forward_of_inRange h hlt hin
      rw [and_iff_right hzero, ← hmoved]
      constructor
      · intro hright
        have hyields := hright.yields
        rw [Yields, hcount, if_pos hin] at hyields
        obtain ⟨t', hok', hmoved'⟩ := hyields
        obtain rfl : t = t' := Except.ok.inj (hok.symm.trans hok')
        exact hmoved'
      · intro hmoved'
        refine ⟨?_, fun hneg t' hok' => ?_⟩
        · rw [Yields, hcount, if_pos hin]
          exact ⟨t, hok, hmoved'⟩
        · obtain rfl : t = t' := Except.ok.inj (hok.symm.trans hok')
          rw [hzero hneg] at hmoved'
          exact le_of_isMoved_zero h hle hmoved'
    · obtain ⟨hneg, hpos⟩ := Classical.not_imp.mp hzero
      have hcount : r.nCount = -(r.n : Int) := if_pos hneg
      refine iff_of_false (fun hright => ?_) fun hand => hzero hand.1
      have hyields := hright.yields
      rw [hcount] at hin
      rw [Yields, hcount, if_pos hin] at hyields
      obtain ⟨t, hok, hmoved⟩ := hyields
      exact not_isMoved_neg h hlt (Nat.pos_of_ne_zero hpos) hin hok hmoved
  · rw [if_neg hin, ← forward_eq_ok_iff h hlt]
    constructor
    · rintro ⟨hyields, -⟩ ⟨t, hok⟩
      rw [Yields, if_neg hin] at hyields
      obtain ⟨hRes, herror⟩ := hyields
      cases hok.symm.trans herror
    · intro hnot
      refine ⟨?_, fun _ t hok => absurd ⟨t, hok⟩ hnot⟩
      rw [Yields, if_neg hin]
      cases hforward : forward nTicks r.n r.nUnits with
      | error hRes => exact ⟨hRes, rfl⟩
      | ok t => exact absurd ⟨t, hforward⟩ hnot

theorem ascii_one_ne_nil : ascii "1" ≠ [] := by
  decide

/-- `1 Hour`, or `-1 Hour` -/
def anHour (bNegative : Bool) : RelativeTime where
  bNegative := bNegative
  digits := ascii "1"
  nBlanks := 1
  unit := ascii "Hour"
  nUnits := .hours
  ne_nil := ascii_one_ne_nil
  isDigit := List.all_eq_true.mp (by decide)
  lt := by decide
  isSpelling := by decide

/-- From the first of January of the year 2. -/
theorem movesRight_hour :
    MovesRight (anHour false) 315360000000000
      (getOptionalTimestamp (.string (anHour false).text) (some 315360000000000)
        (.error .eFail)) := by
  refine (movesRight_iff (anHour false) (by decide) rfl).mpr ?_
  rw [if_pos (by decide)]
  exact ⟨nofun, nofun⟩

/-- The hour before is the one after. -/
theorem not_movesRight_minus_hour :
    ¬ MovesRight (anHour true) 315360000000000
      (getOptionalTimestamp (.string (ascii "-1 Hour")) (some 315360000000000)
        (.error .eFail)) := by
  have hok : getOptionalTimestamp (.string (ascii "-1 Hour")) (some 315360000000000)
      (.error .eFail) = .ok 315396000000000 := by decide
  intro hright
  have hle := hright.not_later rfl _ hok
  revert hle
  decide

end MxLib.JsLib.JsonWebToken
