import MxLib.DateTime.Calendar

/-!
# Setting a date and a time of day

`SetDate` and `SetTime` take the ticks apart and put all of them together again, so what one
of them forgets is lost.  `SetTime` keeps the day and `SetDate` keeps the hours, the minutes
and the seconds: the fraction of the second is gone (`setter_right_iff`).

The arguments are those of the source, so they may be negative.  A negative one is refused
where zero is, or with the numbers that are too large.
-/

namespace MxLib.DateTime

/-- `IsDateValid`, for any numbers. -/
def isDate (nYear nMonth nDay : Int) : Bool :=
  0 ≤ nYear && 0 ≤ nMonth && 0 ≤ nDay && isDateValid nYear.toNat nMonth.toNat nDay.toNat

/-- `SetDate`: the code, and the ticks that are stored afterwards. -/
def setDateOf (nTicks : Nat) (nYear nMonth nDay : Int) : HResult × Nat :=
  if nYear < 0 ∨ nMonth < 0 ∨ nDay < 0 then (.eInvalidArg, nTicks)
  else
    match setDate nTicks nYear.toNat nMonth.toNat nDay.toNat with
    | .error hRes => (hRes, nTicks)
    | .ok cTempTicks => (.sOk, cTempTicks)

/-- `SetTime` -/
def setTimeOf (nTicks : Nat) (nHours nMinutes nSeconds nMilliSeconds : Int) : HResult × Nat :=
  if nHours < 0 ∨ nMinutes < 0 ∨ nSeconds < 0 ∨ nMilliSeconds < 0 then (.eInvalidArg, nTicks)
  else
    match setTime nTicks nHours.toNat nMinutes.toNat nSeconds.toNat nMilliSeconds.toNat with
    | .error hRes => (hRes, nTicks)
    | .ok nValue => (.sOk, nValue)

/-- `SetDateTime`: the ticks from before the call are put back where a part of it fails. -/
def setDateTimeOf (cOldTicks : Nat)
    (nYear nMonth nDay nHours nMinutes nSeconds nMilliSeconds : Int) : HResult × Nat :=
  let (hRes, nTicks) := setDateOf cOldTicks nYear nMonth nDay
  let (hRes, nTicks) :=
    if hRes.succeeded then setTimeOf nTicks nHours nMinutes nSeconds nMilliSeconds
    else (hRes, nTicks)
  if hRes.failed then (hRes, cOldTicks) else (hRes, nTicks)

/-- A call of one of the three. -/
inductive Setter
  | setDate (nYear nMonth nDay : Int)
  | setTime (nHours nMinutes nSeconds nMilliSeconds : Int)
  | setDateTime (nYear nMonth nDay nHours nMinutes nSeconds nMilliSeconds : Int)

def Setter.call (nTicks : Nat) : Setter → HResult × Nat
  | .setDate nYear nMonth nDay => setDateOf nTicks nYear nMonth nDay
  | .setTime nHours nMinutes nSeconds nMilliSeconds =>
    setTimeOf nTicks nHours nMinutes nSeconds nMilliSeconds
  | .setDateTime nYear nMonth nDay nHours nMinutes nSeconds nMilliSeconds =>
    setDateTimeOf nTicks nYear nMonth nDay nHours nMinutes nSeconds nMilliSeconds

/-! ### What is asked for -/

/-- The date of the ticks is this one. -/
def HasDate (nTicks : Nat) (nYear nMonth nDay : Int) : Prop :=
  ((getDateTime nTicks).nYear : Int) = nYear ∧ ((getDateTime nTicks).nMonth : Int) = nMonth ∧
    ((getDateTime nTicks).nDay : Int) = nDay

/-- The time of day of the ticks is this one, and nothing is left of it. -/
def HasTime (nTicks : Nat) (nHours nMinutes nSeconds nMilliSeconds : Int) : Prop :=
  ((nTicks % ticksPerDay : Nat) : Int) =
    ((nHours * 3600 + nMinutes * 60 + nSeconds) * 1000 + nMilliSeconds) * ticksPerMillisecond

/-- The ticks are those from before with the date, the time of day or both of them changed. -/
def Setter.Sets (nTicks nNewTicks : Nat) : Setter → Prop
  | .setDate nYear nMonth nDay =>
    HasDate nNewTicks nYear nMonth nDay ∧ nNewTicks % ticksPerDay = nTicks % ticksPerDay
  | .setTime nHours nMinutes nSeconds nMilliSeconds =>
    getDays nNewTicks = getDays nTicks ∧
      HasDate nNewTicks (getDateTime nTicks).nYear (getDateTime nTicks).nMonth
        (getDateTime nTicks).nDay ∧
      HasTime nNewTicks nHours nMinutes nSeconds nMilliSeconds
  | .setDateTime nYear nMonth nDay nHours nMinutes nSeconds nMilliSeconds =>
    HasDate nNewTicks nYear nMonth nDay ∧ HasTime nNewTicks nHours nMinutes nSeconds nMilliSeconds

/-- The call does what it is for, changes nothing where it fails, and stays in the range. -/
structure Setter.Right (nTicks : Nat) (setter : Setter) : Prop where
  sets : (setter.call nTicks).1.succeeded = true → setter.Sets nTicks (setter.call nTicks).2
  keeps : (setter.call nTicks).1.failed = true → (setter.call nTicks).2 = nTicks
  range : (setter.call nTicks).2 ≤ xMaxValueTicks

/-! ### Days and times of day -/

section Parts

variable {nTicks nDays : Nat}

/-- Ticks of the range are those of a day and a time of day. -/
theorem getDays_lt (h : nTicks ≤ xMaxValueTicks) : getDays nTicks < 3652059 := by
  rw [xMaxValueTicks] at h
  rw [getDays, ticksPerDay]
  omega

/-- The time of day is its hours, minutes and seconds, and the fraction of a second. -/
theorem mod_ticksPerDay (nTicks : Nat) : nTicks % ticksPerDay =
    timeTicks (getHours nTicks) (getMinutes nTicks) (getSeconds nTicks) 0 +
      nTicks % ticksPerSecond := by
  rw [timeTicks, getHours, getMinutes, getSeconds, ticksPerDay, ticksPerHour, ticksPerMinute,
    ticksPerSecond]
  omega

variable {nYear nMonth nDay nTime : Nat}

/-- The date of the ticks that are put together from a date and a time of day. -/
theorem hasDate_of_eq (hdate : isDateValid nYear nMonth nDay = true) (htime : nTime < ticksPerDay)
    (h : nTicks = ticksPerDay * absoluteDay nYear nMonth nDay + nTime) :
    nTicks ≤ xMaxValueTicks ∧ HasDate nTicks nYear nMonth nDay ∧ nTicks % ticksPerDay = nTime := by
  have hday := absoluteDay_lt hdate
  have hdays : getDays nTicks = absoluteDay nYear nMonth nDay := by
    rw [getDays, h, Nat.mul_add_div (by decide), Nat.div_eq_of_lt htime, Nat.add_zero]
  have hmod : nTicks % ticksPerDay = nTime := by
    rw [h, Nat.mul_add_mod, Nat.mod_eq_of_lt htime]
  have hle : nTicks ≤ xMaxValueTicks := by
    rw [ticksPerDay] at htime
    rw [h, ticksPerDay, xMaxValueTicks]
    omega
  obtain ⟨hvalid, habs, -⟩ := getDateTime_date hle
  obtain ⟨hy, hm, hd⟩ := date_unique hvalid hdate (habs.trans hdays)
  exact ⟨hle, ⟨congrArg _ hy, congrArg _ hm, congrArg _ hd⟩, hmod⟩

/-- The day decides the date. -/
theorem hasDate_of_getDays {nTicks' : Nat} (h : nTicks ≤ xMaxValueTicks)
    (h' : nTicks' ≤ xMaxValueTicks) (hdays : getDays nTicks' = getDays nTicks) :
    HasDate nTicks' (getDateTime nTicks).nYear (getDateTime nTicks).nMonth
      (getDateTime nTicks).nDay := by
  obtain ⟨hvalid, habs, -⟩ := getDateTime_date h
  obtain ⟨hvalid', habs', -⟩ := getDateTime_date h'
  obtain ⟨hy, hm, hd⟩ := date_unique hvalid' hvalid (by rw [habs, habs', hdays])
  exact ⟨congrArg _ hy, congrArg _ hm, congrArg _ hd⟩

end Parts

/-! ### What the calls do -/

section Calls

variable {nTicks : Nat}

/-- The ticks after `SetDate`, of a date of the calendar. -/
def dateTicks (nTicks : Nat) (nYear nMonth nDay : Nat) : Nat :=
  ticksPerDay * absoluteDay nYear nMonth nDay +
    timeTicks (getHours nTicks) (getMinutes nTicks) (getSeconds nTicks) 0

theorem setDate_eq (nTicks : Nat) (nYear nMonth nDay : Nat) :
    setDate nTicks nYear nMonth nDay =
      if isDateValid nYear nMonth nDay = true then .ok (dateTicks nTicks nYear nMonth nDay)
      else .error .eInvalidArg := by
  by_cases hdate : isDateValid nYear nMonth nDay = true
  · obtain ⟨hh, hm, hs, -⟩ := time_le nTicks
    rw [setDate, getAbsoluteDay_eq hdate, if_neg (by omega), if_pos hdate, Int.toNat_natCast]
    exact setFrom_eq (absoluteDay_lt hdate) hh hm hs (by omega)
  · have habs : getAbsoluteDay nYear nMonth nDay = -1 := by
      rw [getAbsoluteDay, if_pos (by simpa using hdate)]
    rw [setDate, habs, if_neg hdate]
    rfl

/-- **What `SetDate` does**, for any arguments. -/
theorem setDateOf_eq (nTicks : Nat) (nYear nMonth nDay : Int) :
    setDateOf nTicks nYear nMonth nDay =
      if isDate nYear nMonth nDay = true then
        (.sOk, dateTicks nTicks nYear.toNat nMonth.toNat nDay.toNat)
      else (.eInvalidArg, nTicks) := by
  rw [setDateOf]
  by_cases hneg : nYear < 0 ∨ nMonth < 0 ∨ nDay < 0
  · have hdate : ¬ isDate nYear nMonth nDay = true := by
      simp only [isDate, Bool.and_eq_true, decide_eq_true_eq]
      omega
    rw [if_pos hneg, if_neg hdate]
  · have hdate : isDate nYear nMonth nDay = isDateValid nYear.toNat nMonth.toNat nDay.toNat := by
      have hnonneg : (decide (0 ≤ nYear) && decide (0 ≤ nMonth) && decide (0 ≤ nDay)) = true := by
        simp only [Bool.and_eq_true, decide_eq_true_eq]
        omega
      rw [isDate, hnonneg, Bool.true_and]
    rw [if_neg hneg, setDate_eq, hdate]
    cases isDateValid nYear.toNat nMonth.toNat nDay.toNat <;> rfl

/-- The ticks of a valid date after `SetDate`. -/
theorem dateTicks_spec {nYear nMonth nDay : Int} (hdate : isDate nYear nMonth nDay = true)
    (nTicks : Nat) :
    dateTicks nTicks nYear.toNat nMonth.toNat nDay.toNat ≤ xMaxValueTicks ∧
      HasDate (dateTicks nTicks nYear.toNat nMonth.toNat nDay.toNat) nYear nMonth nDay ∧
      dateTicks nTicks nYear.toNat nMonth.toNat nDay.toNat % ticksPerDay + nTicks % ticksPerSecond =
        nTicks % ticksPerDay := by
  simp only [isDate, Bool.and_eq_true, decide_eq_true_eq] at hdate
  obtain ⟨⟨⟨hy, hm⟩, hd⟩, hvalid⟩ := hdate
  obtain ⟨hh, hmi, hs, -⟩ := time_le nTicks
  have htime := timeTicks_lt hh hmi hs (Nat.zero_le 999)
  obtain ⟨hle, hhas, hmod⟩ := hasDate_of_eq hvalid htime rfl
  rw [Int.toNat_of_nonneg hy, Int.toNat_of_nonneg hm, Int.toNat_of_nonneg hd] at hhas
  refine ⟨hle, hhas, ?_⟩
  rw [mod_ticksPerDay nTicks]
  exact congrArg (· + nTicks % ticksPerSecond) hmod

theorem setFrom_error {nDays nHours nMinutes nSeconds nMilliSeconds : Nat}
    (h : nHours > 23 ∨ nMinutes > 59 ∨ nSeconds > 59 ∨ nMilliSeconds > 999) :
    setFrom nDays nHours nMinutes nSeconds nMilliSeconds = .error .eInvalidArg := by
  have htest : (nHours > 23 || nMinutes > 59 || nSeconds > 59 || nMilliSeconds > 999) = true := by
    simp only [Bool.or_eq_true, decide_eq_true_eq]
    omega
  rw [setFrom, calculateTicks, if_pos htest]

/-- **What `SetTime` does**: the time that is asked for on the day from before, or nothing. -/
theorem setTimeOf_spec (h : nTicks ≤ xMaxValueTicks)
    (nHours nMinutes nSeconds nMilliSeconds : Int) :
    setTimeOf nTicks nHours nMinutes nSeconds nMilliSeconds = (.eInvalidArg, nTicks) ∨
      ∃ nValue, setTimeOf nTicks nHours nMinutes nSeconds nMilliSeconds = (.sOk, nValue) ∧
        nValue ≤ xMaxValueTicks ∧ getDays nValue = getDays nTicks ∧
        HasTime nValue nHours nMinutes nSeconds nMilliSeconds := by
  rw [setTimeOf]
  by_cases hneg : nHours < 0 ∨ nMinutes < 0 ∨ nSeconds < 0 ∨ nMilliSeconds < 0
  · exact Or.inl (if_pos hneg)
  rw [if_neg hneg]
  by_cases hover : nHours.toNat > 23 ∨ nMinutes.toNat > 59 ∨ nSeconds.toNat > 59 ∨
      nMilliSeconds.toNat > 999
  · rw [setTime, setFrom_error hover]
    exact Or.inl rfl
  · have hdays := getDays_lt h
    have htime : timeTicks nHours.toNat nMinutes.toNat nSeconds.toNat nMilliSeconds.toNat <
        ticksPerDay := timeTicks_lt (by omega) (by omega) (by omega) (by omega)
    rw [setTime, setFrom_eq hdays (by omega) (by omega) (by omega) (by omega)]
    refine Or.inr ⟨_, rfl, ?_, ?_, ?_⟩
    · rw [ticksPerDay] at htime ⊢
      rw [xMaxValueTicks]
      omega
    · rw [getDays, Nat.mul_add_div (by decide), Nat.div_eq_of_lt htime, Nat.add_zero]
    · rw [HasTime, Nat.mul_add_mod, Nat.mod_eq_of_lt htime, timeTicks, ticksPerMillisecond]
      omega

end Calls

/-! ### The setters -/

section Setters

variable {nTicks : Nat}

theorem right_setDate_iff (h : nTicks ≤ xMaxValueTicks) (nYear nMonth nDay : Int) :
    (Setter.setDate nYear nMonth nDay).Right nTicks ↔
      (isDate nYear nMonth nDay = true → nTicks % ticksPerSecond = 0) := by
  have hcall : (Setter.setDate nYear nMonth nDay).call nTicks = _ :=
    setDateOf_eq nTicks nYear nMonth nDay
  by_cases hdate : isDate nYear nMonth nDay = true
  · obtain ⟨hle, hhas, hmod⟩ := dateTicks_spec hdate nTicks
    rw [if_pos hdate] at hcall
    constructor
    · intro hright _
      have hsets := hright.sets (by rw [hcall]; rfl)
      rw [hcall] at hsets
      have hkept : dateTicks nTicks nYear.toNat nMonth.toNat nDay.toNat % ticksPerDay =
        nTicks % ticksPerDay := hsets.2
      omega
    · intro hzero
      refine ⟨fun _ => ?_, fun hfail => ?_, by rw [hcall]; exact hle⟩
      · rw [hcall]
        exact ⟨hhas, by have := hzero hdate; dsimp only; omega⟩
      · rw [hcall] at hfail
        cases hfail
  · rw [if_neg hdate] at hcall
    refine ⟨fun _ hd => absurd hd hdate, fun _ => ⟨fun hok => ?_, fun _ => ?_, ?_⟩⟩
    · rw [hcall] at hok
      cases hok
    · rw [hcall]
    · rw [hcall]
      exact h

theorem right_setTime (h : nTicks ≤ xMaxValueTicks)
    (nHours nMinutes nSeconds nMilliSeconds : Int) :
    (Setter.setTime nHours nMinutes nSeconds nMilliSeconds).Right nTicks := by
  rcases setTimeOf_spec h nHours nMinutes nSeconds nMilliSeconds with
    hcall | ⟨nValue, hcall, hle, hdays, htime⟩
  · refine ⟨fun hok => ?_, fun _ => ?_, ?_⟩
    · rw [Setter.call, hcall] at hok
      cases hok
    · rw [Setter.call, hcall]
    · rw [Setter.call, hcall]
      exact h
  · refine ⟨fun _ => ?_, fun hfail => ?_, ?_⟩
    · rw [Setter.call, hcall]
      exact ⟨hdays, hasDate_of_getDays h hle hdays, htime⟩
    · rw [Setter.call, hcall] at hfail
      cases hfail
    · rw [Setter.call, hcall]
      exact hle

theorem right_setDateTime (h : nTicks ≤ xMaxValueTicks)
    (nYear nMonth nDay nHours nMinutes nSeconds nMilliSeconds : Int) :
    (Setter.setDateTime nYear nMonth nDay nHours nMinutes nSeconds nMilliSeconds).Right nTicks := by
  have hfailed : ∀ hRes : HResult, hRes.failed = true →
      (Setter.setDateTime nYear nMonth nDay nHours nMinutes nSeconds nMilliSeconds).call nTicks =
        (hRes, nTicks) →
      (Setter.setDateTime nYear nMonth nDay nHours nMinutes nSeconds nMilliSeconds).Right
        nTicks := by
    intro hRes hfail hcall
    refine ⟨fun hok => ?_, fun _ => by rw [hcall], by rw [hcall]; exact h⟩
    rw [hcall] at hok
    rw [HResult.failed, hok] at hfail
    cases hfail
  by_cases hdate : isDate nYear nMonth nDay = true
  · obtain ⟨hle, hhas, -⟩ := dateTicks_spec hdate nTicks
    rcases setTimeOf_spec hle nHours nMinutes nSeconds nMilliSeconds with
      htime | ⟨nValue, htime, hle', hdays, hhas'⟩
    · refine hfailed .eInvalidArg rfl ?_
      rw [Setter.call, setDateTimeOf, setDateOf_eq, if_pos hdate]
      dsimp only
      rw [htime]
      rfl
    · have hcall : (Setter.setDateTime nYear nMonth nDay nHours nMinutes nSeconds
          nMilliSeconds).call nTicks = (.sOk, nValue) := by
        rw [Setter.call, setDateTimeOf, setDateOf_eq, if_pos hdate]
        dsimp only
        rw [htime]
        rfl
      refine ⟨fun _ => ?_, fun hfail => ?_, by rw [hcall]; exact hle'⟩
      · rw [hcall]
        obtain ⟨hy, hm, hd⟩ := hasDate_of_getDays hle hle' hdays
        exact ⟨⟨hy.trans hhas.1, hm.trans hhas.2.1, hd.trans hhas.2.2⟩, hhas'⟩
      · rw [hcall] at hfail
        cases hfail
  · refine hfailed .eInvalidArg rfl ?_
    rw [Setter.call, setDateTimeOf, setDateOf_eq, if_neg hdate]
    rfl

/-- The call sets a date of the calendar. -/
def Setter.setsDate : Setter → Bool
  | .setDate nYear nMonth nDay => isDate nYear nMonth nDay
  | _ => false

/-- **The setters are independent exactly where no fraction of a second is lost**: only a
`SetDate` of a date of the calendar loses it. -/
theorem setter_right_iff (h : nTicks ≤ xMaxValueTicks) (setter : Setter) :
    setter.Right nTicks ↔ (setter.setsDate = true → nTicks % ticksPerSecond = 0) := by
  cases setter with
  | setDate nYear nMonth nDay => exact right_setDate_iff h nYear nMonth nDay
  | setTime nHours nMinutes nSeconds nMilliSeconds =>
    exact ⟨fun _ hsets => absurd hsets Bool.false_ne_true,
      fun _ => right_setTime h nHours nMinutes nSeconds nMilliSeconds⟩
  | setDateTime nYear nMonth nDay nHours nMinutes nSeconds nMilliSeconds =>
    exact ⟨fun _ hsets => absurd hsets Bool.false_ne_true,
      fun _ => right_setDateTime h nYear nMonth nDay nHours nMinutes nSeconds nMilliSeconds⟩

/-- A second after the beginning of year 1, moved to year 2. -/
theorem right_setDate_second : (Setter.setDate 2 1 1).Right 10000000 :=
  (setter_right_iff (by decide) (.setDate 2 1 1)).mpr fun _ => by decide

/-- Half a second is lost. -/
theorem not_right_setDate : ¬ (Setter.setDate 2 1 1).Right 5000000 := by
  intro h
  have hsets := h.sets (by decide)
  have hkept := hsets.2
  revert hkept
  decide

end Setters

end MxLib.DateTime
