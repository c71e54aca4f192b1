import MxLib.DateTime.Add

/-!
# The ticks of a time span

`CTimeSpan` keeps a signed number of ticks.  `Add` sees by the signs whether the sum left the
64 bits, and `Sub` adds the negated operand; the smallest number of all is its own negation, so
it is added where it should be taken away.

`CalculateTicks` looks at the sign of its sum only, too.  The product with the days has wrapped
before that, and a sum that wrapped far enough has the right sign again
(`leavesExactResult_iff`).
-/

namespace MxLib.TimeSpan

open MxLib.DateTime

/-! ### The operations -/

/-- The numbers of a time of day are in range. -/
def IsTime (nHours nMinutes nSeconds nMilliSeconds : Int) : Prop :=
  (0 ≤ nHours ∧ nHours ≤ 23) ∧ (0 ≤ nMinutes ∧ nMinutes ≤ 59) ∧ (0 ≤ nSeconds ∧ nSeconds ≤ 59) ∧
    0 ≤ nMilliSeconds ∧ nMilliSeconds ≤ 999

instance (nHours nMinutes nSeconds nMilliSeconds : Int) :
    Decidable (IsTime nHours nMinutes nSeconds nMilliSeconds) :=
  inferInstanceAs (Decidable (_ ∧ _))

/-- The ticks of a time of day. -/
def timeOfDay (nHours nMinutes nSeconds nMilliSeconds : Int) : Int :=
  ((nHours * 3600 + nMinutes * 60 + nSeconds) * 1000 + nMilliSeconds) * ticksPerMillisecond

/-- The days are added to the ticks `t` of a time of day: the sum, and whether it overflowed. -/
def addDays (t nDays : Int) : Int × Bool :=
  let nTicksDays := wrapLongLong (ticksPerDay * nDays)
  let nSum := wrapLongLong (t + nTicksDays)
  if nDays > 0 then
    if t < 0 then (nSum, decide (t > nSum)) else (nSum, decide (nSum < 0))
  else if nDays < 0 then
    if t ≤ 0 then (nSum, decide (nSum > 0)) else (nSum, decide (nSum > t))
  else (t, false)

/-- `CalculateTicks`, with `bOverflow`. -/
def calculateTicks (nDays nHours nMinutes nSeconds nMilliSeconds : Int) : Int × Bool :=
  if ¬ IsTime nHours nMinutes nSeconds nMilliSeconds then (0, true)
  else
    let (t, bOverflow) := addDays (timeOfDay nHours nMinutes nSeconds nMilliSeconds) nDays
    (if bOverflow then 0 else t, bOverflow)

/-- A call that changes the ticks. -/
inductive Call
  | setFrom (nDays nHours nMinutes nSeconds nMilliSeconds : Int)
  | setFromTime (nHours nMinutes nSeconds : Int)
  | add (nValue : Int)
  | sub (nValue : Int)
  | negate

/-- `SetFrom` -/
def setFrom (nTicks nDays nHours nMinutes nSeconds nMilliSeconds : Int) : HResult × Int :=
  let (nValue, bOverflow) := calculateTicks nDays nHours nMinutes nSeconds nMilliSeconds
  if bOverflow then (.eInvalidArg, nTicks) else (.sOk, nValue)

/-- `Add` -/
def add (nTicks nValue : Int) : HResult × Int :=
  match addTicks nTicks nValue with
  | .error hRes => (hRes, nTicks)
  | .ok nSum => (.sOk, nSum)

/-- `Sub` -/
def sub (nTicks nValue : Int) : HResult × Int := add nTicks (wrapLongLong (-nValue))

/-- `Negate` -/
def negate (nTicks : Int) : HResult × Int :=
  if nTicks = -0x7FFFFFFFFFFFFFFF - 1 then (.mxArithmeticOverflow, nTicks)
  else (.sOk, wrapLongLong (-nTicks))

/-- The code of a call, and the ticks afterwards. -/
def Call.run (nTicks : Int) : Call → HResult × Int
  | setFrom nDays nHours nMinutes nSeconds nMilliSeconds =>
    TimeSpan.setFrom nTicks nDays nHours nMinutes nSeconds nMilliSeconds
  | setFromTime nHours nMinutes nSeconds => TimeSpan.setFrom nTicks 0 nHours nMinutes nSeconds 0
  | add nValue => TimeSpan.add nTicks nValue
  | sub nValue => TimeSpan.sub nTicks nValue
  | negate => TimeSpan.negate nTicks

/-! ### The numbers the calls stand for -/

/-- The arguments are `LONGLONG`s. -/
def Call.IsValid : Call → Prop
  | add nValue | sub nValue => IsLongLong nValue
  | _ => True

/-- The number without any bound, unless a field is out of range. -/
def Call.result (nTicks : Int) : Call → Option Int
  | setFrom nDays nHours nMinutes nSeconds nMilliSeconds =>
    if IsTime nHours nMinutes nSeconds nMilliSeconds then
      some (ticksPerDay * nDays + timeOfDay nHours nMinutes nSeconds nMilliSeconds)
    else none
  | setFromTime nHours nMinutes nSeconds =>
    if IsTime nHours nMinutes nSeconds 0 then some (timeOfDay nHours nMinutes nSeconds 0) else none
  | add nValue => some (nTicks + nValue)
  | sub nValue => some (nTicks - nValue)
  | negate => some (-nTicks)

/-- **The call leaves the exact result**, or it fails and changes nothing. -/
structure LeavesExactResult (nTicks : Int) (c : Call) : Prop where
  exact : ∀ n, c.result nTicks = some n → IsLongLong n → c.run nTicks = (.sOk, n)
  fails : (∀ n, c.result nTicks = some n → ¬ IsLongLong n) →
    (c.run nTicks).1.failed = true ∧ (c.run nTicks).2 = nTicks

/-- What the 64 bits make of the number has the wrong sign.  Behind days that are negative, that
is a number above the time of day. -/
def SignShows (nDays t : Int) : Prop :=
  if nDays > 0 then wrapLongLong (ticksPerDay * nDays + t) < 0
  else wrapLongLong (ticksPerDay * nDays + t) > t

instance (nDays t : Int) : Decidable (SignShows nDays t) :=
  inferInstanceAs (Decidable (if nDays > 0 then wrapLongLong (ticksPerDay * nDays + t) < 0
    else wrapLongLong (ticksPerDay * nDays + t) > t))

/-- A number that does not fit shows it by its sign. -/
def SeenByItsSign (nDays t : Int) : Prop := IsLongLong (ticksPerDay * nDays + t) ∨ SignShows nDays t

/-- What a call must keep to. -/
def Call.Plain : Call → Prop
  | setFrom nDays nHours nMinutes nSeconds nMilliSeconds =>
    IsTime nHours nMinutes nSeconds nMilliSeconds →
      SeenByItsSign nDays (timeOfDay nHours nMinutes nSeconds nMilliSeconds)
  | sub nValue => nValue ≠ -2 ^ 63
  | _ => True

/-! ### The signs -/

theorem timeOfDay_range {nHours nMinutes nSeconds nMilliSeconds : Int}
    (h : IsTime nHours nMinutes nSeconds nMilliSeconds) :
    0 ≤ timeOfDay nHours nMinutes nSeconds nMilliSeconds ∧
      timeOfDay nHours nMinutes nSeconds nMilliSeconds < ticksPerDay := by
  obtain ⟨⟨_, _⟩, ⟨_, _⟩, ⟨_, _⟩, _, _⟩ := h
  rw [timeOfDay, ticksPerMillisecond, ticksPerDay]
  omega

/-- A wrapped operand does not change the wrapped sum. -/
theorem wrapLongLong_add (t n : Int) :
    wrapLongLong (t + wrapLongLong n) = wrapLongLong (n + t) := by
  rw [wrapLongLong, wrapLongLong, Int.add_bmod_bmod, Int.add_comm, wrapLongLong]

/-- **The days of a time of day**: the sum, and what its sign tells. -/
theorem addDays_eq {t nDays : Int} (h0 : 0 ≤ t) (h : t < ticksPerDay) :
    addDays t nDays =
      (wrapLongLong (ticksPerDay * nDays + t), decide (SignShows nDays t)) := by
  rw [addDays, wrapLongLong_add]
  by_cases hpos : nDays > 0
  · simp only [SignShows, if_pos hpos, if_neg (Int.not_lt.mpr h0)]
  · by_cases hneg : nDays < 0
    · simp only [SignShows, if_neg hpos, if_pos hneg]
      by_cases hzero : t ≤ 0
      · obtain rfl : t = 0 := Int.le_antisymm hzero h0
        rw [if_pos (Int.le_refl 0)]
      · rw [if_neg hzero]
    · obtain rfl : nDays = 0 := by omega
      rw [ticksPerDay] at h
      have hsum : wrapLongLong ((ticksPerDay : Int) * 0 + t) = t := by
        rw [Int.mul_zero, Int.zero_add]
        exact wrapLongLong_of_isLongLong ⟨by omega, by omega⟩
      simp only [SignShows, hsum]
      simp

/-- A sum that fits has the right sign. -/
theorem not_signShows {t nDays : Int} (h0 : 0 ≤ t) (hfits : IsLongLong (ticksPerDay * nDays + t)) :
    ¬ SignShows nDays t := by
  rw [SignShows, wrapLongLong_of_isLongLong hfits, ticksPerDay]
  split <;> omega

/-- `SetFrom`, for numbers of a time of day that are in range. -/
theorem setFrom_of_isTime {nDays nHours nMinutes nSeconds nMilliSeconds : Int}
    (h : IsTime nHours nMinutes nSeconds nMilliSeconds) (nTicks : Int) :
    setFrom nTicks nDays nHours nMinutes nSeconds nMilliSeconds =
      if SignShows nDays (timeOfDay nHours nMinutes nSeconds nMilliSeconds) then
        (.eInvalidArg, nTicks)
      else (.sOk, wrapLongLong
        (ticksPerDay * nDays + timeOfDay nHours nMinutes nSeconds nMilliSeconds)) := by
  obtain ⟨h0, hlt⟩ := timeOfDay_range h
  rw [setFrom, calculateTicks, if_neg (not_not.mpr h)]
  simp only [addDays_eq h0 hlt, decide_eq_true_eq]
  split
  · rfl
  · rfl

theorem setFrom_of_not_isTime {nDays nHours nMinutes nSeconds nMilliSeconds : Int}
    (h : ¬ IsTime nHours nMinutes nSeconds nMilliSeconds) (nTicks : Int) :
    setFrom nTicks nDays nHours nMinutes nSeconds nMilliSeconds = (.eInvalidArg, nTicks) := by
  rw [setFrom, calculateTicks, if_pos h]
  rfl

/-- **`SetFrom`** stores the exact number where its sign shows whether it fits. -/
theorem leavesExactResult_setFrom_iff (nTicks nDays nHours nMinutes nSeconds nMilliSeconds : Int) :
    LeavesExactResult nTicks (.setFrom nDays nHours nMinutes nSeconds nMilliSeconds) ↔
      (Call.setFrom nDays nHours nMinutes nSeconds nMilliSeconds).Plain := by
  by_cases htime : IsTime nHours nMinutes nSeconds nMilliSeconds
  · have hresult : (Call.setFrom nDays nHours nMinutes nSeconds nMilliSeconds).result nTicks =
        some (ticksPerDay * nDays + timeOfDay nHours nMinutes nSeconds nMilliSeconds) := if_pos htime
    have hrun : (Call.setFrom nDays nHours nMinutes nSeconds nMilliSeconds).run nTicks = _ :=
      setFrom_of_isTime htime nTicks
    obtain ⟨h0, -⟩ := timeOfDay_range htime
    rw [Call.Plain, SeenByItsSign, forall_prop_of_true htime]
    generalize timeOfDay nHours nMinutes nSeconds nMilliSeconds = t at hresult hrun h0 ⊢
    by_cases hfits : IsLongLong (ticksPerDay * nDays + t)
    · refine iff_of_true ⟨fun n hn _ => ?_, fun hnot => ?_⟩ (.inl hfits)
      · obtain rfl := Option.some.inj (hresult.symm.trans hn)
        rw [hrun, if_neg (not_signShows h0 hfits), wrapLongLong_of_isLongLong hfits]
      · exact absurd hfits (hnot _ hresult)
    · rw [or_iff_right hfits]
      constructor
      · intro h
        have hfail := (h.fails fun n hn => by
          obtain rfl := Option.some.inj (hresult.symm.trans hn)
          exact hfits).1
        by_contra hsign
        rw [hrun, if_neg hsign] at hfail
        cases hfail
      · intro hsign
        refine ⟨fun n hn hlong => ?_, fun _ => ?_⟩
        · obtain rfl := Option.some.inj (hresult.symm.trans hn)
          exact absurd hlong hfits
        · rw [hrun, if_pos hsign]
          exact ⟨rfl, rfl⟩
  · refine iff_of_true ⟨fun n hn _ => ?_, fun _ => ?_⟩ fun h => absurd h htime
    · cases (if_neg htime).symm.trans hn
    · rw [Call.run, setFrom_of_not_isTime htime]
      exact ⟨rfl, rfl⟩

/-! ### Sums and differences -/

/-- **`Add`** is exact, and sees every sum that does not fit. -/
theorem add_eq {nTicks nValue : Int} (hticks : IsLongLong nTicks) (hvalue : IsLongLong nValue) :
    (IsLongLong (nTicks + nValue) → add nTicks nValue = (.sOk, nTicks + nValue)) ∧
      (¬ IsLongLong (nTicks + nValue) → add nTicks nValue = (.mxArithmeticOverflow, nTicks)) := by
  obtain ⟨hlo, hhi⟩ := hticks
  obtain ⟨hlo', hhi'⟩ := hvalue
  rw [add, addTicks]
  constructor
  · intro hsum
    rw [wrapLongLong_of_isLongLong hsum]
    by_cases hnonneg : nTicks ≥ 0
    · rw [if_pos hnonneg, if_neg (by omega)]
    · rw [if_neg hnonneg, if_neg (by omega)]
  · intro hsum
    rw [IsLongLong] at hsum
    by_cases hover : 2 ^ 63 ≤ nTicks + nValue
    · rw [wrapLongLong_of_ge hover (by omega), if_pos (by omega), if_pos (by omega)]
    · have hwrap : wrapLongLong (nTicks + nValue) = nTicks + nValue + 2 ^ 64 := by
        have hadd := Int.add_mul_bmod_self_right (nTicks + nValue) 1 (2 ^ 64)
        rw [Int.one_mul] at hadd
        rw [wrapLongLong, ← hadd]
        exact Int.bmod_eq_of_le (by omega) (by omega)
      rw [hwrap, if_neg (by omega), if_pos (by omega)]

theorem leavesExactResult_of {nTicks n : Int} {c : Call} (hresult : c.result nTicks = some n)
    (hfits : IsLongLong n → c.run nTicks = (.sOk, n))
    (hfails : ¬ IsLongLong n → c.run nTicks = (.mxArithmeticOverflow, nTicks)) :
    LeavesExactResult nTicks c := by
  refine ⟨fun m hm hlong => ?_, fun hnot => ?_⟩
  · obtain rfl := Option.some.inj (hresult.symm.trans hm)
    exact hfits hlong
  · rw [hfails (hnot n hresult)]
    exact ⟨rfl, rfl⟩

/-- **`Sub`** is exact for every operand but the smallest one. -/
theorem leavesExactResult_sub_iff {nTicks nValue : Int} (hticks : IsLongLong nTicks)
    (hvalue : IsLongLong nValue) :
    LeavesExactResult nTicks (.sub nValue) ↔ nValue ≠ -2 ^ 63 := by
  constructor
  · rintro h rfl
    have hneg : wrapLongLong (-(-2 ^ 63)) = -2 ^ 63 := by decide
    have hrun : (Call.sub (-2 ^ 63)).run nTicks = add nTicks (-2 ^ 63) := by
      rw [Call.run, sub, hneg]
    obtain ⟨hsum, hover⟩ := add_eq hticks hvalue
    obtain ⟨hlo, hhi⟩ := hticks
    by_cases hnonneg : 0 ≤ nTicks
    · -- it is added, and the difference does not fit
      have hfail := (h.fails fun n hn hlong => by
        obtain rfl := Option.some.inj hn
        rw [IsLongLong] at hlong
        omega).1
      rw [hrun, hsum ⟨by omega, by omega⟩] at hfail
      cases hfail
    · -- it is added, and the sum does not fit
      have hexact := h.exact _ rfl ⟨by omega, by omega⟩
      rw [hrun, hover (by rw [IsLongLong]; omega)] at hexact
      cases hexact
  · intro hne
    obtain ⟨hlo, hhi⟩ := hvalue
    have hneg : IsLongLong (-nValue) := ⟨by omega, by omega⟩
    have hrun : (Call.sub nValue).run nTicks = add nTicks (-nValue) := by
      rw [Call.run, sub, wrapLongLong_of_isLongLong hneg]
    obtain ⟨hsum, hover⟩ := add_eq hticks hneg
    rw [← Int.sub_eq_add_neg] at hsum hover
    exact leavesExactResult_of rfl (fun hfits => hrun.trans (hsum hfits))
      fun hfits => hrun.trans (hover hfits)

theorem leavesExactResult_negate {nTicks : Int} (hticks : IsLongLong nTicks) :
    LeavesExactResult nTicks .negate := by
  obtain ⟨hlo, hhi⟩ := hticks
  refine leavesExactResult_of rfl (fun hfits => ?_) fun hfits => ?_
  · obtain ⟨hlo', hhi'⟩ := hfits
    rw [Call.run, negate, if_neg (by omega), wrapLongLong_of_isLongLong ⟨hlo', hhi'⟩]
  · rw [IsLongLong] at hfits
    rw [Call.run, negate, if_pos (by omega)]

/-- **The calls leave the exact result**, but for a number of days whose ticks wrap to the right
sign, and for the smallest number, which is taken away wrongly. -/
theorem leavesExactResult_iff {nTicks : Int} (hticks : IsLongLong nTicks) {c : Call}
    (hvalid : c.IsValid) : LeavesExactResult nTicks c ↔ c.Plain := by
  cases c with
  | setFrom nDays nHours nMinutes nSeconds nMilliSeconds =>
    exact leavesExactResult_setFrom_iff nTicks nDays nHours nMinutes nSeconds nMilliSeconds
  | setFromTime nHours nMinutes nSeconds =>
    refine iff_of_true ?_ trivial
    have hplain : (Call.setFrom 0 nHours nMinutes nSeconds 0).Plain := by
      intro htime
      obtain ⟨h0, hlt⟩ := timeOfDay_range htime
      rw [ticksPerDay] at hlt
      exact .inl ⟨by omega, by omega⟩
    have h := (leavesExactResult_setFrom_iff nTicks 0 nHours nMinutes nSeconds 0).mpr hplain
    have hresult : (Call.setFrom 0 nHours nMinutes nSeconds 0).result nTicks =
        (Call.setFromTime nHours nMinutes nSeconds).result nTicks := by
      simp only [Call.result, Int.mul_zero, Int.zero_add]
    exact ⟨fun n hn => h.exact n (hresult.trans hn), fun hnot => h.fails fun n hn =>
      hnot n (hresult.symm.trans hn)⟩
  | add nValue =>
    obtain ⟨hsum, hover⟩ := add_eq hticks hvalid
    exact iff_of_true (leavesExactResult_of rfl hsum hover) trivial
  | sub nValue => exact leavesExactResult_sub_iff hticks hvalid
  | negate => exact iff_of_true (leavesExactResult_negate hticks) trivial

/-- One tick is taken away from none. -/
theorem leavesExactResult_sub_one : LeavesExactResult 0 (.sub 1) :=
  (leavesExactResult_iff (c := .sub 1) ⟨by decide, by decide⟩
    (show IsLongLong 1 from ⟨by decide, by decide⟩)).mpr (show (1 : Int) ≠ -2 ^ 63 by decide)

/-- So many days are 4 hours and some minutes, and the smallest number is added to none. -/
theorem not_leavesExactResult :
    ¬ LeavesExactResult 0 (.setFrom 21350399 0 0 0 0) ∧ ¬ LeavesExactResult 0 (.sub (-2 ^ 63)) := by
  refine ⟨fun h => ?_, fun h => ?_⟩
  · have hrun : ((Call.setFrom 21350399 0 0 0 0).run 0).1 = .sOk := by decide
    have hfail := (h.fails fun n hn hlong => by
      obtain rfl := Option.some.inj hn
      exact absurd hlong.2 (by decide)).1
    rw [hrun] at hfail
    cases hfail
  · have hrun : ((Call.sub (-2 ^ 63)).run 0).1 = .sOk := by decide
    have hfail := (h.fails fun n hn hlong => by
      obtain rfl := Option.some.inj hn
      exact absurd hlong.2 (by decide)).1
    rw [hrun] at hfail
    cases hfail

end MxLib.TimeSpan
