import MxLib.DateTime.Add

/-!
# Subtracting from a date

`Sub` is `Add` of the negated count.  A count of 31 bits is moved by its ticks modulo `2 ^ 64`
(`addCount_eq`): the milliseconds of so many days have more than 53 bits, but the last ten of
them are zero, so the `double` is exact.
-/

namespace MxLib.DateTime

/-- `Sub(nCount, nUnits)` -/
def sub (nTicks : Nat) (nCount : Int) (nUnits : EUnits) : HResult × Nat :=
  if nCount = -2 ^ 63 then (.mxArithmeticOverflow, nTicks) else add nTicks (-nCount) nUnits

/-- A negated count is added. -/
theorem sub_neg (nTicks : Nat) {nCount : Int} (h : nCount < 2 ^ 63) (nUnits : EUnits) :
    sub nTicks (-nCount) nUnits = add nTicks nCount nUnits := by
  rw [sub, if_neg (by omega), Int.neg_neg]

/-! ### Numbers that a `double` holds -/

/-- A number with nothing below its 53 bits is not rounded. -/
theorem toDouble_of_dvd {n : Nat} (h : 2 ^ (n.log2 - 52) ∣ n) : toDouble n = n := by
  have hmod : n % 2 ^ (n.log2 - 52) = 0 := Nat.mod_eq_zero_of_dvd h
  have hpos : 0 < 2 ^ (n.log2 - 52) := Nat.two_pow_pos _
  rw [toDouble, hmod, if_pos (.inl (by omega)), Nat.div_mul_cancel h]

/-- 53 bits, with zeros behind them. -/
theorem toDouble_mul_pow {n : Nat} (h : n < 2 ^ 53) (k : Nat) :
    toDouble (n * 2 ^ k) = n * 2 ^ k := by
  refine toDouble_of_dvd ((Nat.pow_dvd_pow 2 ?_).trans (Nat.dvd_mul_left _ n))
  by_cases hzero : n * 2 ^ k = 0
  · rw [hzero, Nat.log2_zero]
    omega
  · have hlt : n * 2 ^ k < 2 ^ (53 + k) := by
      rw [Nat.pow_add]
      exact Nat.mul_lt_mul_of_pos_right h (Nat.two_pow_pos k)
    have hlog := (Nat.log2_lt hzero).mpr hlt
    omega

theorem toDoubleSigned_natCast (n : Nat) : toDoubleSigned n = toDouble n := by
  rw [toDoubleSigned, if_neg (by omega), Int.natAbs_natCast]

/-! ### Counts of 31 bits -/

/-- The ticks of the days that are added. -/
theorem setFromDoubleSigned_days {n : Nat} (h : n < 2 ^ 31) :
    setFromDoubleSigned (toDoubleSigned n) ticksPerDay =
      wrapLongLong (n * (ticksPerDay : Int)) := by
  have hratio : ticksPerDay / ticksPerMillisecond = 84375 * 2 ^ 10 := by decide
  have hms : toDouble (n * (84375 * 2 ^ 10)) = n * (84375 * 2 ^ 10) := by
    rw [← Nat.mul_assoc]
    exact toDouble_mul_pow (by omega) 10
  have hticks : (ticksPerDay : Int) = (84375 * 2 ^ 10 : Nat) * (ticksPerMillisecond : Int) := by
    decide
  rw [setFromDoubleSigned, toDoubleSigned_natCast, toDouble_of_lt (by omega), hratio,
    ← Nat.cast_mul, toDoubleSigned_natCast, hms, ofDoubleSigned, if_pos (by omega), hticks,
    ← Int.mul_assoc, Nat.cast_mul]

/-- **A count is put in as its ticks modulo `2 ^ 64`.** -/
theorem addCount_eq {nTicks : Nat} (h : nTicks ≤ xMaxValueTicks) {n : Nat} (hn : n < 2 ^ 31)
    {nUnits : EUnits} (hunits : nUnits.isDuration = true) :
    add nTicks n nUnits =
      if 0 ≤ nTicks + wrapLongLong (n * nUnits.nTicks) ∧
          nTicks + wrapLongLong (n * nUnits.nTicks) ≤ xMaxValueTicks then
        (.sOk, (nTicks + wrapLongLong (n * nUnits.nTicks)).toNat)
      else (.mxArithmeticOverflow, nTicks) := by
  have hspan := addTimeSpan_eq h (isLongLong_wrapLongLong (n * nUnits.nTicks))
  by_cases hday : nUnits = .day
  · subst hday
    rw [← hspan, EUnits.nTicks, ← setFromDoubleSigned_days hn]
    rfl
  · have hcount : Countable n nUnits := by
      rw [Countable]
      split
      · exact ⟨by omega, by omega⟩
      · have hms : nUnits.nTicks / ticksPerMillisecond ≤ 3600000 := by
          cases nUnits <;> first | decide | exact absurd rfl hday
        rw [← Nat.cast_mul, Int.natAbs_natCast]
        have := Nat.mul_le_mul (Nat.le_of_lt hn) hms
        omega
    rw [add_eq_addTimeSpan hunits hcount, hspan]

/-! ### Whole years -/

/-- The date that `SetDate` stores is one of the range. -/
theorem setDateOf_le {nTicks : Nat} (h : nTicks ≤ xMaxValueTicks) (nYear nMonth nDay : Int) :
    (setDateOf nTicks nYear nMonth nDay).2 ≤ xMaxValueTicks := by
  rw [setDateOf_eq]
  by_cases hdate : isDate nYear nMonth nDay = true
  · rw [if_pos hdate]
    exact (dateTicks_spec hdate nTicks).1
  · rw [if_neg hdate]
    exact h

theorem storeMonth_le {nTicks : Nat} (h : nTicks ≤ xMaxValueTicks) (nYear nMonth : Int) :
    (storeMonth nTicks nYear nMonth).2 ≤ xMaxValueTicks := by
  rw [storeMonth]
  by_cases hk : getDaysInMonthOf nMonth nYear < 1
  · rw [if_pos hk]
    exact h
  · rw [if_neg hk]
    exact setDateOf_le h nYear nMonth _

/-- A date and a time of day are those of one number of ticks. -/
theorem ticks_unique {nTicks nTicks' : Nat} (h : nTicks ≤ xMaxValueTicks)
    (h' : nTicks' ≤ xMaxValueTicks)
    (hdate : HasDate nTicks' (getDateTime nTicks).nYear (getDateTime nTicks).nMonth
      (getDateTime nTicks).nDay)
    (htime : nTicks' % ticksPerDay = nTicks % ticksPerDay) : nTicks' = nTicks := by
  obtain ⟨-, habs, -⟩ := getDateTime_date h
  obtain ⟨-, habs', -⟩ := getDateTime_date h'
  obtain ⟨hy, hm, hd⟩ := hdate
  have hdays : nTicks' / ticksPerDay = nTicks / ticksPerDay := by
    change getDays nTicks' = getDays nTicks
    rw [← habs, ← habs', Int.ofNat.inj hy, Int.ofNat.inj hm, Int.ofNat.inj hd]
  rw [← Nat.div_add_mod nTicks' ticksPerDay, hdays, htime, Nat.div_add_mod]

end MxLib.DateTime
