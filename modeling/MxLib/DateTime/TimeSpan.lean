import MxLib.DateTime.Calendar

/-!
# Seconds

`CDateTime::Add` turns a number of seconds into a time span by way of a `double`: the
number is rounded to 53 bits, the milliseconds are rounded again and cut off to 64 bits, and
the product with the ticks of a millisecond wraps around.  A number that fits into the ticks
is added exactly (`addSeconds_of_fits`); what a larger one does is not the sum
(`addSeconds_eq_sum_iff`).

A `double` that is too large for a `LONGLONG` becomes the smallest one, as the processors
do it, and the product of two `LONGLONG`s is the one modulo `2 ^ 64`.
-/

namespace MxLib.DateTime

/-- The `LONGLONG` of a number. -/
def wrapLongLong (n : Int) : Int := n.bmod (2 ^ 64)

/-- `(double)n`, to nearest and then to even: 53 bits of the number are kept. -/
def toDouble (n : Nat) : Nat :=
  let unit := 2 ^ (n.log2 - 52)
  let q := n / unit
  let r := n % unit
  if 2 * r < unit ∨ 2 * r = unit ∧ q % 2 = 0 then q * unit else (q + 1) * unit

/-- `(LONGLONG)nValue`, of a `double` without a fraction. -/
def ofDouble (nValue : Nat) : Int := if nValue < 2 ^ 63 then nValue else -2 ^ 63

/-- `CTimeSpan::SetFrom(nValue, nTickMultiplicator)`, with the ticks of the span. -/
def setFromDouble (nValue nTickMultiplicator : Nat) : Int :=
  wrapLongLong
    (ofDouble (toDouble (nValue * (nTickMultiplicator / ticksPerMillisecond))) * ticksPerMillisecond)

/-- `CTimeSpan::SetFromSeconds` -/
def setFromSeconds (nValue : Nat) : Int := setFromDouble nValue ticksPerSecond

/-- `CTimeSpan::Add(nValue)`, with the ticks of the sum. -/
def addTicks (nTicks nValue : Int) : Except HResult Int :=
  if nTicks ≥ 0 then
    if nValue ≥ 0 ∧ wrapLongLong (nTicks + nValue) < nTicks then .error .mxArithmeticOverflow
    else .ok (wrapLongLong (nTicks + nValue))
  else if nValue < 0 ∧ wrapLongLong (nTicks + nValue) > nTicks then .error .mxArithmeticOverflow
  else .ok (wrapLongLong (nTicks + nValue))

/-- `CDateTime::Add(nCount, eUnits::Seconds)`, with the ticks of the date, for a count that
is not negative. -/
def addSeconds (nTicks : Int) (nCount : Nat) : Except HResult Int :=
  match addTicks nTicks (setFromSeconds (toDouble nCount)) with
  | .error hRes => .error hRes
  | .ok cNewTicks =>
    if cNewTicks < 0 ∨ cNewTicks > xMaxValueTicks then .error .mxArithmeticOverflow
    else .ok cNewTicks

/-! ### Numbers that fit -/

theorem toDouble_of_lt {n : Nat} (h : n < 2 ^ 53) : toDouble n = n := by
  have hlog : n.log2 - 52 = 0 := by
    by_cases h0 : n = 0
    · rw [h0]
      rfl
    · have := (Nat.log2_lt h0).mpr h
      omega
  rw [toDouble, hlog]
  simp [Nat.mod_one]

theorem ofDouble_of_lt {n : Nat} (h : n < 2 ^ 63) : ofDouble n = n := if_pos h

theorem wrapLongLong_of_lt {n : Int} (h0 : 0 ≤ n) (h : n < 2 ^ 63) : wrapLongLong n = n :=
  Int.bmod_eq_of_le (by omega) (by omega)

theorem wrapLongLong_of_ge {n : Int} (h : 2 ^ 63 ≤ n) (h' : n < 2 ^ 64) :
    wrapLongLong n = n - 2 ^ 64 := by
  have hmod : n % (2 ^ 64 : Nat) = n := Int.emod_eq_of_lt (by omega) (by omega)
  rw [wrapLongLong, Int.bmod_neg _ _ (by omega), hmod]
  rfl

/-- The ticks of the seconds that fit. -/
theorem setFromSeconds_of_fits {nCount : Nat} (h : nCount * ticksPerSecond < 2 ^ 63) :
    setFromSeconds (toDouble nCount) = (nCount * ticksPerSecond : Nat) := by
  rw [ticksPerSecond] at h
  have hbound : nCount ≤ 922337203685 := by omega
  clear h
  have hcount : toDouble nCount = nCount := toDouble_of_lt (by omega)
  have hmilli : toDouble (nCount * 1000) = nCount * 1000 := toDouble_of_lt (by omega)
  have hratio : ticksPerSecond / ticksPerMillisecond = 1000 := by decide
  rw [setFromSeconds, setFromDouble, hratio, hcount, hmilli, ofDouble_of_lt (by omega),
    ticksPerMillisecond, ticksPerSecond, wrapLongLong_of_lt (by omega) (by omega)]
  omega

/-- **Seconds that fit are added exactly**, or the date is out of range. -/
theorem addSeconds_of_fits {nTicks : Int} {nCount : Nat} (h0 : 0 ≤ nTicks)
    (hmax : nTicks ≤ xMaxValueTicks) (h : nCount * ticksPerSecond < 2 ^ 63) :
    addSeconds nTicks nCount =
      if nTicks + (nCount * ticksPerSecond : Nat) ≤ xMaxValueTicks then
        .ok (nTicks + (nCount * ticksPerSecond : Nat))
      else .error .mxArithmeticOverflow := by
  rw [addSeconds, setFromSeconds_of_fits h, addTicks, if_pos h0]
  generalize nCount * ticksPerSecond = nValue at h
  rw [xMaxValueTicks] at hmax
  have hsum : 0 ≤ nTicks + nValue := by omega
  by_cases hwrap : nTicks + nValue < 2 ^ 63
  · rw [wrapLongLong_of_lt hsum hwrap, if_neg (by omega)]
    dsimp only
    by_cases hle : nTicks + nValue ≤ xMaxValueTicks
    · rw [if_neg (by omega), if_pos hle]
    · rw [if_pos (by omega), if_neg hle]
  · have hover : wrapLongLong (nTicks + nValue) < nTicks := by
      rw [wrapLongLong_of_ge (by omega) (by omega)]
      omega
    rw [if_pos ⟨by omega, hover⟩, if_neg (by rw [xMaxValueTicks]; omega)]

theorem addSeconds_range {nTicks t : Int} {nCount : Nat} (h : addSeconds nTicks nCount = .ok t) :
    0 ≤ t ∧ t ≤ xMaxValueTicks := by
  rw [addSeconds] at h
  split at h
  · cases h
  · split at h
    · cases h
    · next hrange =>
      obtain rfl := Except.ok.inj h
      omega

theorem addSeconds_error {nTicks : Int} {nCount : Nat} {hRes : HResult}
    (h : addSeconds nTicks nCount = .error hRes) : hRes = .mxArithmeticOverflow := by
  rw [addSeconds] at h
  split at h
  · next e hadd =>
    obtain rfl := Except.error.inj h
    rw [addTicks] at hadd
    split at hadd
    · split at hadd
      · exact (Except.error.inj hadd).symm
      · cases hadd
    · split at hadd
      · exact (Except.error.inj hadd).symm
      · cases hadd
  · split at h
    · exact (Except.error.inj h).symm
    · cases h

/-- **The date is the sum exactly where the seconds fit** into the ticks. -/
theorem addSeconds_eq_sum_iff {nTicks t : Int} {nCount : Nat} (h0 : 0 ≤ nTicks)
    (hmax : nTicks ≤ xMaxValueTicks) (h : addSeconds nTicks nCount = .ok t) :
    t = nTicks + (nCount * ticksPerSecond : Nat) ↔ nCount * ticksPerSecond < 2 ^ 63 := by
  have hrange := addSeconds_range h
  rw [xMaxValueTicks] at hrange
  constructor
  · intro hsum
    omega
  · intro hfits
    rw [addSeconds_of_fits h0 hmax hfits] at h
    split at h
    · exact (Except.ok.inj h).symm
    · cases h

end MxLib.DateTime
