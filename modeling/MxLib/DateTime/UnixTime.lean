import MxLib.DateTime.Add

/-!
# Unix time

`SetFromUnixTime` multiplies the seconds by the ticks of one and compares the product with the
seconds, to see that it wrapped.  A product that wrapped to a larger number is not seen, and can
be the ticks of a date (`isUnixTime_iff`).
-/

namespace MxLib.DateTime

/-- `MX_DATETIME_EPOCH_TICKS` -/
def epochTicks : Nat := 621355968000000000

/-- `SetFromUnixTime(nTime)`, on a date with these ticks: the code, and the ticks that are stored
afterwards. -/
def setFromUnixTime (nTicks : Nat) (nTime : Int) : HResult × Nat :=
  let nProduct := wrapLongLong (nTime * ticksPerSecond)
  if (if nTime ≥ 0 then nProduct < nTime else nProduct > nTime) then (.mxArithmeticOverflow, nTicks)
  else
    let nSum := wrapLongLong (nProduct + epochTicks)
    if nSum < 0 ∨ nSum > xMaxValueTicks then (.mxArithmeticOverflow, nTicks) else (.sOk, nSum.toNat)

/-- `GetUnixTime(lpnTime)` -/
def getUnixTime (nTicks : Nat) : HResult × Int :=
  if nTicks < epochTicks then (.mxArithmeticOverflow, 0)
  else (.sOk, ((nTicks - epochTicks : Nat) / ticksPerSecond : Nat))

/-- The ticks of a Unix time, which may be no date. -/
def unixTicks (nTime : Int) : Int := nTime * ticksPerSecond + epochTicks

/-- **The time is stored as its ticks**, or is refused and leaves the date as it was; a time from
the epoch on is what `GetUnixTime` returns. -/
structure IsUnixTime (nTicks : Nat) (nTime : Int) : Prop where
  stored : 0 ≤ unixTicks nTime → unixTicks nTime ≤ xMaxValueTicks →
    setFromUnixTime nTicks nTime = (.sOk, (unixTicks nTime).toNat)
  refused : ¬ (0 ≤ unixTicks nTime ∧ unixTicks nTime ≤ xMaxValueTicks) →
    (setFromUnixTime nTicks nTime).1.failed = true ∧ (setFromUnixTime nTicks nTime).2 = nTicks
  returned : 0 ≤ nTime → (setFromUnixTime nTicks nTime).1.succeeded = true →
    getUnixTime (setFromUnixTime nTicks nTime).2 = (.sOk, nTime)

/-- The product that wrapped is on the wrong side of the seconds, or it is no date. -/
def WrapShows (nTime : Int) : Prop :=
  let nProduct := wrapLongLong (nTime * ticksPerSecond)
  (if nTime ≥ 0 then nProduct < nTime else nProduct > nTime) ∨
    ¬ (0 ≤ nProduct + epochTicks ∧ nProduct + epochTicks ≤ xMaxValueTicks)

/-- A sum with the ticks of the epoch wraps to a number below zero. -/
theorem wrapLongLong_add_epoch {n : Int} (h : IsLongLong n) :
    (wrapLongLong (n + epochTicks) < 0 ∨ wrapLongLong (n + epochTicks) > xMaxValueTicks ↔
      ¬ (0 ≤ n + epochTicks ∧ n + epochTicks ≤ xMaxValueTicks)) ∧
    (0 ≤ n + epochTicks ∧ n + epochTicks ≤ xMaxValueTicks →
      wrapLongLong (n + epochTicks) = n + epochTicks) := by
  obtain ⟨hlo, hhi⟩ := h
  rw [epochTicks, xMaxValueTicks]
  by_cases hover : n + (621355968000000000 : Nat) < 2 ^ 63
  · rw [wrapLongLong_of_isLongLong ⟨by omega, hover⟩]
    omega
  · rw [wrapLongLong_of_ge (by omega) (by omega)]
    omega

/-- What `SetFromUnixTime` does. -/
theorem setFromUnixTime_eq (nTicks : Nat) (nTime : Int) :
    (WrapShows nTime → setFromUnixTime nTicks nTime = (.mxArithmeticOverflow, nTicks)) ∧
      (¬ WrapShows nTime → setFromUnixTime nTicks nTime =
        (.sOk, (wrapLongLong (nTime * ticksPerSecond) + epochTicks).toNat)) := by
  obtain ⟨hrange, hsum⟩ := wrapLongLong_add_epoch (isLongLong_wrapLongLong (nTime * ticksPerSecond))
  rw [setFromUnixTime, WrapShows]
  dsimp only
  constructor
  · rintro (hseen | hout)
    · rw [if_pos hseen]
    · rw [if_pos (hrange.mpr hout), ite_self]
  · intro hnot
    obtain ⟨hseen, hin⟩ := not_or.mp hnot
    rw [if_neg hseen, if_neg fun h => hin (hrange.mp h), hsum (not_not.mp hin)]

/-- The comparison does not refuse a product that fits. -/
theorem wrapShows_iff_of_isLongLong {nTime : Int} (h : IsLongLong (nTime * ticksPerSecond)) :
    WrapShows nTime ↔ ¬ (0 ≤ unixTicks nTime ∧ unixTicks nTime ≤ xMaxValueTicks) := by
  have hside : ¬ if nTime ≥ 0 then nTime * ticksPerSecond < nTime
      else nTime * ticksPerSecond > nTime := by
    rw [ticksPerSecond]
    split <;> omega
  rw [WrapShows, wrapLongLong_of_isLongLong h]
  exact or_iff_right hside

theorem getUnixTime_unixTicks {nTime : Int} (h : 0 ≤ nTime) :
    getUnixTime (unixTicks nTime).toNat = (.sOk, nTime) := by
  have hticks : (unixTicks nTime).toNat = nTime.toNat * ticksPerSecond + epochTicks := by
    rw [unixTicks, ticksPerSecond]
    omega
  rw [getUnixTime, hticks, if_neg (by omega), Nat.add_sub_cancel,
    Nat.mul_div_cancel _ (by decide), Int.toNat_of_nonneg h]

/-- **A Unix time is stored exactly** where the product fits into 64 bits, or where the comparison
or the range of dates shows that it wrapped. -/
theorem isUnixTime_iff (nTicks : Nat) (nTime : Int) :
    IsUnixTime nTicks nTime ↔ IsLongLong (nTime * ticksPerSecond) ∨ WrapShows nTime := by
  obtain ⟨hrefused, hstored⟩ := setFromUnixTime_eq nTicks nTime
  by_cases hfits : IsLongLong (nTime * ticksPerSecond)
  · refine iff_of_true ?_ (.inl hfits)
    have hshows := wrapShows_iff_of_isLongLong hfits
    rw [wrapLongLong_of_isLongLong hfits] at hstored
    refine ⟨fun h0 hmax => ?_, fun hout => ?_, fun hnonneg hok => ?_⟩
    · exact hstored fun h => hshows.mp h ⟨h0, hmax⟩
    · rw [hrefused (hshows.mpr hout)]
      exact ⟨rfl, rfl⟩
    · by_cases h : WrapShows nTime
      · rw [hrefused h] at hok
        cases hok
      · rw [hstored h]
        exact getUnixTime_unixTicks hnonneg
  · -- the ticks are no date
    have hout : ¬ (0 ≤ unixTicks nTime ∧ unixTicks nTime ≤ xMaxValueTicks) := by
      rw [IsLongLong] at hfits
      rw [unixTicks, epochTicks, xMaxValueTicks]
      omega
    rw [or_iff_right hfits]
    constructor
    · intro h
      have hfail := (h.refused hout).1
      by_contra hshows
      rw [hstored hshows] at hfail
      cases hfail
    · intro hshows
      have hrun := hrefused hshows
      refine ⟨fun h0 hmax => absurd ⟨h0, hmax⟩ hout, fun _ => ?_, fun _ hok => ?_⟩
      · rw [hrun]
        exact ⟨rfl, rfl⟩
      · rw [hrun] at hok
        cases hok

/-- So many seconds wrap to the 3rd of January 1970. -/
theorem not_isUnixTime : ¬ IsUnixTime 0 1844674591839 := by
  intro h
  have hrun : (setFromUnixTime 0 1844674591839).1 = .sOk := by decide
  have hfail := (h.refused (by decide)).1
  rw [hrun] at hfail
  cases hfail

end MxLib.DateTime
