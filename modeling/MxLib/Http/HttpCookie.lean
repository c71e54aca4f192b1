import Mathlib.Data.List.Induction
import MxLib.Strings.Strings

/-!
# Cookies that are dropped

`RemoveExpiredAndInvalid` runs over an array of cookies from its end and removes
some of them.  The array is the list of its cookies, and a date is its ticks beside
the offset they are written at.  `SetGmtOffset` is only used without an adjustment
here, which leaves the ticks as they are.

`HasExpired` gives `S_OK` for a cookie that has *not* expired, and `S_FALSE` for one
that has; its caller takes `S_OK` for expired.
-/

namespace MxLib.Http.HttpCookie

/-- `CDateTime` -/
structure DateTime where
  nTicks : Int
  nGmtOffset : Int
deriving DecidableEq

/-- `SetGmtOffset(nGmtOffset, FALSE)` -/
def DateTime.setGmtOffset (dt : DateTime) (nGmtOffset : Int) : Except HResult DateTime :=
  if nGmtOffset < -12 * 60 ∨ nGmtOffset > 14 * 60 then .error .eInvalidArg
  else .ok { dt with nGmtOffset := nGmtOffset }

/-- `CHttpCookie`, as far as it is looked at; `expires` is the flag and the date. -/
structure Cookie where
  cStrNameA : List Byte
  cStrValueA : List Byte
  bExpiresSet : Bool
  cExpiresDt : DateTime
deriving DecidableEq

/-- A date at offset 0. -/
def atGmt (dt : DateTime) : Except HResult DateTime :=
  if dt.nGmtOffset ≠ 0 then dt.setGmtOffset 0 else .ok dt

/-- `HasExpired`.  The date of the cookie is brought to offset 0 and then not used. -/
def hasExpired (c : Cookie) (date : DateTime) : HResult :=
  if !c.bExpiresSet then .sFalse
  else
    match atGmt c.cExpiresDt, atGmt date with
    | .error hRes, _ => hRes
    | .ok _, .error hRes => hRes
    | .ok _, .ok date => if date.nTicks ≥ c.cExpiresDt.nTicks then .sFalse else .sOk

/-- The test of the loop of `RemoveExpiredAndInvalid`. -/
def isDropped (c : Cookie) (date : DateTime) : Bool :=
  charAt c.cStrNameA 0 == 0 || charAt c.cStrValueA 0 == 0 || hasExpired c date == .sOk

/-- The loop of `RemoveExpiredAndInvalid`, with `nCount` cookies left to look at. -/
def removeFrom (date : DateTime) : Nat → List Cookie → List Cookie
  | 0, cookies => cookies
  | nCount + 1, cookies =>
    match cookies[nCount]? with
    | none => removeFrom date nCount cookies
    | some c =>
      if isDropped c date then removeFrom date nCount (cookies.eraseIdx nCount)
      else removeFrom date nCount cookies

/-- `RemoveExpiredAndInvalid` -/
def removeExpiredAndInvalid (cookies : List Cookie) (date : DateTime) : HResult × List Cookie :=
  match atGmt date with
  | .error hRes => (hRes, cookies)
  | .ok date => (.sOk, removeFrom date cookies.length cookies)

/-! ### What the loop does -/

/-- A date can always be brought to offset 0, and keeps its ticks. -/
theorem exists_atGmt (dt : DateTime) : atGmt dt = .ok ⟨dt.nTicks, 0⟩ := by
  unfold atGmt
  by_cases h : dt.nGmtOffset ≠ 0
  · rw [if_pos h, DateTime.setGmtOffset, if_neg (by omega)]
  · rw [if_neg h, ← not_not.mp h]

theorem hasExpired_eq_sOk_iff (c : Cookie) (date : DateTime) :
    hasExpired c date = .sOk ↔ c.bExpiresSet = true ∧ date.nTicks < c.cExpiresDt.nTicks := by
  unfold hasExpired
  rw [exists_atGmt, exists_atGmt]
  cases c.bExpiresSet with
  | false => simp
  | true =>
    by_cases h : date.nTicks ≥ c.cExpiresDt.nTicks
    · simp [h]
    · simp [h]
      omega

/-- The loop from the end removes what is to be dropped, and nothing else. -/
theorem removeFrom_eq (date : DateTime) : ∀ (pre suf : List Cookie),
    removeFrom date pre.length (pre ++ suf) = pre.filter (fun c => !isDropped c date) ++ suf := by
  intro pre
  induction pre using List.reverseRecOn with
  | nil => intro suf; rfl
  | append_singleton pre c ih =>
    intro suf
    have hlen : (pre ++ [c]).length = pre.length + 1 := by simp
    have hget : (pre ++ [c] ++ suf)[pre.length]? = some c := by simp
    rw [hlen, removeFrom, hget]
    by_cases hc : isDropped c date
    · have herase : (pre ++ [c] ++ suf).eraseIdx pre.length = pre ++ suf := by
        rw [List.append_assoc, List.eraseIdx_append_of_length_le (Nat.le_refl _)]
        simp
      simp only [hc, if_true, herase]
      rw [ih suf]
      simp [hc]
    · simp only [hc, if_false, Bool.false_eq_true]
      rw [List.append_assoc, ih]
      simp [hc]

theorem removeExpiredAndInvalid_eq (cookies : List Cookie) (date : DateTime) :
    removeExpiredAndInvalid cookies date =
      (.sOk, cookies.filter fun c => !isDropped c ⟨date.nTicks, 0⟩) := by
  unfold removeExpiredAndInvalid
  rw [exists_atGmt]
  have h := removeFrom_eq ⟨date.nTicks, 0⟩ cookies []
  rw [List.append_nil, List.append_nil] at h
  simp only [h]

/-! ### What it is for -/

/-- The cookie has a name and a value. -/
def Cookie.hasText (c : Cookie) : Bool := !isEmptyStr c.cStrNameA && !isEmptyStr c.cStrValueA

/-- A cookie that is to be kept: it has a name and a value, and does not expire at
the date or before it. -/
def Cookie.isValid (c : Cookie) (date : DateTime) : Bool :=
  c.hasText && (!c.bExpiresSet || date.nTicks < c.cExpiresDt.nTicks)

theorem isDropped_eq (c : Cookie) (date : DateTime) :
    isDropped c date = true ↔
      c.hasText = false ∨ (c.bExpiresSet = true ∧ date.nTicks < c.cExpiresDt.nTicks) := by
  unfold isDropped Cookie.hasText isEmptyStr
  rw [Bool.or_eq_true, Bool.or_eq_true, beq_iff_eq (a := hasExpired c date),
    hasExpired_eq_sOk_iff]
  simp only [Bool.and_eq_false_iff, Bool.not_eq_false']

/-- Where the loop goes wrong: at a cookie with a name, a value and an expiration date. -/
theorem isDropped_wrong_iff (c : Cookie) (date : DateTime) :
    (!isDropped c ⟨date.nTicks, 0⟩) ≠ c.isValid date ↔
      c.hasText = true ∧ c.bExpiresSet = true := by
  have h := isDropped_eq c ⟨date.nTicks, 0⟩
  unfold Cookie.isValid
  cases hd : isDropped c ⟨date.nTicks, 0⟩ <;> cases ht : c.hasText <;>
    cases he : c.bExpiresSet <;> simp_all

/-- **The cookies that should stay are kept, and no others, exactly when none of the
cookies with a name and a value has an expiration date.** -/
theorem removeExpiredAndInvalid_iff (cookies : List Cookie) (date : DateTime) :
    removeExpiredAndInvalid cookies date = (.sOk, cookies.filter fun c => c.isValid date) ↔
      ∀ c ∈ cookies, ¬ (c.hasText = true ∧ c.bExpiresSet = true) := by
  rw [removeExpiredAndInvalid_eq]
  constructor
  · intro h c hc hwrong
    have hkept := (Prod.mk.inj h).2
    have hiff : (c ∈ cookies.filter fun c => !isDropped c ⟨date.nTicks, 0⟩) ↔
        c ∈ cookies.filter fun c => c.isValid date := by rw [hkept]
    rw [List.mem_filter, List.mem_filter, and_iff_right hc, and_iff_right hc,
      Bool.eq_iff_iff.symm] at hiff
    exact (isDropped_wrong_iff c date).mpr hwrong hiff
  · intro h
    refine congrArg (Prod.mk HResult.sOk) (List.filter_congr fun c hc => ?_)
    by_contra hne
    exact h c hc ((isDropped_wrong_iff c date).mp hne)

/-- A cookie that is still good for one tick is removed, and one that expired a tick
ago stays. -/
theorem removeExpiredAndInvalid_inverted :
    removeExpiredAndInvalid
        [⟨ascii "a", ascii "1", true, ⟨11, 0⟩⟩, ⟨ascii "b", ascii "2", true, ⟨9, 0⟩⟩] ⟨10, 0⟩ =
      (.sOk, [⟨ascii "b", ascii "2", true, ⟨9, 0⟩⟩]) ∧
    ([⟨ascii "a", ascii "1", true, ⟨11, 0⟩⟩, ⟨ascii "b", ascii "2", true, ⟨9, 0⟩⟩] :
        List Cookie).filter (fun c => c.isValid ⟨10, 0⟩) =
      [⟨ascii "a", ascii "1", true, ⟨11, 0⟩⟩] := by
  decide

end MxLib.Http.HttpCookie
