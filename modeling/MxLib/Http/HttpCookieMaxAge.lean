import Mathlib.Data.Nat.Bitwise
import MxLib.DateTime.TimeSpan
import MxLib.Http.HttpCookieRead
import MxLib.Http.HttpHeaderEntContentLength

/-!
# The seconds of Max-Age

The loop of `ParseFromResponseHeader` takes every character from `0` up to the last one of
ASCII for a digit, since its bound is the constant `' 9'`.  As for a Content-Length, a
number that wraps around is only seen by some of its digits.  `CDateTime::Add` does not see
all the numbers that are too large for the ticks of a date.

`maxAge_iff` says for which texts the attribute is read exactly: where the loop takes the
text, it is made of digits, and the seconds fit into the ticks; or the date is out of range.
-/

namespace MxLib.Http.HttpCookie

open MxLib.Library
open MxLib.DateTime (addSeconds ticksPerSecond xMaxValueTicks addSeconds_eq_sum_iff addSeconds_error)

/-! ### The clock -/

/-- The time of the clock, as `SetFromNow(FALSE)` stores it. -/
structure Clock where
  nTicks : Int
  nonneg : 0 ≤ nTicks
  le_max : nTicks ≤ xMaxValueTicks

/-- The date that is so many seconds from now. -/
def Clock.expireAfter (now : Clock) (nMaxAge : UInt64) : Except HResult DateTime :=
  (addSeconds now.nTicks nMaxAge.toNat).map fun nTicks => ⟨nTicks, 0⟩

/-! ### What is meant to be read -/

/-- The header is read up to the attributes of `s.sA`, with the cookie `s.cookie`. -/
def ReadUpTo (parseDate : List Byte → Except HResult DateTime)
    (expireAfter : UInt64 → Except HResult DateTime) (szSrcA : List Byte) (s : AttributeScan) :
    Prop :=
  ∃ p c c', getPairA false (skipSpaces (skipHeaderName szSrcA)) = .ok p ∧
    FullCookie.clear.setName p.cStrNameA = .ok c ∧ c.setValue p.cStrValueA = .ok c' ∧
      Loop.Reach (attributeTurn parseDate expireAfter) ⟨c', p.sA⟩ s

/-- The attributes of `sA` begin with a `Max-Age` of this value, and go on with `rest`. -/
def BeginsWithMaxAge (sA v rest : List Byte) : Prop :=
  ∃ before name after, (∀ ch ∈ before, isBlank ch = true) ∧
    (∀ ch ∈ name, isPairName ch = true) ∧ strCompareA name (ascii "Max-Age") true = true ∧
      sA = before ++ (name ++ chEquals :: (v ++ after)) ∧ chSemicolon ∉ v ∧
        (after = [] ∧ rest = [] ∨ after = chSemicolon :: rest)

/-- The date of the text: the current time and its number of seconds. -/
def Clock.expires (now : Clock) (digits : List Byte) : DateTime :=
  ⟨now.nTicks + (decimalFrom 0 digits * ticksPerSecond : Nat), 0⟩

/-- The attribute is refused, and the header with it; or it is a number of seconds below
`2 ^ 63`, and the expiration date is the current time and these seconds. -/
def MaxAgeExact (now : Clock) (parseDate : List Byte → Except HResult DateTime)
    (szSrcA : List Byte) (s : AttributeScan) (v rest : List Byte) : Prop :=
  (∃ hRes, hRes ≠ .sOk ∧ attributeTurn parseDate now.expireAfter s = .inr (hRes, s.cookie) ∧
      parseFromResponseHeader parseDate now.expireAfter szSrcA = (hRes, s.cookie)) ∨
    ∃ digits, HasDigits v digits ∧ decimalFrom 0 digits < 2 ^ 63 ∧
      attributeTurn parseDate now.expireAfter s =
        .inl ⟨s.cookie.setExpireDate (some (now.expires digits)), rest⟩

/-! ### What the loop takes -/

/-- The characters that the loop takes for digits. -/
def isTakenChar (ch : Byte) : Bool := 0x30 ≤ ch && ch ≤ 0x7F

/-- The characters that the loop takes, where nothing else but blanks is around them. -/
structure IsTaken (v taken : List Byte) : Prop where
  first : ∃ ch rest, taken = ch :: rest ∧ isDigit ch = true
  chars : ∀ ch ∈ taken, isTakenChar ch = true
  around : ∃ before after, v = before ++ (taken ++ after) ∧
    (∀ ch ∈ before, isBlank ch = true) ∧ ∀ ch ∈ after, isBlank ch = true

theorem signedChar_ge (ch : Byte) : signedChar ch ≥ 0x30 ↔ isTakenChar ch = true := by
  refine forall_byte (P := fun ch => signedChar ch ≥ 0x30 ↔ isTakenChar ch = true) ?_ ch
  decide

theorem isTakenChar_of_isBlank {ch : Byte} (h : isBlank ch = true) : isTakenChar ch = false := by
  simp only [isBlank, Bool.or_eq_true, beq_iff_eq] at h
  rcases h with rfl | rfl <;> decide

theorem isTakenChar_of_isDigit {ch : Byte} (h : isDigit ch = true) : isTakenChar ch = true := by
  revert h
  refine forall_byte (P := fun ch => isDigit ch = true → isTakenChar ch = true) ?_ ch
  decide

theorem le_of_isTakenChar {ch : Byte} (h : isTakenChar ch = true) : 0x30 ≤ ch := by
  simp only [isTakenChar, Bool.and_eq_true, decide_eq_true_eq] at h
  exact h.1

open Classical in
/-- **The loop adds up the characters modulo `2 ^ 64`, unless one of them shows the wrap.** -/
theorem maxAgeDigits_append {taken rest : List Byte} (htaken : ∀ ch ∈ taken, isTakenChar ch = true)
    (hrest : ∀ ch ∈ rest.head?, isTakenChar ch = false) {N : Nat} {nMaxAge : UInt64}
    (hN : nMaxAge.toNat = N % 2 ^ 64) :
    maxAgeDigits (taken ++ rest) nMaxAge =
      if WrapSeen N taken then .error .eFail
      else .ok (UInt64.ofNat (decimalFrom N taken), rest) := by
  induction taken generalizing N nMaxAge with
  | nil =>
    have hstop : maxAgeDigits rest nMaxAge = .ok (nMaxAge, rest) := by
      cases rest with
      | nil => rfl
      | cons ch rest =>
        rw [maxAgeDigits, if_neg]
        rw [signedChar_ge, hrest ch rfl]
        decide
    have heq : nMaxAge = UInt64.ofNat N := by
      apply UInt64.toNat_inj.mp
      rw [hN, UInt64.toNat_ofNat']
    rw [List.nil_append, hstop, if_neg (wrapSeen_nil N), decimalFrom, List.foldl_nil, heq]
  | cons ch taken ih =>
    have hch := htaken ch List.mem_cons_self
    have hshows := showsWrap_iff hN (le_of_isTakenChar hch)
    rw [List.cons_append, maxAgeDigits, if_pos ((signedChar_ge ch).mpr hch)]
    by_cases hmul : nMaxAge * 10 < nMaxAge
    · rw [if_pos hmul, if_pos (wrapSeen_cons.mpr (Or.inl (hshows.mpr (Or.inl hmul))))]
    · rw [if_neg hmul]
      by_cases hadd : nMaxAge * 10 + ch.toUInt64 - 0x30 < nMaxAge * 10
      · rw [if_pos hadd, if_pos (wrapSeen_cons.mpr (Or.inl (hshows.mpr (Or.inr hadd))))]
      · have hnot : ¬ ShowsWrap N ch := fun h => (hshows.mp h).elim hmul hadd
        rw [if_neg hadd, ih (fun x hx => htaken x (List.mem_cons_of_mem _ hx))
          (toNat_digit hN (le_of_isTakenChar hch))]
        simp only [wrapSeen_cons, hnot, false_or, decimalFrom, List.foldl_cons]

theorem signBit_iff (n : UInt64) : n &&& 0x8000000000000000 ≠ 0 ↔ 2 ^ 63 ≤ n.toNat := by
  have hlt : n.toNat < 2 ^ 64 := n.toNat_lt
  have hand : (n &&& 0x8000000000000000).toNat = (n.toNat.testBit 63).toNat * 2 ^ 63 := by
    rw [UInt64.toNat_and]
    exact Nat.and_two_pow n.toNat 63
  rw [ne_eq, ← UInt64.toNat_inj, hand, Nat.testBit_eq_decide_div_mod_eq]
  have hbit : n.toNat / 2 ^ 63 % 2 = 1 ↔ 2 ^ 63 ≤ n.toNat := by omega
  rw [← hbit]
  by_cases h : n.toNat / 2 ^ 63 % 2 = 1
  · simp only [h, decide_true]
    decide
  · simp only [h, decide_false]
    decide

theorem isBlank_of_isTakenChar {ch : Byte} (h : isTakenChar ch = true) : isBlank ch = false := by
  by_contra hblank
  rw [isTakenChar_of_isBlank (by simpa using hblank)] at h
  exact Bool.false_ne_true h

open Classical in
/-- **What `Max-Age` is read as**, where the loop takes its text. -/
theorem parseMaxAge_eq {v taken : List Byte} (h : IsTaken (szStr v) taken) :
    parseMaxAge v =
      if WrapSeen 0 taken ∨ 2 ^ 63 ≤ decimalFrom 0 taken % 2 ^ 64 then .error .eFail
      else .ok (UInt64.ofNat (decimalFrom 0 taken)) := by
  obtain ⟨⟨ch, tail, rfl, hdigit⟩, hchars, before, after, hv, hbefore, hafter⟩ := h
  have hblank : isBlank ch = false := isBlank_of_isTakenChar (hchars ch List.mem_cons_self)
  have hskip : skipSpaces (szStr v) = ch :: tail ++ after := by
    rw [hv, skipSpaces, List.dropWhile_append_of_pos hbefore, List.cons_append,
      List.dropWhile_cons_of_neg (by simp [hblank])]
  have hrest : ∀ x ∈ after.head?, isTakenChar x = false := fun x hx =>
    isTakenChar_of_isBlank (hafter x (List.mem_of_mem_head? hx))
  have hfirst : isDigitA (charAt (ch :: tail ++ after) 0) = true := hdigit
  have hsign : (UInt64.ofNat (decimalFrom 0 (ch :: tail)) &&& 0x8000000000000000 != 0) =
      decide (2 ^ 63 ≤ decimalFrom 0 (ch :: tail) % 2 ^ 64) := by
    rw [Bool.eq_iff_iff, bne_iff_ne, signBit_iff, decide_eq_true_iff, UInt64.toNat_ofNat']
  simp only [parseMaxAge, hskip, hfirst, Bool.not_true, Bool.false_eq_true, if_false,
    maxAgeDigits_append hchars hrest (show (0 : UInt64).toNat = 0 % 2 ^ 64 from rfl)]
  by_cases hseen : WrapSeen 0 (ch :: tail)
  · simp only [hseen, if_true, true_or]
  · simp only [hseen, if_false, false_or, hsign, skipSpaces_eq_nil.mpr hafter, ne_eq,
      not_true_eq_false, decide_false, Bool.or_false, decide_eq_true_iff]

/-- What is accepted has such characters and only blanks around them. -/
theorem exists_isTaken {v : List Byte} {nMaxAge : UInt64} (h : parseMaxAge v = .ok nMaxAge) :
    ∃ taken, IsTaken (szStr v) taken := by
  rw [parseMaxAge] at h
  generalize szStr v = w at h
  have hw : w = w.takeWhile isBlank ++ skipSpaces w := (List.takeWhile_append_dropWhile).symm
  generalize skipSpaces w = sA at h hw
  have hsA : sA = sA.takeWhile isTakenChar ++ sA.dropWhile isTakenChar :=
    (List.takeWhile_append_dropWhile).symm
  have hchars : ∀ ch ∈ sA.takeWhile isTakenChar, isTakenChar ch = true :=
    fun ch hch => List.mem_takeWhile_imp hch
  have hrest : ∀ ch ∈ (sA.dropWhile isTakenChar).head?, isTakenChar ch = false := by
    intro ch hch
    have hnot := List.head?_dropWhile_not isTakenChar sA
    rw [Option.mem_def.mp hch] at hnot
    simpa using hnot
  by_cases hfirst : isDigitA (charAt sA 0) = true
  · refine ⟨sA.takeWhile isTakenChar, ?_, hchars, w.takeWhile isBlank, sA.dropWhile isTakenChar,
      by rw [← hsA]; exact hw, fun ch hch => List.mem_takeWhile_imp hch, ?_⟩
    · cases sA with
      | nil => exact absurd hfirst (by decide)
      | cons ch rest =>
        exact ⟨ch, rest.takeWhile isTakenChar,
          List.takeWhile_cons_of_pos (isTakenChar_of_isDigit hfirst), hfirst⟩
    · rw [hfirst, Bool.not_true, if_neg Bool.false_ne_true] at h
      rw [hsA, maxAgeDigits_append hchars hrest (show (0 : UInt64).toNat = 0 % 2 ^ 64 from rfl)] at h
      by_cases hseen : WrapSeen 0 (sA.takeWhile isTakenChar)
      · simp [hseen] at h
      · by_cases hend : skipSpaces (sA.dropWhile isTakenChar) = []
        · exact skipSpaces_eq_nil.mp hend
        · simp [hseen, hend] at h
  · simp [hfirst] at h

theorem maxAgeDigits_error {sA : List Byte} {nMaxAge : UInt64} {hRes : HResult}
    (h : maxAgeDigits sA nMaxAge = .error hRes) : hRes = .eFail := by
  induction sA generalizing nMaxAge with
  | nil => cases h
  | cons ch sA ih =>
    rw [maxAgeDigits] at h
    split at h
    · dsimp only at h
      split at h
      · exact (Except.error.inj h).symm
      · split at h
        · exact (Except.error.inj h).symm
        · exact ih h
    · cases h

theorem parseMaxAge_error {v : List Byte} {hRes : HResult} (h : parseMaxAge v = .error hRes) :
    hRes = .eFail := by
  rw [parseMaxAge] at h
  split at h
  · exact (Except.error.inj h).symm
  · cases hdigits : maxAgeDigits (skipSpaces (szStr v)) 0 with
    | error e =>
      rw [hdigits] at h
      exact (Except.error.inj h) ▸ maxAgeDigits_error hdigits
    | ok r =>
      rw [hdigits] at h
      dsimp only at h
      split at h
      · exact (Except.error.inj h).symm
      · cases h

/-! ### The attribute -/

theorem szStr_skipSpaces (v : List Byte) : skipSpaces (szStr (skipSpaces v)) = skipSpaces (szStr v) := by
  induction v with
  | nil => rfl
  | cons ch v ih =>
    cases hb : isBlank ch with
    | false => rw [skipSpaces_cons hb]
    | true =>
      have hzero : ch ≠ 0 := by
        rintro rfl
        exact absurd hb (by decide)
      have hskip : ∀ l, skipSpaces (ch :: l) = skipSpaces l := fun l =>
        List.dropWhile_cons_of_pos hb
      have hstr : szStr (ch :: v) = ch :: szStr v :=
        List.takeWhile_cons_of_pos (by simpa using hzero)
      rw [hskip, ih, hstr, hskip]

/-- The blanks in front are skipped anyhow. -/
theorem parseMaxAge_skipSpaces (v : List Byte) : parseMaxAge (skipSpaces v) = parseMaxAge v := by
  rw [parseMaxAge, parseMaxAge, szStr_skipSpaces]

/-- A name that is compared with `Max-Age` compares like it. -/
theorem strCompareA_of_maxAge {name : List Byte} (h : strCompareA name (ascii "Max-Age") true = true)
    (s : List Byte) : strCompareA name s true = strCompareA (ascii "Max-Age") s true := by
  have hfold : (szStr name).map lowerA = (szStr (ascii "Max-Age")).map lowerA := by
    simpa [strCompareA] using h
  simp only [strCompareA, if_true, hfold]

/-- The name begins with the letter, and not with a dollar sign. -/
theorem head_of_maxAge {name : List Byte} (h : strCompareA name (ascii "Max-Age") true = true) :
    ∃ ch tail, name = ch :: tail ∧ ch ≠ 0 ∧ isBlank ch = false ∧ ch ≠ 0x24 := by
  have hfold : (szStr name).map lowerA = (szStr (ascii "Max-Age")).map lowerA := by
    simpa [strCompareA] using h
  cases name with
  | nil => exact absurd hfold (by decide)
  | cons ch tail =>
    by_cases hzero : ch = 0
    · rw [hzero, show szStr (0 :: tail) = [] from rfl] at hfold
      exact absurd hfold (by decide)
    · rw [szStr, List.takeWhile_cons_of_pos (by simpa using hzero), List.map_cons] at hfold
      have hlower : lowerA ch = 0x6D := (List.cons.inj hfold).1
      have hletter := (lowerA_eq_iff (by decide) (by decide)).mp hlower
      refine ⟨ch, tail, rfl, hzero, ?_⟩
      rcases hletter with rfl | rfl <;> decide

theorem getPairA_maxAge {sA v rest : List Byte} (h : BeginsWithMaxAge sA v rest) :
    ∃ name, strCompareA name (ascii "Max-Age") true = true ∧
      getPairA true sA = .ok ⟨name, skipSpaces v, rest⟩ := by
  obtain ⟨before, name, after, hbefore, hname, hcompare, rfl, hv, hafter⟩ := h
  refine ⟨name, hcompare, ?_⟩
  obtain ⟨ch, tail, rfl, -, hblank, -⟩ := head_of_maxAge hcompare
  have hskip : skipSpaces (before ++ (ch :: tail ++ chEquals :: (v ++ after))) =
      ch :: tail ++ chEquals :: (v ++ after) := by
    rw [skipSpaces, List.dropWhile_append_of_pos hbefore, List.cons_append,
      List.dropWhile_cons_of_neg (by simp [hblank])]
  obtain ⟨htake, hdrop⟩ := span_pairName (List.all_eq_true.mpr hname)
    (show isPairName chEquals = false by decide) (v ++ after)
  -- the value ends at the semicolon behind it
  have hafterSkip : skipSpaces after = after ∧ after.takeWhile (· != chSemicolon) = [] ∧
      after.dropWhile (· != chSemicolon) = after := by
    rcases hafter with ⟨rfl, rfl⟩ | rfl
    · exact ⟨rfl, rfl, rfl⟩
    · exact ⟨rfl, rfl, rfl⟩
  have happend : skipSpaces (v ++ after) = skipSpaces v ++ after := by
    rw [skipSpaces, List.dropWhile_append]
    split
    · next hempty =>
      rw [List.isEmpty_iff] at hempty
      rw [skipSpaces, hempty, List.nil_append]
      exact hafterSkip.1
    · rfl
  have hall : ∀ c ∈ skipSpaces v, (c != chSemicolon) = true := fun c hc =>
    bne_iff_ne.mpr fun heq => hv (heq ▸ (List.dropWhile_sublist _).subset hc)
  have hvalue : (skipSpaces (v ++ after)).takeWhile (· != chSemicolon) = skipSpaces v ∧
      (skipSpaces (v ++ after)).dropWhile (· != chSemicolon) = after := by
    rw [happend, List.takeWhile_append_of_pos hall, List.dropWhile_append_of_pos hall,
      hafterSkip.2.1, hafterSkip.2.2, List.append_nil]
    exact ⟨rfl, rfl⟩
  have hend : pairEnd (ch :: tail) (skipSpaces v) after = .ok ⟨ch :: tail, skipSpaces v, rest⟩ := by
    rcases hafter with ⟨rfl, rfl⟩ | rfl
    · rfl
    · rfl
  simp only [getPairA, hskip, htake, hdrop]
  rw [if_neg (List.cons_ne_nil _ _), skipSpaces_cons (by decide)]
  dsimp only
  rw [if_neg (by decide)]
  cases hw : skipSpaces (v ++ after) with
  | nil =>
    obtain ⟨hv0, rfl⟩ := List.append_eq_nil_iff.mp (happend.symm.trans hw)
    obtain rfl : rest = [] := by simpa using hafter
    rw [hv0]
  | cons c w =>
    dsimp only
    rw [Bool.true_or, if_pos rfl, ← hw, hvalue.1, hvalue.2, hend]

section Turn

variable {parseDate : List Byte → Except HResult DateTime}
  {expireAfter : UInt64 → Except HResult DateTime}

theorem addAttribute_maxAge {name : List Byte}
    (h : strCompareA name (ascii "Max-Age") true = true) (c : FullCookie) (v : List Byte) :
    c.addAttribute parseDate expireAfter name v =
      match parseMaxAge v with
      | .error hRes => .error hRes
      | .ok nMaxAge => (expireAfter nMaxAge).map fun cDt => c.setExpireDate (some cDt) := by
  have hcompare := strCompareA_of_maxAge h
  obtain ⟨ch, tail, rfl, hzero, -, hdollar⟩ := head_of_maxAge h
  have hstrip : (if charAt (ch :: tail) 0 == 0x24 then (ch :: tail).drop 1 else ch :: tail) =
      ch :: tail := if_neg (by simpa using hdollar)
  have hempty : isEmptyStr (ch :: tail) = false := beq_eq_false_iff_ne.mpr hzero
  have hignored : (ignoredNames.any fun s => strCompareA (ch :: tail) s true) = false := by
    rw [funext hcompare]
    decide
  rw [FullCookie.addAttribute]
  dsimp only
  rw [hstrip, hempty, hignored, if_neg (by decide), if_neg (by rw [hcompare]; decide),
    if_neg (by rw [hcompare]; decide)]
  exact if_pos h

/-- **The turn for a `Max-Age`.** -/
theorem attributeTurn_maxAge {c : FullCookie} {sA v rest : List Byte}
    (h : BeginsWithMaxAge sA v rest) :
    attributeTurn parseDate expireAfter ⟨c, sA⟩ =
      match parseMaxAge v with
      | .error hRes => .inr (hRes, c)
      | .ok nMaxAge =>
        match expireAfter nMaxAge with
        | .error hRes => .inr (hRes, c)
        | .ok cDt => .inl ⟨c.setExpireDate (some cDt), rest⟩ := by
  obtain ⟨name, hname, hpair⟩ := getPairA_maxAge h
  have hne : sA ≠ [] := by
    rintro rfl
    exact absurd hpair nofun
  rw [attributeTurn, if_neg hne, hpair]
  dsimp only
  rw [addAttribute_maxAge hname, parseMaxAge_skipSpaces]
  cases parseMaxAge v with
  | error hRes => rfl
  | ok nMaxAge =>
    dsimp only
    cases expireAfter nMaxAge with
    | error hRes => rfl
    | ok cDt => rfl

/-- A turn that leaves the loop gives the result of `ParseFromResponseHeader`. -/
theorem parseFromResponseHeader_of_inr {szSrcA : List Byte} {s : AttributeScan}
    {r : HResult × FullCookie} (hread : ReadUpTo parseDate expireAfter szSrcA s)
    (h : attributeTurn parseDate expireAfter s = .inr r) :
    parseFromResponseHeader parseDate expireAfter szSrcA = r := by
  obtain ⟨p, c, c', hpair, hname, hvalue, hreach⟩ := hread
  rw [parseFromResponseHeader, hpair]
  dsimp only
  rw [hname]
  dsimp only
  rw [hvalue]
  dsimp only
  rw [Loop.exec_of_reach (attributeTurn_measure parseDate expireAfter) _ hreach,
    Loop.exec_inr _ h]

end Turn

/-! ### When it is exact -/

/-- What the loop takes is found behind the blanks. -/
theorem IsTaken.eq {v taken : List Byte} (h : IsTaken v taken) :
    taken = (skipSpaces v).takeWhile isTakenChar := by
  obtain ⟨⟨ch, tail, rfl, -⟩, hchars, before, after, rfl, hbefore, hafter⟩ := h
  have hblank : isBlank ch = false := isBlank_of_isTakenChar (hchars ch List.mem_cons_self)
  have hstop : after.takeWhile isTakenChar = [] := by
    cases after with
    | nil => rfl
    | cons x after =>
      exact List.takeWhile_cons_of_neg (by simp [isTakenChar_of_isBlank (hafter x List.mem_cons_self)])
  rw [skipSpaces, List.dropWhile_append_of_pos hbefore, List.cons_append,
    List.dropWhile_cons_of_neg (by simp [hblank]), ← List.cons_append,
    List.takeWhile_append_of_pos hchars, hstop, List.append_nil]

theorem ne_zero_of_isBlank {ch : Byte} (h : isBlank ch = true) : ch ≠ 0 := by
  rintro rfl
  exact absurd h (by decide)

/-- Digits with blanks around them are taken by the loop. -/
theorem isTaken_of_hasDigits {v digits : List Byte} (h : HasDigits v digits) :
    IsTaken v digits ∧ 0 ∉ v := by
  obtain ⟨hne, hdigits, before, after, rfl, hbefore, hafter⟩ := h
  obtain ⟨ch, tail, rfl⟩ := List.exists_cons_of_ne_nil hne
  refine ⟨⟨⟨ch, tail, rfl, hdigits ch List.mem_cons_self⟩,
    fun x hx => isTakenChar_of_isDigit (hdigits x hx), before, after, rfl, hbefore, hafter⟩, ?_⟩
  intro hzero
  rcases List.mem_append.mp hzero with hin | hin
  · exact ne_zero_of_isBlank (hbefore 0 hin) rfl
  · rcases List.mem_append.mp hin with hin | hin
    · exact absurd (hdigits 0 hin) (by decide)
    · exact ne_zero_of_isBlank (hafter 0 hin) rfl

theorem expireAfter_ofNat (now : Clock) (n : Nat) :
    now.expireAfter (UInt64.ofNat n) =
      (addSeconds now.nTicks (n % 2 ^ 64)).map fun nTicks => ⟨nTicks, 0⟩ := by
  rw [Clock.expireAfter, UInt64.toNat_ofNat']

theorem expireAfter_error {now : Clock} {nMaxAge : UInt64} {hRes : HResult}
    (h : now.expireAfter nMaxAge = .error hRes) : hRes = .mxArithmeticOverflow :=
  addSeconds_error (eq_error_of_map h)

/-- **Max-Age is read exactly** where the text that the loop takes is made of digits, with
seconds that fit into the ticks; or where the wrap is seen, or the date is out of range. -/
theorem maxAge_iff (now : Clock) (parseDate : List Byte → Except HResult DateTime)
    {szSrcA v rest : List Byte} {s : AttributeScan}
    (hread : ReadUpTo parseDate now.expireAfter szSrcA s) (hbegin : BeginsWithMaxAge s.sA v rest) :
    MaxAgeExact now parseDate szSrcA s v rest ↔
      ∀ taken nTicks, IsTaken (szStr v) taken → ¬ WrapSeen 0 taken →
        decimalFrom 0 taken % 2 ^ 64 < 2 ^ 63 →
        addSeconds now.nTicks (decimalFrom 0 taken % 2 ^ 64) = .ok nTicks →
        0 ∉ v ∧ (∀ ch ∈ taken, isDigit ch = true) ∧
          decimalFrom 0 taken * ticksPerSecond < 2 ^ 63 := by
  have hturn := @attributeTurn_maxAge parseDate now.expireAfter s.cookie _ _ _ hbegin
  have hstr : 0 ∉ v → szStr v = v := fun h0 => szStr_of_ne_zero fun ch hch h => h0 (h ▸ hch)
  constructor
  · intro hexact taken nTicks htaken hseen hlt hadd
    have hparse : parseMaxAge v = .ok (UInt64.ofNat (decimalFrom 0 taken)) := by
      rw [parseMaxAge_eq htaken, if_neg (by rintro (h | h); exacts [hseen h, by omega])]
    rw [hparse] at hturn
    dsimp only at hturn
    rw [expireAfter_ofNat, hadd] at hturn
    rcases hexact with ⟨hRes, -, hleave, -⟩ | ⟨digits, hdigits, hsmall, hgo⟩
    · exact absurd (hturn.symm.trans hleave) nofun
    · obtain ⟨htaken', hzero⟩ := isTaken_of_hasDigits hdigits
      obtain rfl : taken = digits := by rw [htaken.eq, htaken'.eq, hstr hzero]
      have hdate : nTicks = now.nTicks + (decimalFrom 0 taken * ticksPerSecond : Nat) := by
        have hscan := Sum.inl.inj (hturn.symm.trans hgo)
        have hcookie := congrArg (fun t : AttributeScan => t.cookie.cExpiresDt.nTicks) hscan
        exact hcookie
      rw [Nat.mod_eq_of_lt (by omega)] at hadd
      exact ⟨hzero, hdigits.2.1,
        (addSeconds_eq_sum_iff now.nonneg now.le_max hadd).mp hdate⟩
  · intro hcond
    have hrefused : ∀ hRes, hRes ≠ .sOk →
        attributeTurn parseDate now.expireAfter s = .inr (hRes, s.cookie) →
        MaxAgeExact now parseDate szSrcA s v rest := fun hRes hne h =>
      Or.inl ⟨hRes, hne, h, parseFromResponseHeader_of_inr hread h⟩
    cases hparse : parseMaxAge v with
    | error hRes =>
      rw [hparse] at hturn
      exact hrefused hRes (by rw [parseMaxAge_error hparse]; decide) hturn
    | ok nMaxAge =>
      obtain ⟨taken, htaken⟩ := exists_isTaken hparse
      rw [hparse] at hturn
      dsimp only at hturn
      rw [parseMaxAge_eq htaken] at hparse
      split at hparse
      · cases hparse
      next hseen =>
        obtain rfl := Except.ok.inj hparse
        cases hexpire : now.expireAfter (UInt64.ofNat (decimalFrom 0 taken)) with
        | error hRes =>
          rw [hexpire] at hturn
          exact hrefused hRes (by rw [expireAfter_error hexpire]; decide) hturn
        | ok cDt =>
          rw [hexpire] at hturn
          rw [expireAfter_ofNat] at hexpire
          obtain ⟨nTicks, hadd, rfl⟩ := exists_of_map_ok hexpire
          obtain ⟨hzero, hdigits, hfits⟩ := hcond taken nTicks htaken (fun h => hseen (Or.inl h))
            (by omega) hadd
          obtain ⟨⟨ch, tail, rfl, -⟩, -, haround⟩ := htaken
          rw [hstr hzero] at haround
          have hsmall : decimalFrom 0 (ch :: tail) < 2 ^ 63 :=
            Nat.lt_of_le_of_lt (Nat.le_mul_of_pos_right _ (by decide)) hfits
          rw [Nat.mod_eq_of_lt (by omega)] at hadd
          have hdate := (addSeconds_eq_sum_iff now.nonneg now.le_max hadd).mpr hfits
          refine Or.inr ⟨ch :: tail, ⟨List.cons_ne_nil _ _, hdigits, haround⟩, hsmall, ?_⟩
          rw [hturn, Clock.expires, hdate]

/-- The clock at the start of the calendar. -/
def Clock.zero : Clock := ⟨0, by decide, by decide⟩

/-- A header with one pair in front. -/
theorem readUpTo_pair {parseDate : List Byte → Except HResult DateTime}
    {expireAfter : UInt64 → Except HResult DateTime} {szSrcA sA : List Byte}
    (h : getPairA false (skipSpaces (skipHeaderName szSrcA)) = .ok ⟨ascii "n", ascii "v", sA⟩) :
    ReadUpTo parseDate expireAfter szSrcA
      ⟨{ FullCookie.clear with cStrNameA := ascii "n", cStrValueA := ascii "v" }, sA⟩ :=
  ⟨_, _, _, h, rfl, rfl, Relation.ReflTransGen.refl⟩

theorem beginsWithMaxAge_value {v : List Byte} (hv : chSemicolon ∉ v) :
    BeginsWithMaxAge (ascii " Max-Age=" ++ v) v [] :=
  ⟨ascii " ", ascii "Max-Age", [], by decide +kernel, by decide +kernel, by decide +kernel,
    by rw [List.append_nil]; rfl, hv, Or.inl ⟨rfl, rfl⟩⟩

/-- A minute. -/
theorem maxAge_minute :
    MaxAgeExact .zero (fun _ => .error .eFail) (ascii "n=v; Max-Age=60")
      ⟨{ FullCookie.clear with cStrNameA := ascii "n", cStrValueA := ascii "v" },
        ascii " Max-Age=60"⟩ (ascii "60") [] := by
  refine (maxAge_iff .zero _ (readUpTo_pair (by decide))
    (beginsWithMaxAge_value (by decide))).mpr ?_
  intro taken nTicks htaken _ _ _
  have heq : taken = ascii "60" := htaken.eq
  rw [heq]
  decide +kernel

/-- A letter is read as the digit of value 49. -/
theorem not_maxAgeExact :
    ¬∀ (now : Clock) (parseDate : List Byte → Except HResult DateTime) (szSrcA v rest : List Byte)
      (s : AttributeScan), ReadUpTo parseDate now.expireAfter szSrcA s →
      BeginsWithMaxAge s.sA v rest → MaxAgeExact now parseDate szSrcA s v rest := by
  intro hall
  have hbegin : BeginsWithMaxAge (ascii " Max-Age=1a") (ascii "1a") [] :=
    beginsWithMaxAge_value (by decide)
  have hexact := hall .zero (fun _ => .error .eFail) (ascii "n=v; Max-Age=1a") (ascii "1a") []
    ⟨{ FullCookie.clear with cStrNameA := ascii "n", cStrValueA := ascii "v" },
      ascii " Max-Age=1a"⟩ (readUpTo_pair (by decide)) hbegin
  rcases hexact with ⟨hRes, -, hleave, -⟩ | ⟨digits, hdigits, -, -⟩
  · have hparse : parseMaxAge (ascii "1a") = .ok 59 := by decide
    have hexpire : Clock.zero.expireAfter 59 = .ok ⟨590000000, 0⟩ := by decide
    rw [attributeTurn_maxAge hbegin, hparse] at hleave
    dsimp only at hleave
    rw [hexpire] at hleave
    cases hleave
  · have heq : digits = ascii "1a" := (isTaken_of_hasDigits hdigits).1.eq
    exact absurd (hdigits.2.1 0x61 (by rw [heq]; decide)) (by decide)

end MxLib.Http.HttpCookie
