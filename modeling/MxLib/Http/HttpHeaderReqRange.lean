import Mathlib.Data.List.Forall2
import MxLib.Http.HttpHeaderEntContentDisposition
import MxLib.Http.HttpHeaderEntContentLength

/-!
# Range

`CHttpHeaderReqRange::Parse`.  It checks the unit only of values that are too short to have one,
writes down the last `N` bytes as the first `N + 1`, and adds up its numbers as `Content-Length`
does.  What it reads is a list of texts with digits on both sides of a dash (`ListText`); which of
them it takes is `parseSets_written` and `exists_listText`.  The list always has room for one set
more.
-/

namespace MxLib.Http

/-- `RANGESET` -/
structure RangeSet where
  nByteStart : UInt64
  nByteEnd : UInt64
deriving DecidableEq, Repr

/-- `ULONGLONG_MAX` -/
def uLongLongMax : UInt64 := 0xFFFFFFFFFFFFFFFF

/-! ### Parse -/

/-- The starting byte, and what follows it and its blanks.  Its digits are added up as those of
`CHttpHeaderEntContentLength::Parse` are. -/
def rangeStart (sA : List Byte) : Except HResult (UInt64 × List Byte) :=
  if charAt sA 0 == chDash then .ok (0, sA)
  else if !isDigit (charAt sA 0) then .error .mxInvalidData
  else
    match lengthDigits 0 sA with
    | .error hRes => .error hRes
    | .ok (nByteStart, sA) => .ok (nByteStart, skipSpaces sA)

/-- The ending byte, and what follows it. -/
def rangeEnd (sA : List Byte) : Except HResult (UInt64 × List Byte) :=
  if isDigit (charAt sA 0) then lengthDigits 0 sA else .ok (uLongLongMax, sA)

/-- The set at the front of a text, and what follows it and its blanks. -/
def rangeSet (sA : List Byte) : Except HResult (RangeSet × List Byte) :=
  match rangeStart sA with
  | .error hRes => .error hRes
  | .ok (nByteStart, sA) =>
    if charAt sA 0 != chDash then .error .mxInvalidData
    else
      match rangeEnd (skipSpaces (sA.drop 1)) with
      | .error hRes => .error hRes
      | .ok (nByteEnd, sA) =>
        if nByteStart > nByteEnd then .error .mxInvalidData
        else .ok (⟨nByteStart, nByteEnd⟩, skipSpaces sA)

/-- The loop over the sets, with at most `fuel` of them left: the result and the list. -/
def parseSets : Nat → List RangeSet → List Byte → HResult × List RangeSet
  | 0, cRangeSetsList, _ => (.mxInvalidData, cRangeSetsList)
  | fuel + 1, cRangeSetsList, sA =>
    if skipSpaces sA = [] then (.sOk, cRangeSetsList)
    else
      match rangeSet (skipSpaces sA) with
      | .error hRes => (hRes, cRangeSetsList)
      | .ok (sRangeSet, []) => (.sOk, cRangeSetsList ++ [sRangeSet])
      | .ok (sRangeSet, ch :: sA) =>
        if ch == chComma then parseSets fuel (cRangeSetsList ++ [sRangeSet]) sA
        else (.mxInvalidData, cRangeSetsList ++ [sRangeSet])

/-- `Parse`, on top of the sets that are there. -/
def parseRange (cRangeSetsList : List RangeSet) (szValueA : List Byte) :
    HResult × List RangeSet :=
  let szValueA := skipSpaces szValueA
  if szValueA.length < 5 ∧ strNCompareA szValueA (ascii "bytes") 5 true = false then
    (.mxInvalidData, cRangeSetsList)
  else
    let szValueA := skipSpaces (szValueA.drop 5)
    if charAt szValueA 0 != chEquals then (.mxInvalidData, cRangeSetsList)
    else parseSets szValueA.length cRangeSetsList (szValueA.drop 1)

/-! ### The texts -/

/-- The digits on the two sides of a dash, and the blanks between the parts. -/
structure RangeText where
  before : Blanks
  first : List Byte
  afterFirst : Blanks
  beforeLast : Blanks
  last : List Byte
  after : Blanks
  first_digits : ∀ ch ∈ first, isDigit ch = true
  last_digits : ∀ ch ∈ last, isDigit ch = true

/-- The text in front of `rest`. -/
def RangeText.text (r : RangeText) (rest : List Byte) : List Byte :=
  r.before.text ++ (r.first ++ (r.afterFirst.text ++ chDash :: (r.beforeLast.text ++ (r.last ++
    (r.after.text ++ rest)))))

/-- The texts with commas between them. -/
def specText : List RangeText → List Byte
  | [] => []
  | r :: rs => r.text (if rs = [] then [] else chComma :: specText rs)

/-- The lists that the loop reads: there may be no text, and a comma after the last one. -/
inductive ListText : List Byte → List RangeText → Prop
  | nil (b : Blanks) : ListText b.text []
  | one (r : RangeText) : ListText (r.text []) [r]
  | cons (r : RangeText) {v : List Byte} {rs : List RangeText} : ListText v rs →
      ListText (r.text (chComma :: v)) (r :: rs)

theorem listText_specText {rs : List RangeText} (h : rs ≠ []) : ListText (specText rs) rs := by
  induction rs with
  | nil => exact absurd rfl h
  | cons r rs ih =>
    cases rs with
    | nil => exact ListText.one r
    | cons r' rs => exact ListText.cons r (ih (List.cons_ne_nil r' rs))

/-- The set that a text is recorded as, if it is. -/
def RangeText.record (r : RangeText) : RangeSet where
  nByteStart := UInt64.ofNat (decimalFrom 0 r.first)
  nByteEnd := if r.last = [] then uLongLongMax else UInt64.ofNat (decimalFrom 0 r.last)

/-- A digit shows that a number wrapped, or the numbers modulo `2 ^ 64` are in the wrong order. -/
def RangeText.Refused (r : RangeText) : Prop :=
  WrapSeen 0 r.first ∨ WrapSeen 0 r.last ∨ r.record.nByteStart > r.record.nByteEnd

/-! ### One set -/

theorem isDigit_chDash : isDigit chDash = false := by decide

theorem not_isBlank_of_isDigit {ch : Byte} (h : isDigit ch = true) : isBlank ch = false := by
  cases hb : isBlank ch with
  | false => rfl
  | true => rw [isDigit_of_isBlank hb] at h; cases h

/-- What follows a text: nothing or a comma. -/
def Stops (rest : List Byte) : Prop := ∀ ch ∈ rest.head?, ch = chComma

theorem Stops.skipSpaces {rest : List Byte} (h : Stops rest) : skipSpaces rest = rest := by
  cases rest with
  | nil => rfl
  | cons ch rest =>
    obtain rfl := h ch rfl
    exact skipSpaces_cons (by decide) rest

theorem head_blanks {rest : List Byte} (hrest : ∀ ch ∈ rest.head?, isDigit ch = false)
    (b : Blanks) : ∀ ch ∈ (b.text ++ rest).head?, isDigit ch = false := by
  obtain ⟨text, htext⟩ := b
  cases text with
  | nil => exact hrest
  | cons ch text =>
    intro c hc
    obtain rfl := Option.some.inj hc
    exact isDigit_of_isBlank (List.all_eq_true.mp htext ch List.mem_cons_self)

theorem zero_mod : (0 : UInt64).toNat = 0 % 2 ^ 64 := rfl

open Classical in
/-- Digits in front of something else are a number, unless one of them shows a wrap. -/
theorem lengthDigits_zero {digits rest : List Byte} (hdigits : ∀ ch ∈ digits, isDigit ch = true)
    (hrest : ∀ ch ∈ rest.head?, isDigit ch = false) :
    lengthDigits 0 (digits ++ rest) =
      if WrapSeen 0 digits then .error .mxArithmeticOverflow
      else .ok (UInt64.ofNat (decimalFrom 0 digits), rest) :=
  lengthDigits_append hdigits hrest zero_mod

open Classical in
theorem rangeStart_text (r : RangeText) (rest : List Byte) :
    rangeStart (skipSpaces (r.before.text ++ (r.first ++ (r.afterFirst.text ++ chDash :: rest)))) =
      if WrapSeen 0 r.first then .error .mxArithmeticOverflow
      else .ok (r.record.nByteStart, chDash :: rest) := by
  have hdash : skipSpaces (chDash :: rest) = chDash :: rest := skipSpaces_cons (by decide) rest
  rw [skipSpaces_blanks]
  cases hfirst : r.first with
  | nil =>
    rw [List.nil_append, skipSpaces_blanks, hdash, if_neg (wrapSeen_nil 0), RangeText.record, hfirst]
    rfl
  | cons ch digits =>
    have hall := r.first_digits
    rw [hfirst] at hall
    have hch := hall ch List.mem_cons_self
    have hnot : ¬ (ch == chDash) = true := by
      rintro h
      rw [beq_iff_eq.mp h, isDigit_chDash] at hch
      cases hch
    rw [List.cons_append, skipSpaces_cons (not_isBlank_of_isDigit hch), rangeStart,
      charAt_cons_zero, if_neg hnot, hch, Bool.not_true, if_neg Bool.false_ne_true,
      ← List.cons_append, lengthDigits_zero hall (head_blanks (by simp [isDigit_chDash]) _)]
    by_cases hseen : WrapSeen 0 (ch :: digits)
    · rw [if_pos hseen, if_pos hseen]
    · rw [if_neg hseen, if_neg hseen, RangeText.record, hfirst]
      simp only [skipSpaces_blanks, hdash]

open Classical in
theorem rangeEnd_text (r : RangeText) {rest : List Byte} (hrest : Stops rest) :
    rangeEnd (skipSpaces (r.beforeLast.text ++ (r.last ++ (r.after.text ++ rest)))) =
      if WrapSeen 0 r.last then .error .mxArithmeticOverflow
      else .ok (r.record.nByteEnd, if r.last = [] then rest else r.after.text ++ rest) := by
  have hhead : ∀ ch ∈ rest.head?, isDigit ch = false := fun ch hch => by
    rw [hrest ch hch]
    decide
  rw [skipSpaces_blanks]
  cases hlast : r.last with
  | nil =>
    have hnot : isDigit (charAt rest 0) = false := by
      cases rest with
      | nil => decide
      | cons ch rest => exact hhead ch rfl
    rw [List.nil_append, skipSpaces_blanks, hrest.skipSpaces, rangeEnd, hnot,
      if_neg Bool.false_ne_true, if_neg (wrapSeen_nil 0), RangeText.record, hlast]
    rfl
  | cons ch digits =>
    have hall := r.last_digits
    rw [hlast] at hall
    have hch := hall ch List.mem_cons_self
    rw [List.cons_append, skipSpaces_cons (not_isBlank_of_isDigit hch), rangeEnd, charAt_cons_zero,
      if_pos hch, ← List.cons_append, lengthDigits_zero hall (head_blanks hhead _), RangeText.record,
      hlast, if_neg (List.cons_ne_nil ch digits), if_neg (List.cons_ne_nil ch digits)]

open Classical in
/-- **A text is read as its set**, or refused. -/
theorem rangeSet_text (r : RangeText) {rest : List Byte} (hrest : Stops rest) :
    rangeSet (skipSpaces (r.text rest)) =
      if WrapSeen 0 r.first ∨ WrapSeen 0 r.last then .error .mxArithmeticOverflow
      else if r.record.nByteStart > r.record.nByteEnd then .error .mxInvalidData
      else .ok (r.record, rest) := by
  rw [rangeSet, RangeText.text, rangeStart_text]
  by_cases hfirst : WrapSeen 0 r.first
  · rw [if_pos hfirst, if_pos (Or.inl hfirst)]
  rw [if_neg hfirst]
  simp only [charAt_cons_zero, bne_self_eq_false, List.drop_succ_cons, List.drop_zero]
  rw [rangeEnd_text r hrest, if_neg Bool.false_ne_true]
  by_cases hlast : WrapSeen 0 r.last
  · rw [if_pos hlast, if_pos (Or.inr hlast)]
  have hend : skipSpaces (if r.last = [] then rest else r.after.text ++ rest) = rest := by
    split
    · exact hrest.skipSpaces
    · rw [skipSpaces_blanks, hrest.skipSpaces]
  rw [if_neg hlast, if_neg (not_or.mpr ⟨hfirst, hlast⟩)]
  simp only [hend]

/-- What the digits leave begins with something else. -/
theorem lengthDigits_ok {sA rest : List Byte} {n : UInt64}
    (h : lengthDigits 0 sA = .ok (n, rest)) : rest = sA.dropWhile isDigit := by
  have hsplit : sA = sA.takeWhile isDigit ++ sA.dropWhile isDigit :=
    List.takeWhile_append_dropWhile.symm
  have hhead : ∀ ch ∈ (sA.dropWhile isDigit).head?, isDigit ch = false := by
    intro ch hch
    have hnot := List.head?_dropWhile_not isDigit sA
    rw [Option.mem_def.mp hch] at hnot
    simpa using hnot
  rw [hsplit, lengthDigits_zero (fun ch hch => List.mem_takeWhile_imp hch) hhead] at h
  split at h
  · cases h
  · exact (Prod.mk.inj (Except.ok.inj h)).2.symm

theorem eq_blanks_append (sA : List Byte) : ∃ b : Blanks, sA = b.text ++ skipSpaces sA :=
  ⟨⟨sA.takeWhile isBlank, List.all_eq_true.mpr fun _ hch => List.mem_takeWhile_imp hch⟩,
    List.takeWhile_append_dropWhile.symm⟩

/-- What is in front of the rest of a number is its digits. -/
theorem eq_digits_append {sA rest : List Byte} {n : UInt64} (h : lengthDigits 0 sA = .ok (n, rest)) :
    ∃ digits, (∀ ch ∈ digits, isDigit ch = true) ∧ sA = digits ++ rest := by
  refine ⟨sA.takeWhile isDigit, fun ch hch => List.mem_takeWhile_imp hch, ?_⟩
  rw [lengthDigits_ok h]
  exact List.takeWhile_append_dropWhile.symm

/-- What is read as a starting byte is digits and blanks. -/
theorem eq_rangeStart {sA rest : List Byte} {n : UInt64} (h : rangeStart sA = .ok (n, rest)) :
    ∃ digits, (∀ ch ∈ digits, isDigit ch = true) ∧ ∃ b : Blanks, sA = digits ++ (b.text ++ rest) := by
  unfold rangeStart at h
  split at h
  · obtain ⟨-, rfl⟩ := Prod.mk.inj (Except.ok.inj h)
    exact ⟨[], nofun, Blanks.none, rfl⟩
  split at h
  · cases h
  cases hlen : lengthDigits 0 sA with
  | error hRes =>
    rw [hlen] at h
    cases h
  | ok r =>
    obtain ⟨m, tail⟩ := r
    rw [hlen] at h
    obtain ⟨-, rfl⟩ := Prod.mk.inj (Except.ok.inj h)
    obtain ⟨digits, hdigits, rfl⟩ := eq_digits_append hlen
    obtain ⟨b, hb⟩ := eq_blanks_append tail
    exact ⟨digits, hdigits, b, by rw [← hb]⟩

theorem eq_rangeEnd {sA rest : List Byte} {n : UInt64} (h : rangeEnd sA = .ok (n, rest)) :
    ∃ digits, (∀ ch ∈ digits, isDigit ch = true) ∧ sA = digits ++ rest := by
  unfold rangeEnd at h
  split at h
  · exact eq_digits_append h
  · obtain ⟨-, rfl⟩ := Prod.mk.inj (Except.ok.inj h)
    exact ⟨[], nofun, rfl⟩

/-- **What is read as a set is a text.** -/
theorem exists_rangeText {v rest : List Byte} {sRangeSet : RangeSet}
    (h : rangeSet (skipSpaces v) = .ok (sRangeSet, rest)) : ∃ r : RangeText, v = r.text rest := by
  obtain ⟨before, hbefore⟩ := eq_blanks_append v
  unfold rangeSet at h
  cases hstart : rangeStart (skipSpaces v) with
  | error hRes =>
    rw [hstart] at h
    cases h
  | ok start =>
    obtain ⟨nByteStart, sA⟩ := start
    obtain ⟨first, hfirst, afterFirst, hv⟩ := eq_rangeStart hstart
    rw [hstart] at h
    simp only at h
    split at h
    · cases h
    case isFalse hdash =>
      obtain ⟨sA', rfl⟩ : ∃ sA', sA = chDash :: sA' := by
        cases sA with
        | nil => exact absurd (by decide) hdash
        | cons ch sA' =>
          rw [charAt_cons_zero, bne_iff_ne, not_not] at hdash
          exact ⟨sA', by rw [hdash]⟩
      rw [List.drop_succ_cons, List.drop_zero] at h
      obtain ⟨beforeLast, hlast⟩ := eq_blanks_append sA'
      cases hend : rangeEnd (skipSpaces sA') with
      | error hRes =>
        rw [hend] at h
        cases h
      | ok last =>
        obtain ⟨nByteEnd, sA''⟩ := last
        obtain ⟨digits, hdigits, hlast'⟩ := eq_rangeEnd hend
        rw [hend] at h
        simp only at h
        split at h
        · cases h
        · obtain ⟨-, rfl⟩ := Prod.mk.inj (Except.ok.inj h)
          obtain ⟨after, hafter⟩ := eq_blanks_append sA''
          refine ⟨⟨before, first, afterFirst, beforeLast, digits, after, hfirst, hdigits⟩, ?_⟩
          rw [RangeText.text, ← hafter, ← hlast', ← hlast, ← hv, ← hbefore]

theorem lengthDigits_error {sA : List Byte} {n : UInt64} {hRes : HResult}
    (h : lengthDigits n sA = .error hRes) : hRes ≠ .sOk := by
  induction sA generalizing n with
  | nil => cases h
  | cons ch sA ih =>
    rw [lengthDigits] at h
    split at h
    · simp only at h
      split at h
      · cases h
        decide
      split at h
      · cases h
        decide
      · exact ih h
    · cases h

theorem rangeStart_error {sA : List Byte} {hRes : HResult} (h : rangeStart sA = .error hRes) :
    hRes ≠ .sOk := by
  unfold rangeStart at h
  split at h
  · cases h
  split at h
  · cases h
    decide
  cases hlen : lengthDigits 0 sA with
  | error hRes' =>
    rw [hlen] at h
    cases h
    exact lengthDigits_error hlen
  | ok r =>
    rw [hlen] at h
    cases h

theorem rangeEnd_error {sA : List Byte} {hRes : HResult} (h : rangeEnd sA = .error hRes) :
    hRes ≠ .sOk := by
  unfold rangeEnd at h
  split at h
  · exact lengthDigits_error h
  · cases h

/-- A failed set is reported. -/
theorem rangeSet_error {sA : List Byte} {hRes : HResult} (h : rangeSet sA = .error hRes) :
    hRes ≠ .sOk := by
  unfold rangeSet at h
  cases hstart : rangeStart sA with
  | error hRes' =>
    rw [hstart] at h
    cases h
    exact rangeStart_error hstart
  | ok start =>
    rw [hstart] at h
    simp only at h
    split at h
    · cases h
      decide
    cases hend : rangeEnd (skipSpaces (start.2.drop 1)) with
    | error hRes' =>
      rw [hend] at h
      cases h
      exact rangeEnd_error hend
    | ok last =>
      rw [hend] at h
      simp only at h
      split at h
      · cases h
        decide
      · cases h

/-! ### The loop -/

theorem skipSpaces_text_ne_nil (r : RangeText) (rest : List Byte) : skipSpaces (r.text rest) ≠ [] := by
  intro h
  have hdash : isBlank chDash = true := by
    apply skipSpaces_eq_nil.mp h
    simp [RangeText.text]
  exact absurd hdash (by decide)

theorem length_lt_text (r : RangeText) (rest : List Byte) : rest.length < (r.text rest).length := by
  simp only [RangeText.text, List.length_append, List.length_cons]
  omega

theorem stops_nil : Stops [] := nofun

theorem stops_comma (rest : List Byte) : Stops (chComma :: rest) := by
  intro ch hch
  exact (Option.some.inj hch).symm

theorem rangeSet_ok {r : RangeText} (h : ¬ r.Refused) {rest : List Byte} (hrest : Stops rest) :
    rangeSet (skipSpaces (r.text rest)) = .ok (r.record, rest) := by
  have hnot := not_or.mp h
  have hnot' := not_or.mp hnot.2
  rw [rangeSet_text r hrest, if_neg (not_or.mpr ⟨hnot.1, hnot'.1⟩), if_neg hnot'.2]

theorem rangeSet_refused {r : RangeText} (h : r.Refused) {rest : List Byte} (hrest : Stops rest) :
    ∃ hRes, rangeSet (skipSpaces (r.text rest)) = .error hRes ∧ hRes ≠ .sOk := by
  rw [rangeSet_text r hrest]
  by_cases hwrap : WrapSeen 0 r.first ∨ WrapSeen 0 r.last
  · rw [if_pos hwrap]
    exact ⟨_, rfl, by decide⟩
  · have horder : r.record.nByteStart > r.record.nByteEnd :=
      (h.resolve_left fun h => hwrap (Or.inl h)).resolve_left fun h => hwrap (Or.inr h)
    rw [if_neg hwrap, if_pos horder]
    exact ⟨_, rfl, by decide⟩

/-- **A list of texts is read as its sets** if none of them is refused. -/
theorem parseSets_ok {v : List Byte} {rs : List RangeText} (h : ListText v rs)
    (hrs : ∀ r ∈ rs, ¬ r.Refused) {fuel : Nat} (hfuel : v.length < fuel)
    (cRangeSetsList : List RangeSet) :
    parseSets fuel cRangeSetsList v = (.sOk, cRangeSetsList ++ rs.map RangeText.record) := by
  induction h generalizing fuel cRangeSetsList with
  | nil b =>
    obtain ⟨fuel, rfl⟩ := Nat.exists_eq_succ_of_ne_zero (Nat.ne_of_gt (Nat.zero_lt_of_lt hfuel))
    have hskip : skipSpaces b.text = [] := skipSpaces_eq_nil.mpr (List.all_eq_true.mp b.isBlank)
    rw [parseSets, if_pos hskip, List.map_nil, List.append_nil]
  | one r =>
    obtain ⟨fuel, rfl⟩ := Nat.exists_eq_succ_of_ne_zero (Nat.ne_of_gt (Nat.zero_lt_of_lt hfuel))
    rw [parseSets, if_neg (skipSpaces_text_ne_nil r []), rangeSet_ok (hrs r List.mem_cons_self) stops_nil]
    rfl
  | @cons r v rs _ ih =>
    obtain ⟨fuel, rfl⟩ := Nat.exists_eq_succ_of_ne_zero (Nat.ne_of_gt (Nat.zero_lt_of_lt hfuel))
    have hlt := length_lt_text r (chComma :: v)
    rw [List.length_cons] at hlt
    rw [parseSets, if_neg (skipSpaces_text_ne_nil r _),
      rangeSet_ok (hrs r List.mem_cons_self) (stops_comma v)]
    simp only [beq_self_eq_true, if_true]
    rw [ih (fun r hr => hrs r (List.mem_cons_of_mem _ hr)) (by omega), List.map_cons,
      List.append_assoc, List.singleton_append]

/-- A list with a text that is refused is not accepted. -/
theorem parseSets_refused {v : List Byte} {rs : List RangeText} (h : ListText v rs)
    (hrs : ∃ r ∈ rs, r.Refused) (fuel : Nat) (cRangeSetsList : List RangeSet) :
    (parseSets fuel cRangeSetsList v).1 ≠ .sOk := by
  induction h generalizing fuel cRangeSetsList with
  | nil b =>
    obtain ⟨r, hr, -⟩ := hrs
    cases hr
  | one r =>
    cases fuel with
    | zero => exact nofun
    | succ fuel =>
      obtain ⟨r', hr', href⟩ := hrs
      obtain rfl := List.mem_singleton.mp hr'
      obtain ⟨hRes, hset, hne⟩ := rangeSet_refused href stops_nil
      rw [parseSets, if_neg (skipSpaces_text_ne_nil r' []), hset]
      exact hne
  | @cons r v rs _ ih =>
    cases fuel with
    | zero => exact nofun
    | succ fuel =>
      rw [parseSets, if_neg (skipSpaces_text_ne_nil r _)]
      by_cases href : r.Refused
      · obtain ⟨hRes, hset, hne⟩ := rangeSet_refused href (stops_comma v)
        rw [hset]
        exact hne
      · rw [rangeSet_ok href (stops_comma v)]
        simp only [beq_self_eq_true, if_true]
        obtain ⟨r', hr', href'⟩ := hrs
        rcases List.mem_cons.mp hr' with rfl | hmem
        · exact absurd href' href
        · exact ih ⟨r', hmem, href'⟩ fuel _

/-- **What is accepted is a list of texts.** -/
theorem exists_listText {fuel : Nat} {cRangeSetsList : List RangeSet} {v : List Byte}
    (h : (parseSets fuel cRangeSetsList v).1 = .sOk) : ∃ rs, ListText v rs := by
  induction fuel generalizing cRangeSetsList v with
  | zero => cases h
  | succ fuel ih =>
    rw [parseSets] at h
    split at h
    case isTrue hskip =>
      obtain ⟨b, hb⟩ := eq_blanks_append v
      rw [hskip, List.append_nil] at hb
      exact ⟨[], hb ▸ ListText.nil b⟩
    case isFalse hskip =>
      split at h
      case h_1 hRes hset => exact absurd h (rangeSet_error hset)
      case h_2 sRangeSet hset =>
        obtain ⟨r, rfl⟩ := exists_rangeText hset
        exact ⟨[r], ListText.one r⟩
      case h_3 sRangeSet ch sA hset =>
        split at h
        case isTrue hcomma =>
          obtain ⟨rs, hrs⟩ := ih h
          obtain ⟨r, rfl⟩ := exists_rangeText hset
          rw [beq_iff_eq.mp hcomma]
          exact ⟨r :: rs, ListText.cons r hrs⟩
        case isFalse => cases h

/-! ### The value -/

def IsBytes (szUnitA : List Byte) : Prop := szUnitA.map lowerA = ascii "bytes"

/-- How a header with a list of ranges is written. -/
structure RangeLayout where
  lead : Blanks
  szUnitA : List Byte
  unitEnd : Blanks
  isBytes : IsBytes szUnitA

def RangeLayout.value (l : RangeLayout) (rs : List RangeText) : List Byte :=
  l.lead.text ++ (l.szUnitA ++ (l.unitEnd.text ++ chEquals :: specText rs))

/-- The text has a number on some side of the dash. -/
def RangeText.IsSpec (r : RangeText) : Prop := r.first ≠ [] ∨ r.last ≠ []

/-- A text with two numbers has them in order, and they are below `2 ^ 64`. -/
def RangeText.InOrder (r : RangeText) : Prop :=
  r.first ≠ [] → r.last ≠ [] →
    decimalFrom 0 r.first ≤ decimalFrom 0 r.last ∧ decimalFrom 0 r.last < 2 ^ 64

/-- The set is the range that the text denotes: one that starts with the first byte is not the end
of anything. -/
def Records (r : RangeText) (sRangeSet : RangeSet) : Prop :=
  if r.first = [] then sRangeSet.nByteStart ≠ 0
  else sRangeSet.nByteStart.toNat = decimalFrom 0 r.first ∧
    if r.last = [] then sRangeSet.nByteEnd = uLongLongMax
    else sRangeSet.nByteEnd.toNat = decimalFrom 0 r.last

/-- The unit of the value is `bytes`. -/
def HasBytesUnit (v : List Byte) : Prop :=
  ∃ (b : Blanks) (szUnitA : List Byte) (b' : Blanks) (w : List Byte), IsBytes szUnitA ∧
    v = b.text ++ (szUnitA ++ (b'.text ++ chEquals :: w))

/-- **What `Parse` should do with a value**: take a list of ranges exactly if they are in order and
fit, record what they denote, and refuse other units. -/
def RangeExact (v : List Byte) : Prop :=
  (∀ (l : RangeLayout) rs, rs ≠ [] → (∀ r ∈ rs, r.IsSpec) → v = l.value rs → ∀ cRangeSetsList,
    ((parseRange cRangeSetsList v).1 = .sOk ↔ ∀ r ∈ rs, r.InOrder) ∧
    ((parseRange cRangeSetsList v).1 = .sOk → ∃ sets,
      (parseRange cRangeSetsList v).2 = cRangeSetsList ++ sets ∧ List.Forall₂ Records rs sets)) ∧
  (¬ HasBytesUnit v → ∀ cRangeSetsList, (parseRange cRangeSetsList v).1 ≠ .sOk)

/-- Five characters stand where the unit is, and no text behind them is refused. -/
def TakenAnyway (v : List Byte) : Prop :=
  ∃ (b : Blanks) (szUnitA : List Byte) (b' : Blanks) (w : List Byte) (rs : List RangeText),
    szUnitA.length = 5 ∧ isBlank (charAt szUnitA 0) = false ∧
    v = b.text ++ (szUnitA ++ (b'.text ++ chEquals :: w)) ∧ ListText w rs ∧ ∀ r ∈ rs, ¬ r.Refused

/-- Either all texts have a number that fits in front of the dash and are in order, or some are not
in order and some are refused. -/
def SpecsSafe (rs : List RangeText) : Prop :=
  (∀ r ∈ rs, r.InOrder ∧ r.first ≠ [] ∧ decimalFrom 0 r.first < 2 ^ 64) ∨
    (∃ r ∈ rs, ¬ r.InOrder) ∧ ∃ r ∈ rs, r.Refused

theorem parseRange_unit {szUnitA : List Byte} (hlen : szUnitA.length = 5)
    (hblank : isBlank (charAt szUnitA 0) = false) (b b' : Blanks) (w : List Byte)
    (cRangeSetsList : List RangeSet) :
    parseRange cRangeSetsList (b.text ++ (szUnitA ++ (b'.text ++ chEquals :: w))) =
      parseSets (w.length + 1) cRangeSetsList w := by
  obtain ⟨ch, unit, rfl⟩ : ∃ ch unit, szUnitA = ch :: unit := by
    cases szUnitA with
    | nil => cases hlen
    | cons ch unit => exact ⟨ch, unit, rfl⟩
  have hskip : skipSpaces (b.text ++ ((ch :: unit) ++ (b'.text ++ chEquals :: w))) =
      (ch :: unit) ++ (b'.text ++ chEquals :: w) := by
    rw [charAt_cons_zero] at hblank
    rw [skipSpaces_blanks, List.cons_append, skipSpaces_cons hblank]
  have hequals : skipSpaces (chEquals :: w) = chEquals :: w := skipSpaces_cons (by decide) w
  have hlong : ¬ ((ch :: unit) ++ (b'.text ++ chEquals :: w)).length < 5 := by
    rw [List.length_append, hlen]
    omega
  rw [parseRange]
  simp only [hskip]
  rw [if_neg (fun h => hlong h.1), List.drop_append_of_le_length (Nat.le_of_eq hlen.symm),
    List.drop_eq_nil_of_le (Nat.le_of_eq hlen), List.nil_append, skipSpaces_blanks, hequals,
    charAt_cons_zero, if_neg (by decide)]
  rfl

/-- What the blanks leave does not begin with a blank. -/
theorem isBlank_take_skipSpaces (v : List Byte) :
    isBlank (charAt ((skipSpaces v).take 5) 0) = false := by
  have hhead := List.head?_dropWhile_not isBlank v
  cases hskip : skipSpaces v with
  | nil => decide
  | cons ch rest =>
    rw [show v.dropWhile isBlank = ch :: rest from hskip] at hhead
    exact hhead

/-- **A value is accepted exactly if five characters stand where the unit is** and no text behind
them is refused. -/
theorem parseRange_ok_iff (cRangeSetsList : List RangeSet) (v : List Byte) :
    (parseRange cRangeSetsList v).1 = .sOk ↔ TakenAnyway v := by
  constructor
  · intro h
    obtain ⟨b, hb⟩ := eq_blanks_append v
    rw [parseRange] at h
    simp only at h
    split at h
    · cases h
    split at h
    · cases h
    case isFalse hequals =>
      have hlong : 5 < (skipSpaces v).length := by
        by_contra hshort
        rw [List.drop_eq_nil_of_le (Nat.not_lt.mp hshort)] at hequals
        exact hequals (by decide)
      obtain ⟨b', hb'⟩ := eq_blanks_append ((skipSpaces v).drop 5)
      obtain ⟨w, hw⟩ : ∃ w, skipSpaces ((skipSpaces v).drop 5) = chEquals :: w := by
        cases hrest : skipSpaces ((skipSpaces v).drop 5) with
        | nil =>
          rw [hrest] at hequals
          exact absurd (by decide) hequals
        | cons ch w =>
          rw [hrest, charAt_cons_zero, bne_iff_ne, not_not] at hequals
          exact ⟨w, by rw [hequals]⟩
      rw [hw] at h hb'
      obtain ⟨rs, hrs⟩ := exists_listText h
      refine ⟨b, (skipSpaces v).take 5, b', w, rs, ?_, ?_, ?_, hrs, ?_⟩
      · rw [List.length_take]
        omega
      · exact isBlank_take_skipSpaces v
      · rw [← hb', List.take_append_drop, ← hb]
      · intro r hr href
        exact parseSets_refused hrs ⟨r, hr, href⟩ _ _ h
  · rintro ⟨b, szUnitA, b', w, rs, hlen, hblank, rfl, hlist, hrs⟩
    rw [parseRange_unit hlen hblank, parseSets_ok hlist hrs (Nat.lt_succ_self _)]

theorem isBlank_of_isBytes {szUnitA : List Byte} (h : IsBytes szUnitA) :
    szUnitA.length = 5 ∧ isBlank (charAt szUnitA 0) = false := by
  refine ⟨by simpa [IsBytes, ascii] using congrArg List.length h, ?_⟩
  cases szUnitA with
  | nil => decide
  | cons ch unit =>
    have hch : lowerA ch = 0x62 := (List.cons.inj h).1
    rw [charAt_cons_zero]
    cases hb : isBlank ch with
    | false => rfl
    | true =>
      simp only [isBlank, Bool.or_eq_true, beq_iff_eq] at hb
      rcases hb with rfl | rfl <;> exact absurd hch (by decide)

theorem parseRange_value (l : RangeLayout) (rs : List RangeText) (cRangeSetsList : List RangeSet) :
    parseRange cRangeSetsList (l.value rs) =
      parseSets ((specText rs).length + 1) cRangeSetsList (specText rs) :=
  parseRange_unit (isBlank_of_isBytes l.isBytes).1 (isBlank_of_isBytes l.isBytes).2 l.lead l.unitEnd
    (specText rs) cRangeSetsList

/-- A list of texts is accepted exactly if none of them is refused. -/
theorem parseRange_value_ok_iff (l : RangeLayout) {rs : List RangeText} (hne : rs ≠ [])
    (cRangeSetsList : List RangeSet) :
    (parseRange cRangeSetsList (l.value rs)).1 = .sOk ↔ ∀ r ∈ rs, ¬ r.Refused := by
  rw [parseRange_value]
  constructor
  · intro h r hr href
    exact parseSets_refused (listText_specText hne) ⟨r, hr, href⟩ _ _ h
  · intro h
    rw [parseSets_ok (listText_specText hne) h (Nat.lt_succ_self _)]

/-! ### Exact ranges -/

/-- A text in order whose numbers fit is not refused, and recorded as what it denotes. -/
theorem RangeText.InOrder.records {r : RangeText} (h : r.InOrder) (hfirst : r.first ≠ [])
    (hfits : decimalFrom 0 r.first < 2 ^ 64) : ¬ r.Refused ∧ Records r r.record := by
  have hstart : r.record.nByteStart.toNat = decimalFrom 0 r.first :=
    UInt64.toNat_ofNat_of_lt' hfits
  by_cases hlast : r.last = []
  · have hend : r.record.nByteEnd = uLongLongMax := if_pos hlast
    refine ⟨?_, ?_⟩
    · rintro (hseen | hseen | horder)
      · exact not_wrapSeen_of_lt hfits hseen
      · rw [hlast] at hseen
        exact wrapSeen_nil 0 hseen
      · rw [hend, gt_iff_lt, UInt64.lt_iff_toNat_lt] at horder
        have hlt := r.record.nByteStart.toNat_lt
        change 2 ^ 64 - 1 < r.record.nByteStart.toNat at horder
        omega
    · rw [Records, if_neg hfirst, if_pos hlast]
      exact ⟨hstart, hend⟩
  · obtain ⟨hle, hlt⟩ := h hfirst hlast
    have hend : r.record.nByteEnd.toNat = decimalFrom 0 r.last := by
      change (if r.last = [] then uLongLongMax else UInt64.ofNat (decimalFrom 0 r.last)).toNat = _
      rw [if_neg hlast, UInt64.toNat_ofNat_of_lt' hlt]
    refine ⟨?_, ?_⟩
    · rintro (hseen | hseen | horder)
      · exact not_wrapSeen_of_lt hfits hseen
      · exact not_wrapSeen_of_lt hlt hseen
      · rw [gt_iff_lt, UInt64.lt_iff_toNat_lt, hstart, hend] at horder
        omega
    · rw [Records, if_neg hfirst, if_neg hlast]
      exact ⟨hstart, hend⟩

/-- A text that is recorded as what it denotes has a number in front of the dash, and it fits. -/
theorem Records.fits {r : RangeText} (h : Records r r.record) :
    r.first ≠ [] ∧ decimalFrom 0 r.first < 2 ^ 64 := by
  by_cases hfirst : r.first = []
  · rw [Records, if_pos hfirst, RangeText.record, hfirst] at h
    exact absurd rfl h
  · rw [Records, if_neg hfirst] at h
    exact ⟨hfirst, h.1 ▸ r.record.nByteStart.toNat_lt⟩

theorem parseRange_value_exact_iff (l : RangeLayout) {rs : List RangeText} (hne : rs ≠ [])
    (cRangeSetsList : List RangeSet) :
    (((parseRange cRangeSetsList (l.value rs)).1 = .sOk ↔ ∀ r ∈ rs, r.InOrder) ∧
      ((parseRange cRangeSetsList (l.value rs)).1 = .sOk → ∃ sets,
        (parseRange cRangeSetsList (l.value rs)).2 = cRangeSetsList ++ sets ∧
          List.Forall₂ Records rs sets)) ↔ SpecsSafe rs := by
  have hok := parseRange_value_ok_iff l hne cRangeSetsList
  rw [hok]
  have hlist : (∀ r ∈ rs, ¬ r.Refused) → (parseRange cRangeSetsList (l.value rs)).2 =
      cRangeSetsList ++ rs.map RangeText.record := by
    intro h
    rw [parseRange_value, parseSets_ok (listText_specText hne) h (Nat.lt_succ_self _)]
  constructor
  · rintro ⟨haccept, hrecord⟩
    by_cases horder : ∀ r ∈ rs, r.InOrder
    · left
      have hnot := haccept.mpr horder
      obtain ⟨sets, hsets, hall⟩ := hrecord hnot
      rw [hlist hnot] at hsets
      obtain rfl := List.append_cancel_left hsets
      rw [List.forall₂_map_right_iff, List.forall₂_same] at hall
      exact fun r hr => ⟨horder r hr, (hall r hr).fits⟩
    · right
      refine ⟨by simpa using horder, ?_⟩
      by_contra hnone
      exact horder (haccept.mp fun r hr href => hnone ⟨r, hr, href⟩)
  · rintro (hsafe | ⟨⟨r, hr, hwrong⟩, r', hr', href⟩)
    · have hall := fun r hr => (hsafe r hr).1.records (hsafe r hr).2.1 (hsafe r hr).2.2
      refine ⟨⟨fun _ r hr => (hsafe r hr).1, fun _ r hr => (hall r hr).1⟩, fun h => ?_⟩
      refine ⟨rs.map RangeText.record, hlist h, ?_⟩
      rw [List.forall₂_map_right_iff, List.forall₂_same]
      exact fun r hr => (hall r hr).2
    · refine ⟨⟨fun h => absurd href (h r' hr'), fun h => absurd (h r hr) hwrong⟩, fun h => ?_⟩
      exact absurd href (h r' hr')

/-- **Where ranges are read right**: lists whose texts all have a number that fits in front of the
dash and are in order, or have one out of order and one that is refused; and values with another
unit that do not have five characters in its place, or a text that is refused behind them. -/
theorem rangeExact_iff (v : List Byte) :
    RangeExact v ↔
      (∀ (l : RangeLayout) rs, rs ≠ [] → (∀ r ∈ rs, r.IsSpec) → v = l.value rs → SpecsSafe rs) ∧
      (TakenAnyway v → HasBytesUnit v) := by
  constructor
  · rintro ⟨hlists, hunits⟩
    refine ⟨?_, ?_⟩
    · rintro l rs hne hspec rfl
      exact (parseRange_value_exact_iff l hne []).mp (hlists l rs hne hspec rfl [])
    · intro htaken
      by_contra hunit
      exact hunits hunit [] ((parseRange_ok_iff [] v).mpr htaken)
  · rintro ⟨hlists, hunits⟩
    refine ⟨?_, ?_⟩
    · rintro l rs hne hspec rfl cRangeSetsList
      exact (parseRange_value_exact_iff l hne cRangeSetsList).mpr (hlists l rs hne hspec rfl)
    · intro hunit cRangeSetsList hok
      exact hunit (hunits ((parseRange_ok_iff cRangeSetsList v).mp hok))

/-- The value `bytes=-5`. -/
def lastFive : RangeText where
  before := Blanks.none
  first := []
  afterFirst := Blanks.none
  beforeLast := Blanks.none
  last := ascii "5"
  after := Blanks.none
  first_digits := nofun
  last_digits := List.all_eq_true.mp (by decide)

def bytesLayout : RangeLayout where
  lead := Blanks.none
  szUnitA := ascii "bytes"
  unitEnd := Blanks.none
  isBytes := show (ascii "bytes").map lowerA = ascii "bytes" by decide

/-- The last five bytes are recorded as the first six. -/
theorem not_rangeExact_suffix : ¬ ∀ v, RangeExact v := by
  intro h
  have hspec : ∀ r ∈ [lastFive], r.IsSpec := by
    intro r hr
    rw [List.mem_singleton.mp hr]
    exact Or.inr (List.cons_ne_nil _ _)
  have hexact := (h (bytesLayout.value [lastFive])).1 bytesLayout [lastFive] (List.cons_ne_nil _ _)
    hspec rfl []
  have hparse : parseRange [] (bytesLayout.value [lastFive]) = (.sOk, [⟨0, 5⟩]) := by decide
  rw [hparse] at hexact
  obtain ⟨sets, hsets, hall⟩ := hexact.2 rfl
  obtain rfl : [⟨0, 5⟩] = sets := hsets
  have hrecords : Records lastFive ⟨0, 5⟩ := (List.forall₂_cons.mp hall).1
  rw [Records, if_pos (show lastFive.first = [] from rfl)] at hrecords
  exact hrecords rfl

end MxLib.Http
