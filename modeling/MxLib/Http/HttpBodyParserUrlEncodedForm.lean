import Mathlib.Data.List.TakeWhile
import MxLib.Http.HttpBodyParserFormBase
import MxLib.Http.Url
import MxLib.Library.Segments
import MxLib.Library.Stream

/-!
# Bodies of URL-encoded forms

`parse` is `CHttpBodyParserUrlEncodedForm::Parse`.  The name of a field runs to the
first `=`, its value to the next `&`; a name before a `&` has an empty value, and a
name at the end of the body is decoded and then dropped.

`nCurrContentSize` is compared with the limit but never raised, so the limit is one
for the buffer of a call and not for the body (`outcome_eq`).
-/

namespace MxLib.Http.HttpBodyParserUrlEncodedForm

open MxLib.Library MxLib.Library.Stream

inductive EState
  | nameStart | name | value | done | error
deriving DecidableEq

/-- `CHttpBodyParserUrlEncodedForm`, with the fields of its base. -/
structure UrlEncodedForm where
  dwMaxFieldSize : UInt32
  nState : EState
  cStrCurrA : List Byte
  cStrCurrFieldNameW : List WChar
  nCurrContentSize : Nat
  cFieldsList : List CField

/-- The constructor: no limit is below 32768. -/
def UrlEncodedForm.new (dwMaxFieldSize : UInt32) : UrlEncodedForm where
  dwMaxFieldSize := if dwMaxFieldSize < 32768 then 32768 else dwMaxFieldSize
  nState := .nameStart
  cStrCurrA := []
  cStrCurrFieldNameW := []
  nCurrContentSize := 0
  cFieldsList := []

def ampA : Byte := 0x26
def equalA : Byte := 0x3D

/-- A character of a name or a value. -/
def isTextChar (chA : Byte) : Bool := 32 ≤ chA && chA &&& 0x80 == 0

/-- The jump to `done` with an error. -/
def fail {α : Type} (s : UrlEncodedForm) (hRes : HResult) : Except (HResult × UrlEncodedForm) α :=
  .error (hRes, { s with nState := .error })

/-- The name that was read is decoded. -/
def decodeName (s : UrlEncodedForm) : Except (HResult × UrlEncodedForm) UrlEncodedForm :=
  match decodeText s.cStrCurrA with
  | .error hRes => fail s hRes
  | .ok cStrCurrFieldNameW => .ok { s with cStrCurrFieldNameW }

/-- The value that was read is decoded, and the field added. -/
def decodeValue (s : UrlEncodedForm) : Except (HResult × UrlEncodedForm) UrlEncodedForm :=
  match decodeText s.cStrCurrA with
  | .error hRes => fail s hRes
  | .ok cStrTempW =>
    match addField s.cFieldsList s.cStrCurrFieldNameW cStrTempW with
    | .error hRes => fail s hRes
    | .ok cFieldsList => .ok { s with cFieldsList }

/-- A character in the state `Value`. -/
def valueChar (s : UrlEncodedForm) (chA : Byte) : Except (HResult × UrlEncodedForm) UrlEncodedForm :=
  if chA == ampA then
    (decodeValue s).map fun s =>
      { s with nState := .nameStart, cStrCurrFieldNameW := [], cStrCurrA := [] }
  else if !isTextChar chA then fail s .mxInvalidData
  else .ok { s with cStrCurrA := s.cStrCurrA ++ [chA] }

/-- A character in the state `Name`.  After `BACKWARD_CHAR` the `&` is read again,
in the state `Value`. -/
def nameChar (s : UrlEncodedForm) (chA : Byte) : Except (HResult × UrlEncodedForm) UrlEncodedForm :=
  if chA == equalA || chA == ampA then
    match decodeName s with
    | .error r => .error r
    | .ok s =>
      let s := { s with cStrCurrA := [], nState := .value }
      if chA == ampA then valueChar s chA else .ok s
  else if !isTextChar chA then fail s .mxInvalidData
  else .ok { s with cStrCurrA := s.cStrCurrA ++ [chA] }

/-- One turn of the loop of `Parse`. -/
def charTurn (s : UrlEncodedForm) (chA : Byte) : Except (HResult × UrlEncodedForm) UrlEncodedForm :=
  match s.nState with
  | .nameStart =>
    if chA == ampA then .ok s
    else if chA == equalA then fail s .mxInvalidData
    else nameChar { s with nState := .name } chA
  | .name => nameChar s chA
  | .value => valueChar s chA
  -- `MX_ASSERT(FALSE)`
  | .done | .error => .ok s

/-- The end of the body, `Parse(NULL, 0)`. -/
def parseEnd (s : UrlEncodedForm) : Except (HResult × UrlEncodedForm) UrlEncodedForm :=
  match s.nState with
  | .name => (decodeName s).map fun s => { s with nState := .done }
  | .value => (decodeValue s).map fun s => { s with nState := .done }
  | .nameStart | .done | .error => .ok { s with nState := .done }

/-- `Parse(lpData, nDataSize)`; `none` stands for `NULL`.  The sum of the sizes is a
`SIZE_T`. -/
def parse (s : UrlEncodedForm) (lpData : Option (List Byte)) : HResult × UrlEncodedForm :=
  if s.nState == .done then (.sOk, s)
  else if s.nState == .error then (.mxInvalidData, s)
  else
    let result :=
      match lpData with
      | none => parseEnd s
      | some data =>
        if s.nCurrContentSize + data.length ≥ 2 ^ 64 ∨
            s.nCurrContentSize + data.length > s.dwMaxFieldSize.toNat then .error (.mxBadLength, s)
        else feed charTurn s data
    match result with
    | .error r => r
    | .ok s => (.sOk, s)

/-- The calls for the pieces of a body, and the one for its end, up to the first one
that fails. -/
def parseAll (s : UrlEncodedForm) : List (List Byte) → HResult × UrlEncodedForm
  | [] => parse s none
  | data :: pieces =>
    let r := parse s (some data)
    if r.1.failed then r else parseAll r.2 pieces

/-- The fields of a body that comes in the given pieces; `none` is a failure. -/
def outcome (dwMaxFieldSize : UInt32) (pieces : List (List Byte)) : Option (List CField) :=
  let r := parseAll (.new dwMaxFieldSize) pieces
  if r.1.failed then none else some r.2.cFieldsList

/-! ### Forms -/

/-- The name of a part between two `&`. -/
def nameOf (seg : List Byte) : List Byte := seg.takeWhile (· != equalA)

/-- The value: what comes after the first `=`. -/
def valueOf (seg : List Byte) : List Byte := (seg.dropWhile (· != equalA)).drop 1

/-- The fields with the one of a part that a `&` ends. -/
def closeField (cFieldsList : List CField) (seg : List Byte) : Option (List CField) :=
  if seg.isEmpty then some cFieldsList
  else if seg.all isTextChar && seg.head? != some equalA then
    (decodeText (nameOf seg)).toOption.bind fun szNameW =>
      (decodeText (valueOf seg)).toOption.bind fun szValueW =>
        (addField cFieldsList szNameW szValueW).toOption
  else none

/-- The fields with the one of the last part, which needs a `=`. -/
def endField (cFieldsList : List CField) (seg : List Byte) : Option (List CField) :=
  if seg.isEmpty || seg.contains equalA then closeField cFieldsList seg
  else if seg.all isTextChar && (decodeText seg).isOk then some cFieldsList
  else none

/-- The fields with those of the parts of a body. -/
def formFields (cFieldsList : List CField) : List (List Byte) → Option (List CField)
  | [] => some cFieldsList
  | [seg] => endField cFieldsList seg
  | seg :: segs => (closeField cFieldsList seg).bind fun cFieldsList => formFields cFieldsList segs

/-! ### The machine between two separators -/

/-- The machine on some characters; `none` where it fails. -/
def readChars (s : UrlEncodedForm) (l : List Byte) : Option UrlEncodedForm :=
  (feed charTurn s l).toOption

theorem readChars_append (s : UrlEncodedForm) (l m : List Byte) :
    readChars s (l ++ m) = (readChars s l).bind fun t => readChars t m :=
  toOption_feed_append s l m

@[simp] theorem readChars_nil (s : UrlEncodedForm) : readChars s [] = some s := rfl

theorem readChars_cons (s : UrlEncodedForm) (chA : Byte) (l : List Byte) :
    readChars s (chA :: l) = (charTurn s chA).toOption.bind fun t => readChars t l := by
  rw [← List.singleton_append, readChars_append, readChars, feed_singleton]

theorem readChars_singleton (s : UrlEncodedForm) (chA : Byte) :
    readChars s [chA] = (charTurn s chA).toOption := by
  rw [readChars, feed_singleton]

theorem isTextChar_equal : isTextChar equalA = true := by decide

/-- Text is added to a value. -/
theorem readChars_value {s : UrlEncodedForm} (hs : s.nState = .value) {l : List Byte}
    (hl : ampA ∉ l) :
    readChars s l =
      if l.all isTextChar then some { s with cStrCurrA := s.cStrCurrA ++ l } else none := by
  induction l generalizing s with
  | nil => simp
  | cons chA l ih =>
    rw [List.mem_cons, not_or] at hl
    have hamp : (chA == ampA) = false := by simpa using Ne.symm hl.1
    rw [readChars_cons, charTurn, hs]
    simp only [valueChar, hamp, Bool.false_eq_true, if_false]
    by_cases hch : isTextChar chA = true
    · rw [if_neg (by simp [hch]), List.all_cons, hch, Bool.true_and]
      simp only [Except.toOption, Option.bind_some]
      rw [ih (s := { s with cStrCurrA := s.cStrCurrA ++ [chA] }) hs hl.2]
      simp [hs]
    · rw [if_pos (by simp [hch]), List.all_cons]
      simp [hch, fail, Except.toOption]

/-- Text is added to a name. -/
theorem readChars_name {s : UrlEncodedForm} (hs : s.nState = .name) {l : List Byte}
    (hl : ampA ∉ l) (he : equalA ∉ l) :
    readChars s l =
      if l.all isTextChar then some { s with cStrCurrA := s.cStrCurrA ++ l } else none := by
  induction l generalizing s with
  | nil => simp
  | cons chA l ih =>
    rw [List.mem_cons, not_or] at hl he
    have hsep : (chA == equalA || chA == ampA) = false := by
      simpa using ⟨Ne.symm he.1, Ne.symm hl.1⟩
    rw [readChars_cons, charTurn, hs]
    simp only [nameChar, hsep, Bool.false_eq_true, if_false]
    by_cases hch : isTextChar chA = true
    · rw [if_neg (by simp [hch]), List.all_cons, hch, Bool.true_and]
      simp only [Except.toOption, Option.bind_some]
      rw [ih (s := { s with cStrCurrA := s.cStrCurrA ++ [chA] }) hs hl.2 he.2]
      simp [hs]
    · rw [if_pos (by simp [hch]), List.all_cons]
      simp [hch, fail, Except.toOption]

/-- A part with a `=` is its name and its value. -/
theorem exists_part {seg : List Byte} (h : equalA ∈ seg) :
    seg = nameOf seg ++ equalA :: valueOf seg ∧ equalA ∉ nameOf seg := by
  have hname : equalA ∉ nameOf seg := by
    intro hmem
    simpa using List.mem_takeWhile_imp hmem
  have hdrop : seg.dropWhile (· != equalA) = equalA :: valueOf seg := by
    cases hd : seg.dropWhile (· != equalA) with
    | nil =>
      have hall := List.dropWhile_eq_nil_iff.mp hd equalA h
      simp at hall
    | cons chA rest =>
      have hhead := List.head_dropWhile_not (· != equalA) (l := seg) (by simp [hd])
      have hch : chA = equalA := by simpa [hd] using hhead
      rw [valueOf, hd, hch, List.drop_one, List.tail_cons]
  refine ⟨?_, hname⟩
  rw [← hdrop, nameOf, List.takeWhile_append_dropWhile]

theorem nameOf_of_not_mem {seg : List Byte} (h : equalA ∉ seg) : nameOf seg = seg := by
  rw [nameOf, List.takeWhile_eq_self_iff]
  intro chA hch
  rw [bne_iff_ne]
  rintro rfl
  exact h hch

theorem valueOf_of_not_mem {seg : List Byte} (h : equalA ∉ seg) : valueOf seg = [] := by
  have hdrop : seg.dropWhile (· != equalA) = [] := by
    rw [List.dropWhile_eq_nil_iff]
    intro chA hch
    rw [bne_iff_ne]
    rintro rfl
    exact h hch
  rw [valueOf, hdrop, List.drop_nil]

/-- **A part of the body**, from the beginning of its name on. -/
theorem readChars_part {s : UrlEncodedForm} (hs : s.nState = .name) (hcur : s.cStrCurrA = [])
    {seg : List Byte} (hl : ampA ∉ seg) :
    readChars s seg =
      if seg.all isTextChar then
        if equalA ∈ seg then
          (decodeText (nameOf seg)).toOption.map fun cStrCurrFieldNameW =>
            { s with nState := .value, cStrCurrFieldNameW, cStrCurrA := valueOf seg }
        else some { s with cStrCurrA := seg }
      else none := by
  by_cases he : equalA ∈ seg
  · obtain ⟨hseg, hname⟩ := exists_part he
    have hln : ampA ∉ nameOf seg := fun h => hl (by rw [hseg]; exact List.mem_append_left _ h)
    have hlv : ampA ∉ valueOf seg := fun h =>
      hl (by rw [hseg]; exact List.mem_append_right _ (List.mem_cons_of_mem _ h))
    have hall : seg.all isTextChar = ((nameOf seg).all isTextChar && (valueOf seg).all isTextChar) := by
      conv => lhs; rw [hseg]
      rw [List.all_append, List.all_cons, isTextChar_equal, Bool.true_and]
    have hread : readChars s seg = readChars s (nameOf seg ++ equalA :: valueOf seg) :=
      congrArg _ hseg
    rw [hread, readChars_append, readChars_name hs hln hname, hall, if_pos he, hcur,
      List.nil_append]
    by_cases hn : (nameOf seg).all isTextChar = true
    · rw [if_pos hn, hn, Bool.true_and, Option.bind_some, readChars_cons]
      have heq : (charTurn { s with cStrCurrA := nameOf seg } equalA).toOption
          = (decodeText (nameOf seg)).toOption.map fun cStrCurrFieldNameW =>
            { s with nState := .value, cStrCurrFieldNameW, cStrCurrA := [] } := by
        rw [charTurn, hs]
        simp only [nameChar, decodeName]
        cases decodeText (nameOf seg) <;> rfl
      rw [heq]
      cases hdec : (decodeText (nameOf seg)).toOption with
      | none => simp
      | some cStrCurrFieldNameW =>
        rw [Option.map_some, Option.bind_some, readChars_value rfl hlv]
        rfl
    · rw [if_neg hn, Option.bind_none, if_neg]
      simp [hn]
  · rw [readChars_name hs hl he, hcur, List.nil_append, if_neg he]

/-! ### The end of a part -/

theorem decodeText_nil : decodeText [] = .ok [] := rfl

/-- The field of a value is added at a `&`. -/
theorem charTurn_value_amp {s : UrlEncodedForm} (hs : s.nState = .value) :
    (charTurn s ampA).toOption =
      (decodeText s.cStrCurrA).toOption.bind fun szValueW =>
        (addField s.cFieldsList s.cStrCurrFieldNameW szValueW).toOption.map fun cFieldsList =>
          { s with nState := .nameStart, cStrCurrFieldNameW := [], cStrCurrA := [], cFieldsList } := by
  rw [charTurn, hs]
  simp only [valueChar, beq_self_eq_true, if_true, decodeValue]
  cases decodeText s.cStrCurrA with
  | error hRes => rfl
  | ok szValueW =>
    simp only [Except.toOption, Option.bind_some]
    cases addField s.cFieldsList s.cStrCurrFieldNameW szValueW <;> rfl

/-- A name that a `&` ends has an empty value. -/
theorem charTurn_name_amp {s : UrlEncodedForm} (hs : s.nState = .name) :
    (charTurn s ampA).toOption =
      (decodeText s.cStrCurrA).toOption.bind fun szNameW =>
        (addField s.cFieldsList szNameW []).toOption.map fun cFieldsList =>
          { s with nState := .nameStart, cStrCurrFieldNameW := [], cStrCurrA := [], cFieldsList } := by
  rw [charTurn, hs]
  simp only [nameChar, beq_self_eq_true, Bool.or_true, if_true, decodeName, valueChar, decodeValue]
  cases decodeText s.cStrCurrA with
  | error hRes => rfl
  | ok szNameW =>
    simp only [Except.toOption, Option.bind_some, decodeText_nil]
    cases addField s.cFieldsList szNameW [] <;> rfl

/-- The state before a part. -/
structure Fresh (s : UrlEncodedForm) : Prop where
  nState : s.nState = .nameStart
  cStrCurrA : s.cStrCurrA = []
  cStrCurrFieldNameW : s.cStrCurrFieldNameW = []

/-- A part that is not empty is read from the state `Name` on. -/
theorem readChars_fresh {s : UrlEncodedForm} (hs : Fresh s) {chA : Byte} (hamp : chA ≠ ampA)
    (l : List Byte) :
    readChars s (chA :: l) =
      if chA = equalA then none else readChars { s with nState := .name } (chA :: l) := by
  rw [readChars_cons, readChars_cons, charTurn, charTurn, hs.nState]
  by_cases he : chA = equalA
  · simp [he, fail, Except.toOption, show equalA ≠ ampA by decide]
  · simp [hamp, he]

theorem closeField_cons (cFieldsList : List CField) (chA : Byte) (l : List Byte) :
    closeField cFieldsList (chA :: l) =
      if (chA :: l).all isTextChar && chA != equalA then
        (decodeText (nameOf (chA :: l))).toOption.bind fun szNameW =>
          (decodeText (valueOf (chA :: l))).toOption.bind fun szValueW =>
            (addField cFieldsList szNameW szValueW).toOption
      else none := by
  rw [closeField, List.isEmpty_cons, if_neg Bool.false_ne_true, List.head?_cons]
  rfl

/-- **A part that a `&` ends.** -/
theorem readChars_close {s : UrlEncodedForm} (hs : Fresh s) {seg : List Byte} (hl : ampA ∉ seg) :
    readChars s (seg ++ [ampA]) =
      (closeField s.cFieldsList seg).map fun cFieldsList => { s with cFieldsList } := by
  cases seg with
  | nil =>
    have hamp : charTurn s ampA = .ok s := by
      rw [charTurn, hs.nState]
      rfl
    rw [List.nil_append, readChars_cons, hamp]
    rfl
  | cons chA l =>
    have hamp : chA ≠ ampA := fun h => hl (by rw [h]; exact List.mem_cons_self)
    rw [List.cons_append, readChars_fresh hs hamp, ← List.cons_append, closeField_cons]
    by_cases he : chA = equalA
    · rw [if_pos he, if_neg (by simp [he])]
      rfl
    rw [if_neg he, readChars_append, readChars_part (s := { s with nState := .name }) rfl hs.cStrCurrA hl]
    by_cases hall : (chA :: l).all isTextChar = true
    · have hguard : ((chA :: l).all isTextChar && chA != equalA) = true := by
        rw [hall, Bool.true_and, bne_iff_ne]
        exact he
      rw [if_pos hall, if_pos hguard]
      by_cases hmem : equalA ∈ chA :: l
      · rw [if_pos hmem]
        cases (decodeText (nameOf (chA :: l))).toOption with
        | none => rfl
        | some szNameW =>
          rw [Option.map_some, Option.bind_some, Option.bind_some, readChars_singleton,
            charTurn_value_amp rfl]
          cases (decodeText (valueOf (chA :: l))).toOption with
          | none => rfl
          | some szValueW =>
            simp only [Option.bind_some, hs.nState, hs.cStrCurrA, hs.cStrCurrFieldNameW]
      · rw [if_neg hmem, nameOf_of_not_mem hmem, valueOf_of_not_mem hmem, decodeText_nil]
        rw [Option.bind_some, readChars_singleton, charTurn_name_amp rfl]
        cases (decodeText (chA :: l)).toOption with
        | none => rfl
        | some szNameW =>
          simp only [Option.bind_some, hs.nState, hs.cStrCurrA, hs.cStrCurrFieldNameW]
          rfl
    · have hguard : ¬ ((chA :: l).all isTextChar && chA != equalA) = true := by
        rw [Bool.and_eq_true, not_and]
        exact fun h => absurd h hall
      rw [if_neg hall, if_neg hguard]
      rfl

/-- **The last part.** -/
theorem readChars_end {s : UrlEncodedForm} (hs : Fresh s) {seg : List Byte} (hl : ampA ∉ seg) :
    ((readChars s seg).bind fun t => (parseEnd t).toOption).map (·.cFieldsList)
      = endField s.cFieldsList seg := by
  cases seg with
  | nil =>
    rw [readChars_nil, Option.bind_some, parseEnd, hs.nState]
    rfl
  | cons chA l =>
    have hamp : chA ≠ ampA := fun h => hl (by rw [h]; exact List.mem_cons_self)
    rw [readChars_fresh hs hamp, endField, closeField_cons, List.isEmpty_cons, Bool.false_or]
    by_cases he : chA = equalA
    · rw [if_pos he, if_pos (by simp [he]), if_neg (by simp [he])]
      rfl
    rw [if_neg he, readChars_part (s := { s with nState := .name }) rfl hs.cStrCurrA hl]
    by_cases hall : (chA :: l).all isTextChar = true
    · have hguard : ((chA :: l).all isTextChar && chA != equalA) = true := by
        rw [hall, Bool.true_and, bne_iff_ne]
        exact he
      rw [if_pos hall, if_pos hguard]
      by_cases hmem : equalA ∈ chA :: l
      · rw [if_pos hmem, if_pos (by simpa using hmem)]
        cases (decodeText (nameOf (chA :: l))).toOption with
        | none => rfl
        | some szNameW =>
          simp only [Option.map_some, Option.bind_some, parseEnd, decodeValue]
          cases decodeText (valueOf (chA :: l)) with
          | error hRes => rfl
          | ok szValueW =>
            simp only [Except.toOption, Option.bind_some]
            cases addField s.cFieldsList szNameW szValueW <;> rfl
      · rw [if_neg hmem, if_neg (by simpa using hmem), hall, Bool.true_and]
        simp only [Option.bind_some, parseEnd, decodeName]
        cases decodeText (chA :: l) <;> rfl
    · have hguard : ¬ ((chA :: l).all isTextChar && chA != equalA) = true := by
        rw [Bool.and_eq_true, not_and]
        exact fun h => absurd h hall
      rw [if_neg hall, if_neg hguard, (Bool.not_eq_true _).mp hall]
      simp

theorem formFields_cons_cons (cFieldsList : List CField) (seg seg' : List Byte)
    (segs : List (List Byte)) :
    formFields cFieldsList (seg :: seg' :: segs) =
      (closeField cFieldsList seg).bind fun cFieldsList => formFields cFieldsList (seg' :: segs) :=
  rfl

/-- **The whole body**, by its parts. -/
theorem readChars_parts {s : UrlEncodedForm} (hs : Fresh s) {segs : List (List Byte)}
    (hne : segs ≠ []) (hl : ∀ seg ∈ segs, ampA ∉ seg) :
    ((readChars s ([ampA].intercalate segs)).bind fun t => (parseEnd t).toOption).map (·.cFieldsList)
      = formFields s.cFieldsList segs := by
  induction segs generalizing s with
  | nil => exact absurd rfl hne
  | cons seg segs ih =>
    cases segs with
    | nil =>
      rw [List.intercalate_singleton, formFields]
      exact readChars_end hs (hl seg List.mem_cons_self)
    | cons seg' segs =>
      rw [List.intercalate_cons_cons, formFields_cons_cons, readChars_append,
        readChars_close hs (hl seg List.mem_cons_self)]
      cases closeField s.cFieldsList seg with
      | none => rfl
      | some cFieldsList =>
        rw [Option.map_some, Option.bind_some, Option.bind_some]
        exact ih ⟨hs.nState, hs.cStrCurrA, hs.cStrCurrFieldNameW⟩ (List.cons_ne_nil _ _)
          fun seg h => hl seg (List.mem_cons_of_mem _ h)

/-! ### Calls -/

theorem decodeFrom_error {fuel : Nat} {szUrlA cStrDestA : List Byte} {hRes : HResult}
    (h : decodeFrom fuel szUrlA cStrDestA = .error hRes) : hRes = .mxInvalidData := by
  induction fuel generalizing szUrlA cStrDestA with
  | zero => cases h
  | succ fuel ih =>
    cases szUrlA with
    | nil => cases h
    | cons chA rest =>
      rw [decodeFrom] at h
      split at h
      · exact ih h
      split at h
      · split at h
        · exact ih h
        split at h
        · split at h
          next henc =>
            rw [Except.error.inj h] at henc
            exact utf8Encode_singleton_error henc
          next => exact ih h
        · exact ih h
      split at h
      · exact (Except.error.inj h).symm
      · exact ih h

theorem decodeText_failed {szTextA : List Byte} {hRes : HResult}
    (h : decodeText szTextA = .error hRes) : hRes.failed = true := by
  rw [decodeText] at h
  split at h
  next hRes' hdec =>
    rw [← Except.error.inj h, decodeFrom_error hdec]
    rfl
  next =>
    rw [utf8DecodeFrom_error h]
    rfl

/-- The reader in the middle of a body. -/
structure Reading (dwMaxFieldSize : UInt32) (s : UrlEncodedForm) : Prop where
  dwMaxFieldSize : s.dwMaxFieldSize = dwMaxFieldSize
  nCurrContentSize : s.nCurrContentSize = 0
  notDone : s.nState ≠ .done
  notError : s.nState ≠ .error

/-- What a step gives: a reader in the middle of a body, or a failure. -/
def Good (dwMaxFieldSize : UInt32) : Except (HResult × UrlEncodedForm) UrlEncodedForm → Prop
  | .ok t => Reading dwMaxFieldSize t
  | .error r => r.1.failed = true

section Good

variable {dw : UInt32} {s : UrlEncodedForm}

theorem good_decodeName (hs : Reading dw s) : Good dw (decodeName s) := by
  unfold decodeName
  cases h : decodeText s.cStrCurrA with
  | error hRes => exact decodeText_failed h
  | ok cStrCurrFieldNameW => exact ⟨hs.1, hs.2, hs.3, hs.4⟩

theorem good_decodeValue (hs : Reading dw s) : Good dw (decodeValue s) := by
  unfold decodeValue
  cases h : decodeText s.cStrCurrA with
  | error hRes => exact decodeText_failed h
  | ok cStrTempW =>
    dsimp only
    cases hadd : addField s.cFieldsList s.cStrCurrFieldNameW cStrTempW with
    | error hRes => exact addField_failed hadd
    | ok cFieldsList => exact ⟨hs.1, hs.2, hs.3, hs.4⟩

theorem good_text (hs : Reading dw s) (chA : Byte) :
    Good dw (if !isTextChar chA then fail s .mxInvalidData
      else .ok { s with cStrCurrA := s.cStrCurrA ++ [chA] }) := by
  split
  · rfl
  · exact ⟨hs.1, hs.2, hs.3, hs.4⟩

theorem good_valueChar (hs : Reading dw s) (chA : Byte) : Good dw (valueChar s chA) := by
  unfold valueChar
  split
  · have hgood := good_decodeValue hs
    cases h : decodeValue s with
    | error r =>
      rw [h] at hgood
      exact hgood
    | ok t =>
      rw [h] at hgood
      exact ⟨hgood.1, hgood.2, by simp, by simp⟩
  · exact good_text hs chA

theorem good_nameChar (hs : Reading dw s) (chA : Byte) : Good dw (nameChar s chA) := by
  unfold nameChar
  split
  · have hgood := good_decodeName hs
    cases h : decodeName s with
    | error r =>
      rw [h] at hgood
      exact hgood
    | ok t =>
      rw [h] at hgood
      have ht : Reading dw { t with cStrCurrA := [], nState := .value } :=
        ⟨hgood.1, hgood.2, by simp, by simp⟩
      dsimp only
      split
      · exact good_valueChar ht chA
      · exact ht
  · exact good_text hs chA

/-- **One character keeps the reader reading, or fails.** -/
theorem good_charTurn (hs : Reading dw s) (chA : Byte) : Good dw (charTurn s chA) := by
  unfold charTurn
  split
  · split
    · exact hs
    split
    · rfl
    · have hname : Reading dw { s with nState := .name } := ⟨hs.1, hs.2, by simp, by simp⟩
      exact good_nameChar hname chA
  · exact good_nameChar hs chA
  · exact good_valueChar hs chA
  · exact hs
  · exact hs

theorem good_feed (hs : Reading dw s) (data : List Byte) : Good dw (feed charTurn s data) := by
  induction data generalizing s with
  | nil => exact hs
  | cons chA data ih =>
    have hgood := good_charTurn hs chA
    cases h : charTurn s chA with
    | error r =>
      rw [h] at hgood
      rw [feed_cons_error h]
      exact hgood
    | ok t =>
      rw [h] at hgood
      rw [feed_cons_ok h]
      exact ih hgood

theorem parseEnd_failed (hs : Reading dw s) {r : HResult × UrlEncodedForm}
    (h : parseEnd s = .error r) : r.1.failed = true := by
  unfold parseEnd at h
  split at h
  · have hgood := good_decodeName hs
    cases hname : decodeName s with
    | error r' =>
      rw [hname] at h hgood
      obtain rfl := Except.error.inj h
      exact hgood
    | ok t =>
      rw [hname] at h
      cases h
  · have hgood := good_decodeValue hs
    cases hvalue : decodeValue s with
    | error r' =>
      rw [hvalue] at h hgood
      obtain rfl := Except.error.inj h
      exact hgood
    | ok t =>
      rw [hvalue] at h
      cases h
  all_goals cases h

end Good

/-- A call in the middle of a body. -/
theorem parse_reading {dw : UInt32} {s : UrlEncodedForm} (hs : Reading dw s)
    (lpData : Option (List Byte)) :
    parse s lpData =
      match (match lpData with
        | none => parseEnd s
        | some data =>
          if data.length > dw.toNat then .error (.mxBadLength, s) else feed charTurn s data) with
      | .error r => r
      | .ok s => (.sOk, s) := by
  have hdone : (s.nState == .done) = false := beq_eq_false_iff_ne.mpr hs.notDone
  have herror : (s.nState == .error) = false := beq_eq_false_iff_ne.mpr hs.notError
  unfold parse
  rw [hdone, herror]
  cases lpData with
  | none => rfl
  | some data =>
    have hdw := dw.toNat_lt
    simp only [hs.nCurrContentSize, hs.dwMaxFieldSize, Nat.zero_add]
    by_cases hlen : data.length > dw.toNat
    · rw [if_pos hlen, if_pos (Or.inr hlen)]
      rfl
    · have hguard : ¬ (data.length ≥ 2 ^ 64 ∨ data.length > dw.toNat) := by omega
      rw [if_neg hlen, if_neg hguard]
      rfl

/-- **The calls for a body**: each buffer has to stay within the limit, and then only
the bytes count. -/
theorem parseAll_reading {dw : UInt32} {s : UrlEncodedForm} (hs : Reading dw s)
    (pieces : List (List Byte)) :
    (if (parseAll s pieces).1.failed then none else some (parseAll s pieces).2.cFieldsList) =
      if ∀ data ∈ pieces, data.length ≤ dw.toNat then
        ((readChars s pieces.flatten).bind fun t => (parseEnd t).toOption).map (·.cFieldsList)
      else none := by
  induction pieces generalizing s with
  | nil =>
    have hall : ∀ data ∈ ([] : List (List Byte)), data.length ≤ dw.toNat := by simp
    rw [if_pos hall, parseAll, parse_reading hs, List.flatten_nil, readChars_nil,
      Option.bind_some]
    cases h : parseEnd s with
    | error r =>
      simp only [parseEnd_failed hs h, if_true]
      rfl
    | ok t => rfl
  | cons data pieces ih =>
    have hcall := parse_reading hs (some data)
    have hgood := good_feed hs data
    rw [parseAll, List.flatten_cons, readChars_append]
    by_cases hlen : data.length ≤ dw.toNat
    · simp only [gt_iff_lt, Nat.not_lt.mpr hlen, if_false] at hcall
      cases hfeed : feed charTurn s data with
      | error r =>
        rw [hfeed] at hcall hgood
        have hfailed : r.1.failed = true := hgood
        simp only [hcall, hfailed, if_true, readChars, hfeed]
        simp [Except.toOption]
      | ok t =>
        rw [hfeed] at hcall hgood
        simp only [hcall, HResult.failed_sOk, Bool.false_eq_true, if_false]
        rw [ih hgood]
        simp [hlen, readChars, hfeed, Except.toOption]
    · simp only [gt_iff_lt, Nat.not_le.mp hlen, if_true] at hcall
      have hfailed : HResult.failed .mxBadLength = true := rfl
      simp only [hcall, hfailed, if_true]
      rw [if_neg]
      exact fun h => hlen (h data List.mem_cons_self)

/-! ### Outcomes -/

theorem reading_new (dwMaxFieldSize : UInt32) :
    Reading (UrlEncodedForm.new dwMaxFieldSize).dwMaxFieldSize (.new dwMaxFieldSize) :=
  ⟨rfl, rfl, by simp [UrlEncodedForm.new], by simp [UrlEncodedForm.new]⟩

/-- The limit for a buffer. -/
def limit (dwMaxFieldSize : UInt32) : Nat := max 32768 dwMaxFieldSize.toNat

theorem toNat_dwMaxFieldSize (dwMaxFieldSize : UInt32) :
    (UrlEncodedForm.new dwMaxFieldSize).dwMaxFieldSize.toNat = limit dwMaxFieldSize := by
  have hval : (32768 : UInt32).toNat = 32768 := rfl
  have hnew : (UrlEncodedForm.new dwMaxFieldSize).dwMaxFieldSize
      = if dwMaxFieldSize < 32768 then 32768 else dwMaxFieldSize := rfl
  rw [hnew, limit]
  by_cases h : dwMaxFieldSize < 32768
  · rw [if_pos h, hval]
    rw [UInt32.lt_iff_toNat_lt, hval] at h
    omega
  · rw [if_neg h]
    rw [UInt32.lt_iff_toNat_lt, hval] at h
    omega

/-- **What becomes of a body in pieces.** -/
theorem outcome_eq (dwMaxFieldSize : UInt32) (pieces : List (List Byte)) :
    outcome dwMaxFieldSize pieces =
      if ∀ data ∈ pieces, data.length ≤ limit dwMaxFieldSize then
        formFields [] (pieces.flatten.splitOn ampA)
      else none := by
  have hparts := readChars_parts (s := .new dwMaxFieldSize) ⟨rfl, rfl, rfl⟩
    (List.splitOn_ne_nil ampA pieces.flatten) fun seg h => Segments.not_mem_of_mem_splitOn h
  rw [List.intercalate_splitOn] at hparts
  rw [outcome, parseAll_reading (reading_new dwMaxFieldSize), toNat_dwMaxFieldSize, hparts]
  rfl

/-! ### Which bodies are forms -/

/-- A part that `closeField` takes, whatever the fields are. -/
def isField (seg : List Byte) : Bool :=
  seg.isEmpty ||
    (seg.all isTextChar && seg.head? != some equalA && (decodeText (valueOf seg)).isOk &&
      match decodeText (nameOf seg) with
      | .ok szNameW => (parseNameAndIndexes szNameW).isOk
      | .error _ => false)

/-- A last part that `endField` takes. -/
def isLastField (seg : List Byte) : Bool :=
  if seg.isEmpty || seg.contains equalA then isField seg
  else seg.all isTextChar && (decodeText seg).isOk

/-- The parts of a form. -/
def isForm : List (List Byte) → Bool
  | [] => true
  | [seg] => isLastField seg
  | seg :: segs => isField seg && isForm segs

theorem isForm_cons_cons (seg seg' : List Byte) (segs : List (List Byte)) :
    isForm (seg :: seg' :: segs) = (isField seg && isForm (seg' :: segs)) :=
  rfl

theorem isSome_toOption {ε α : Type} (r : Except ε α) : r.toOption.isSome = r.isOk := by
  cases r <;> rfl

theorem isSome_closeField (cFieldsList : List CField) (seg : List Byte) :
    (closeField cFieldsList seg).isSome = isField seg := by
  unfold closeField isField
  cases hempty : seg.isEmpty with
  | true => rfl
  | false =>
    rw [if_neg Bool.false_ne_true, Bool.false_or]
    cases hguard : seg.all isTextChar && seg.head? != some equalA with
    | false => rfl
    | true =>
      rw [if_pos rfl, Bool.true_and]
      cases decodeText (nameOf seg) with
      | error hRes => simp [Except.toOption]
      | ok szNameW =>
        cases decodeText (valueOf seg) with
        | error hRes => rfl
        | ok szValueW =>
          have hadd := addField_isOk cFieldsList szNameW szValueW
          rw [← isSome_toOption] at hadd
          exact hadd

theorem isSome_endField (cFieldsList : List CField) (seg : List Byte) :
    (endField cFieldsList seg).isSome = isLastField seg := by
  unfold endField isLastField
  split
  · exact isSome_closeField cFieldsList seg
  · split
    next h => exact h.symm
    next h => simpa using h

theorem isSome_formFields (cFieldsList : List CField) (segs : List (List Byte)) :
    (formFields cFieldsList segs).isSome = isForm segs := by
  induction segs generalizing cFieldsList with
  | nil => rfl
  | cons seg segs ih =>
    cases segs with
    | nil => exact isSome_endField cFieldsList seg
    | cons seg' segs =>
      rw [formFields_cons_cons, isForm_cons_cons, ← isSome_closeField cFieldsList seg]
      cases closeField cFieldsList seg with
      | none => rfl
      | some cFieldsList' => exact ih cFieldsList'

/-- **When the cut does not matter**: the body is not longer than the limit for a buffer,
or it is no form. -/
theorem outcome_cut_iff (dwMaxFieldSize : UInt32) (body : List Byte) :
    ((∀ pieces pieces' : List (List Byte), pieces.flatten = body → pieces'.flatten = body →
        outcome dwMaxFieldSize pieces = outcome dwMaxFieldSize pieces') ∧
      (limit dwMaxFieldSize < body.length → ∀ pieces : List (List Byte), pieces.flatten = body →
        outcome dwMaxFieldSize pieces = none)) ↔
      body.length ≤ limit dwMaxFieldSize ∨ isForm (body.splitOn ampA) = false := by
  have hnone : formFields [] (body.splitOn ampA) = none ↔ isForm (body.splitOn ampA) = false := by
    rw [← isSome_formFields [], Option.isSome_eq_false_iff, Option.isNone_iff_eq_none]
  constructor
  · rintro ⟨-, hlong⟩
    by_cases hlen : body.length ≤ limit dwMaxFieldSize
    · exact .inl hlen
    · right
      -- A byte at a time stays within any limit.
      have hcut : (body.map fun chA => [chA]).flatten = body := by
        rw [← List.flatMap_def, List.flatMap_singleton']
      have hsmall : ∀ data ∈ body.map fun chA => [chA], data.length ≤ limit dwMaxFieldSize := by
        intro data hdata
        obtain ⟨chA, -, rfl⟩ := List.mem_map.mp hdata
        rw [List.length_singleton, limit]
        omega
      have hout := hlong (Nat.lt_of_not_le hlen) _ hcut
      rw [outcome_eq, if_pos hsmall, hcut] at hout
      exact hnone.mp hout
  · rintro (hlen | hform)
    · have hout : ∀ pieces : List (List Byte), pieces.flatten = body →
          outcome dwMaxFieldSize pieces = formFields [] (body.splitOn ampA) := by
        intro pieces hcut
        have hsmall : ∀ data ∈ pieces, data.length ≤ limit dwMaxFieldSize := by
          intro data hdata
          have hle := (List.sublist_flatten_of_mem hdata).length_le
          rw [hcut] at hle
          exact hle.trans hlen
        rw [outcome_eq, if_pos hsmall, hcut]
      refine ⟨fun pieces pieces' hcut hcut' => ?_, fun h => absurd hlen (Nat.not_le.mpr h)⟩
      rw [hout pieces hcut, hout pieces' hcut']
    · have hout : ∀ pieces : List (List Byte), pieces.flatten = body →
          outcome dwMaxFieldSize pieces = none := by
        intro pieces hcut
        rw [outcome_eq, hcut, hnone.mpr hform, ite_self]
      refine ⟨fun pieces pieces' hcut hcut' => ?_, fun _ => hout⟩
      rw [hout pieces hcut, hout pieces' hcut']

theorem readChars_amps {s : UrlEncodedForm} (hs : s.nState = .nameStart) (n : Nat) :
    readChars s (List.replicate n ampA) = some s := by
  induction n with
  | zero => rfl
  | succ n ih =>
    have hamp : charTurn s ampA = .ok s := by
      rw [charTurn, hs]
      rfl
    rw [List.replicate_succ, readChars_cons, hamp]
    exact ih

/-- A form of 32770 bytes is refused in one buffer, and read in two. -/
theorem outcome_cut_differs :
    outcome 0 [ascii "a=b&" ++ List.replicate 32766 ampA] = none ∧
      outcome 0 [ascii "a=b&", List.replicate 32766 ampA] =
        some [.field (wide "a") (wide "b") []] := by
  have hlen : (ascii "a=b&").length = 4 := rfl
  have hlimit : limit 0 = 32768 := rfl
  constructor
  · rw [outcome_eq, if_neg]
    intro h
    have hle := h _ List.mem_cons_self
    rw [List.length_append, hlen, List.length_replicate, hlimit] at hle
    omega
  · have hread : readChars (.new 0) (ascii "a=b&") =
        some { UrlEncodedForm.new 0 with cFieldsList := [.field (wide "a") (wide "b") []] } := rfl
    have hsmall : ∀ data ∈ [ascii "a=b&", List.replicate 32766 ampA], data.length ≤ limit 0 := by
      intro data hdata
      rw [List.mem_pair] at hdata
      rcases hdata with rfl | rfl
      · rw [hlen, hlimit]
        omega
      · rw [List.length_replicate, hlimit]
        omega
    rw [outcome, parseAll_reading (reading_new 0), toNat_dwMaxFieldSize, if_pos hsmall,
      List.flatten_cons, List.flatten_singleton, readChars_append, hread, Option.bind_some,
      readChars_amps rfl]
    rfl

end MxLib.Http.HttpBodyParserUrlEncodedForm
