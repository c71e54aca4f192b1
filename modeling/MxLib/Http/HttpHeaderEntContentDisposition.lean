import MxLib.Http.HeaderParams
import MxLib.Http.HttpCookie
import MxLib.Http.QuotedString
import MxLib.Http.RawIso88591

/-!
# Content-Disposition

`parse` is `CHttpHeaderEntContentDisposition::Parse`, for any way `parseDate` reads the
dates among the parameters.

A plain name or file name is asked for as UTF-8, so `GetParamNameAndValue` already
decodes it.  `Parse` takes what comes back for ISO-8859-1 and decodes the low bytes of
its units once more, so each unit above `0x7F` is lost or taken together with its
neighbours.  A decoded text has then fewer units than it should, and only ASCII text
comes through (`uploadNames_iff`).
-/

namespace MxLib.Http

open MxLib.Library MxLib.Library.Unicode
open HttpCookie (DateTime)

/-! ### The parameters -/

/-- `CHttpHeaderEntContentDisposition` -/
structure ContentDisposition where
  cStrTypeA : List Byte
  cStrNameW : List WChar
  cStrFileNameW : List WChar
  bHasFileName : Bool
  cCreationDt : DateTime
  cModificationDt : DateTime
  cReadDt : DateTime
  nSize : UInt64
  aParamsList : List (List Byte × List WChar)

/-- The constructor. -/
def ContentDisposition.create : ContentDisposition :=
  ⟨[], [], [], false, ⟨0, 0⟩, ⟨0, 0⟩, ⟨0, 0⟩, 0xFFFFFFFFFFFFFFFF, []⟩

/-- `GetName` -/
def ContentDisposition.getName (h : ContentDisposition) : List WChar := szStr h.cStrNameW

/-- `GetFileName` -/
def ContentDisposition.getFileName (h : ContentDisposition) : List WChar := szStr h.cStrFileNameW

/-- `SetName(szNameW)` -/
def ContentDisposition.setName (h : ContentDisposition) (szNameW : List WChar) :
    ContentDisposition :=
  { h with cStrNameW := szStr szNameW }

/-- `SetFileName(szFileNameW)` -/
def ContentDisposition.setFileName (h : ContentDisposition) (szFileNameW : List WChar) :
    ContentDisposition :=
  { h with cStrFileNameW := szStr szFileNameW, bHasFileName := true }

/-- `SetType` -/
def ContentDisposition.setType (h : ContentDisposition) (szTypeA : List Byte) :
    Except HResult ContentDisposition :=
  if szTypeA = [] then .error .mxInvalidData
  else if (getToken szTypeA).1.length ≠ szTypeA.length then .error .mxInvalidData
  else .ok { h with cStrTypeA := szTypeA }

/-- `AddParam` -/
def ContentDisposition.addParam (h : ContentDisposition) (szNameA : List Byte)
    (szValueW : List WChar) : Except HResult ContentDisposition :=
  let szNameA := szStr szNameA
  if (getToken szNameA).1 = [] ∨ (getToken szNameA).2 ≠ [] then .error .mxInvalidData
  else .ok { h with aParamsList := h.aParamsList ++ [(szNameA, szStr szValueW)] }

/-- The loop of `Parse` between two parameters. -/
structure ParamsScan where
  header : ContentDisposition
  nHasItem : UInt32
  sA : List Byte

/-- A name or a file name: the extended one counts, if both are there. -/
def addText (nBit nExtendedBit : UInt32)
    (setText : ContentDisposition → List WChar → ContentDisposition) (s : ParamsScan)
    (p : ParamResult) : Except HResult ParamsScan :=
  if !p.bExtendedParam then
    if s.nHasItem &&& nBit != 0 then .error .mxInvalidData
    else
      let nHasItem := s.nHasItem ||| nBit
      if nHasItem &&& nExtendedBit == 0 then
        .ok ⟨setText s.header (rawIso88591ToUtf8 p.cStrValueW), nHasItem, p.sA⟩
      else .ok ⟨s.header, nHasItem, p.sA⟩
  else if s.nHasItem &&& nExtendedBit != 0 then .error .mxInvalidData
  else .ok ⟨setText s.header p.cStrValueW, s.nHasItem ||| nExtendedBit, p.sA⟩

/-- A date. -/
def addDate (parseDate : List WChar → Except HResult DateTime) (nBit : UInt32)
    (setDate : ContentDisposition → DateTime → ContentDisposition) (s : ParamsScan)
    (p : ParamResult) : Except HResult ParamsScan :=
  if s.nHasItem &&& nBit != 0 then .error .mxInvalidData
  else (parseDate (szStr p.cStrValueW)).map fun cDt =>
    ⟨setDate s.header cDt, s.nHasItem ||| nBit, p.sA⟩

def isDigitW (chW : WChar) : Bool := 0x30 ≤ chW && chW ≤ 0x39

/-- The digits of a size. -/
def sizeDigits : List WChar → UInt64 → Except HResult UInt64
  | [], nSize => .ok nSize
  | chW :: sW, nSize =>
    if isDigitW chW then
      let nTemp := nSize * 10
      if nTemp < nSize then .error .mxArithmeticOverflow
      else
        let nSize := nTemp + (chW - 0x30).toUInt64
        if nSize < nTemp then .error .mxArithmeticOverflow else sizeDigits sW nSize
    else .ok nSize

/-- A size. -/
def addSize (s : ParamsScan) (p : ParamResult) : Except HResult ParamsScan :=
  if s.nHasItem &&& 0x0080 != 0 then .error .mxInvalidData
  else
    let sW := szStr p.cStrValueW
    if !isDigitW (charAt sW 0) then .error .mxInvalidData
    else (sizeDigits (sW.dropWhile (· == 0x30)) 0).map fun nSize =>
      ⟨{ s.header with nSize }, s.nHasItem ||| 0x0080, p.sA⟩

section Parse

variable (parseDate : List WChar → Except HResult DateTime)

/-- What `Parse` does with a parameter. -/
def addParameter (s : ParamsScan) (p : ParamResult) : Except HResult ParamsScan :=
  if strCompareA p.cStrTokenA (ascii "name") true then
    addText 0x0001 0x0010 ContentDisposition.setName s p
  else if strCompareA p.cStrTokenA (ascii "filename") true then
    addText 0x0002 0x0020 ContentDisposition.setFileName s p
  else if strCompareA p.cStrTokenA (ascii "creation-date") true then
    addDate parseDate 0x0004 (fun h cDt => { h with cCreationDt := cDt }) s p
  else if strCompareA p.cStrTokenA (ascii "modification-date") true then
    addDate parseDate 0x0008 (fun h cDt => { h with cModificationDt := cDt }) s p
  else if strCompareA p.cStrTokenA (ascii "read-date") true then
    addDate parseDate 0x0040 (fun h cDt => { h with cReadDt := cDt }) s p
  else if strCompareA p.cStrTokenA (ascii "size") true then addSize s p
  else (s.header.addParam p.cStrTokenA p.cStrValueW).map fun h => ⟨h, s.nHasItem, p.sA⟩

/-- How the loop of `Parse` is left. -/
structure ParamsResult where
  hRes : HResult
  header : ContentDisposition
  sA : List Byte

/-- A turn of the loop of `Parse`, and its exit; `none` stands for a text in quotes that
is never left. -/
def paramTurn (fuel : Nat) (s : ParamsScan) : ParamsScan ⊕ Option ParamsResult :=
  let sA := skipSpaces s.sA
  if sA = [] then .inr (some ⟨.sOk, s.header, []⟩)
  else
    match getParamNameAndValue fuel true sA with
    | none => .inr none
    | some p =>
      if p.hRes.failed then
        .inr (some ⟨if p.hRes = .mxNoData then .mxInvalidData else p.hRes, s.header, p.sA⟩)
      else
        match addParameter parseDate s p with
        | .error hRes => .inr (some ⟨hRes, s.header, p.sA⟩)
        | .ok s =>
          match s.sA with
          | [] => .inr (some ⟨.sOk, s.header, []⟩)
          | chA :: rest =>
            if chA != chSemicolon then .inr (some ⟨.mxInvalidData, s.header, s.sA⟩)
            else if rest = [] then .inr (some ⟨.sOk, s.header, []⟩)
            else .inl { s with sA := rest }

/-- The check behind the loop of `Parse`. -/
def parseEnd (r : ParamsResult) : HResult × ContentDisposition :=
  if r.hRes.failed then (r.hRes, r.header)
  else if skipSpaces r.sA ≠ [] then (.mxInvalidData, r.header)
  else (.sOk, r.header)

/-- `Parse`, with at most `fuel` turns of each loop. -/
def ContentDisposition.parse (fuel : Nat) (h : ContentDisposition) (szValueA : List Byte) :
    Option (HResult × ContentDisposition) :=
  let sA := skipSpaces szValueA
  let szValueA := skipUntil (ascii ";, \t") sA
  let szTypeA := sA.take (sA.length - szValueA.length)
  if szTypeA = [] then some (.mxInvalidData, h)
  else
    match h.setType szTypeA with
    | .error hRes => some (hRes, h)
    | .ok h =>
      match skipSpaces szValueA with
      | [] => some (parseEnd ⟨.sOk, h, []⟩)
      | chA :: rest =>
        if chA == chSemicolon then
          (Loop.run (paramTurn parseDate fuel) fuel ⟨h, 0, rest⟩).join.map parseEnd
        else some (parseEnd ⟨.sOk, h, chA :: rest⟩)

end Parse

/-! ### A name and a file name -/

/-- Blanks between two parts of a header. -/
structure Blanks where
  text : List Byte
  isBlank : text.all isBlank = true

def Blanks.none : Blanks := ⟨[], rfl⟩

/-- The blanks around a parameter. -/
structure Gaps where
  beforeName : Blanks
  afterName : Blanks
  beforeValue : Blanks
  afterValue : Blanks

/-- The parameter `name="s"` in front of `rest`. -/
def Gaps.param (g : Gaps) (name s rest : List Byte) : List Byte :=
  g.beforeName.text ++ (name ++ (g.afterName.text ++ chEquals :: (g.beforeValue.text ++
    chQuote :: (s ++ chQuote :: (g.afterValue.text ++ rest)))))

/-- How a header with a name and a file name is written. -/
structure UploadLayout where
  lead : Blanks
  typeEnd : Blanks
  first : Gaps
  second : Gaps
  bNameFirst : Bool

/-- The value `form-data; name="s"; filename="s"`, in the given layout. -/
def UploadLayout.value (l : UploadLayout) (s : List Byte) : List Byte :=
  let szFirstA := if l.bNameFirst then ascii "name" else ascii "filename"
  let szSecondA := if l.bNameFirst then ascii "filename" else ascii "name"
  l.lead.text ++ (ascii "form-data" ++ (l.typeEnd.text ++ chSemicolon ::
    l.first.param szFirstA s (chSemicolon :: l.second.param szSecondA s [])))

/-- The names are decoded faithfully: enough turns give `S_OK` and the text, for the name
and for the file name. -/
def UploadNames (parseDate : List WChar → Except HResult DateTime) (h : ContentDisposition)
    (l : UploadLayout) (szTextW : List WChar) : Prop :=
  ∃ n h', (∀ fuel ≥ n, h.parse parseDate fuel (l.value (utf8Text szTextW)) = some (.sOk, h')) ∧
    h'.getName = szTextW ∧ h'.getFileName = szTextW

theorem skipSpaces_blanks (b : Blanks) (rest : List Byte) :
    skipSpaces (b.text ++ rest) = skipSpaces rest :=
  List.dropWhile_append_of_pos (List.all_eq_true.mp b.isBlank)

/-- What no blank has and the character behind the blanks has not either. -/
theorem charAt_blanks {p : Byte → Bool} (hp : ∀ ch, isBlank ch = true → p ch = false) (b : Blanks)
    {rest : List Byte} (hrest : p (charAt rest 0) = false) :
    p (charAt (b.text ++ rest) 0) = false := by
  obtain ⟨text, htext⟩ := b
  cases text with
  | nil => exact hrest
  | cons ch text => exact hp ch (List.all_eq_true.mp htext ch List.mem_cons_self)

theorem isTokenChar_of_isBlank (ch : Byte) (h : isBlank ch = true) : isTokenChar ch = false := by
  simp only [isBlank, Bool.or_eq_true, beq_iff_eq] at h
  rcases h with rfl | rfl
  · decide
  · decide

/-- Text without quotes and backslashes is read up to the closing quote. -/
theorem scanQuoted_text {s : List Byte} (hs : s.all isQuotedText = true) (rest : List Byte) :
    ∀ cStrA, scanQuoted (s ++ chQuote :: rest) cStrA = ⟨.sOk, cStrA ++ s, rest⟩ := by
  induction s with
  | nil =>
    intro cStrA
    rw [List.nil_append, scanQuoted_quote, List.append_nil]
  | cons ch s ih =>
    intro cStrA
    rw [List.all_cons, Bool.and_eq_true] at hs
    obtain ⟨hq, hb⟩ := isQuotedText_ne hs.1
    rw [List.cons_append, scanQuoted_plain hq hb, ih hs.2, List.append_assoc,
      List.singleton_append]

theorem quotedTextOk_text {s : List Byte} (hs : s.all isQuotedText = true) (rest : List Byte) :
    quotedTextOk (s ++ chQuote :: rest) = true := by
  induction s with
  | nil => exact quotedTextOk_quote rest
  | cons ch s ih =>
    rw [List.all_cons, Bool.and_eq_true] at hs
    rw [List.cons_append, quotedTextOk_plain hs.1, ih hs.2]

/-- **A parameter in quotes is read up to what follows it.** -/
theorem getParamNameAndValue_quoted {fuel : Nat} {name : Token} (hne : name.text ≠ [])
    (hlast : (name.text.getLast? == some chAsterisk) = false) (g : Gaps) {s : List Byte}
    (hs : s.all isQuotedText = true) {rest : List Byte} (hfuel : (g.param name.text s rest).length < fuel) :
    getParamNameAndValue fuel true (skipSpaces (g.param name.text s rest)) =
      some (convertCharset true false name.text ⟨.sOk, s, g.afterValue.text ++ rest⟩) := by
  have hstart : skipSpaces (g.param name.text s rest) = name.text ++ (g.afterName.text ++
      chEquals :: (g.beforeValue.text ++ chQuote :: (s ++ chQuote :: (g.afterValue.text ++ rest)))) := by
    rw [Gaps.param, skipSpaces_blanks]
    obtain ⟨ch, tail, htext⟩ := List.exists_cons_of_ne_nil hne
    have hch := List.all_eq_true.mp name.isToken ch (htext ▸ List.mem_cons_self)
    rw [htext, List.cons_append, skipSpaces_cons]
    by_contra hblank
    rw [isTokenChar_of_isBlank ch (by simpa using hblank)] at hch
    cases hch
  have htoken := getToken_append name.isToken (g.afterName.text ++ chEquals ::
    (g.beforeValue.text ++ chQuote :: (s ++ chQuote :: (g.afterValue.text ++ rest))))
    (charAt_blanks isTokenChar_of_isBlank g.afterName rfl)
  have hquoted : getQuotedString fuel (chQuote :: (s ++ chQuote :: (g.afterValue.text ++ rest))) =
      some ⟨.sOk, s, g.afterValue.text ++ rest⟩ := by
    have hlen : (s ++ chQuote :: (g.afterValue.text ++ rest)).length < fuel := by
      simp only [Gaps.param, List.length_append, List.length_cons] at hfuel ⊢
      omega
    rw [getQuotedString, if_pos (by decide), run_quotedTurn fuel [] hlen (quotedTextOk_text hs _),
      scanQuoted_text hs, List.nil_append]
  rw [hstart]
  simp only [getParamNameAndValue, htoken, hlast, skipSpaces_blanks]
  rw [if_neg hne, skipSpaces_cons (by decide)]
  simp only [bne_self_eq_false, Bool.false_eq_true, if_false, getParamValue, skipSpaces_blanks,
    skipSpaces_cons (show isBlank chQuote = false by decide), Bool.false_and, plainValue,
    charAt_cons_zero, beq_self_eq_true, if_true, hquoted]
  rfl

section Upload

variable (parseDate : List WChar → Except HResult DateTime)

/-- The two parameters that hold a text. -/
inductive TextParam
  | name
  | fileName

def TextParam.token : TextParam → Token
  | .name => ⟨ascii "name", by decide⟩
  | .fileName => ⟨ascii "filename", by decide⟩

def TextParam.bit : TextParam → UInt32
  | .name => 0x0001
  | .fileName => 0x0002

def TextParam.set : TextParam → ContentDisposition → List WChar → ContentDisposition
  | .name => ContentDisposition.setName
  | .fileName => ContentDisposition.setFileName

theorem addText_plain {nBit nExtendedBit : UInt32}
    (setText : ContentDisposition → List WChar → ContentDisposition) {s : ParamsScan}
    {p : ParamResult} (hp : p.bExtendedParam = false) (hfirst : s.nHasItem &&& nBit = 0)
    (hplain : (s.nHasItem ||| nBit) &&& nExtendedBit = 0) :
    addText nBit nExtendedBit setText s p =
      .ok ⟨setText s.header (rawIso88591ToUtf8 p.cStrValueW), s.nHasItem ||| nBit, p.sA⟩ := by
  simp [addText, hp, hfirst, hplain]

/-- The first of its kind in the value, and not extended. -/
theorem addParameter_text (k : TextParam) (h : ContentDisposition) {nHasItem : UInt32}
    (hItem : nHasItem ∈ [0, 1, 2]) (hk : nHasItem ≠ k.bit) (sA rest : List Byte)
    (cStrValueW : List WChar) :
    addParameter parseDate ⟨h, nHasItem, sA⟩ ⟨.sOk, k.token.text, cStrValueW, rest, false⟩ =
      .ok ⟨k.set h (rawIso88591ToUtf8 cStrValueW), nHasItem ||| k.bit, rest⟩ := by
  have hbits : nHasItem &&& k.bit = 0 ∧ (nHasItem ||| k.bit) &&& (k.bit <<< 4) = 0 := by
    rw [List.mem_cons, List.mem_pair] at hItem
    cases k with
    | name => rcases hItem with rfl | rfl | rfl <;> first | exact absurd rfl hk | decide
    | fileName => rcases hItem with rfl | rfl | rfl <;> first | exact absurd rfl hk | decide
  cases k with
  | name =>
    have hname : strCompareA (ascii "name") (ascii "name") true = true := by decide
    exact (if_pos hname).trans (addText_plain _ rfl hbits.1 hbits.2)
  | fileName =>
    have hname : ¬ strCompareA (ascii "filename") (ascii "name") true = true := by decide
    have hfile : strCompareA (ascii "filename") (ascii "filename") true = true := by decide
    exact ((if_neg hname).trans (if_pos hfile)).trans (addText_plain _ rfl hbits.1 hbits.2)

/-- What is read of a parameter whose text the decoder takes. -/
theorem getParamNameAndValue_text {fuel : Nat} (k : TextParam) (g : Gaps) {s : List Byte}
    (hs : s.all isQuotedText = true) {rest : List Byte} (hrest : skipSpaces rest = rest)
    (hfuel : (g.param k.token.text s rest).length < fuel) :
    getParamNameAndValue fuel true (skipSpaces (g.param k.token.text s rest)) =
      some (match utf8Decode s with
        | .error _ => ⟨.mxInvalidData, k.token.text, [], g.afterValue.text ++ rest, false⟩
        | .ok w => ⟨.sOk, k.token.text, w, rest, false⟩) := by
  have hne : k.token.text ≠ [] := by cases k <;> decide
  have hlast : (k.token.text.getLast? == some chAsterisk) = false := by cases k <;> decide
  rw [getParamNameAndValue_quoted hne hlast g hs hfuel, convertCharset_utf8, skipSpaces_blanks,
    hrest]
  cases hdec : utf8Decode s with
  | error hRes =>
    rw [utf8DecodeFrom_error hdec]
    rfl
  | ok w => rfl

theorem param_ne_nil (k : TextParam) (g : Gaps) (s rest : List Byte) :
    skipSpaces (g.param k.token.text s rest) ≠ [] := by
  rw [Gaps.param, skipSpaces_blanks]
  cases k with
  | name => exact List.cons_ne_nil _ _
  | fileName => exact List.cons_ne_nil _ _

/-- A turn whose parameter is refused. -/
theorem paramTurn_refused {fuel : Nat} (k : TextParam) (g : Gaps) {s : List Byte}
    (hs : s.all isQuotedText = true) {rest : List Byte} (hrest : skipSpaces rest = rest)
    (hfuel : (g.param k.token.text s rest).length < fuel) {hRes : HResult}
    (hdec : utf8Decode s = .error hRes) (h : ContentDisposition) (nHasItem : UInt32) :
    paramTurn parseDate fuel ⟨h, nHasItem, g.param k.token.text s rest⟩ =
      .inr (some ⟨.mxInvalidData, h, g.afterValue.text ++ rest⟩) := by
  have hget := getParamNameAndValue_text k g hs hrest hfuel
  rw [hdec] at hget
  simp only [paramTurn, if_neg (param_ne_nil k g s rest), hget]
  rfl

/-- A turn whose parameter is taken. -/
theorem paramTurn_taken {fuel : Nat} (k : TextParam) (g : Gaps) {s : List Byte}
    (hs : s.all isQuotedText = true) {rest : List Byte} (hrest : skipSpaces rest = rest)
    (hfuel : (g.param k.token.text s rest).length < fuel) {w : List WChar}
    (hdec : utf8Decode s = .ok w) (h : ContentDisposition) {nHasItem : UInt32}
    (hItem : nHasItem ∈ [0, 1, 2]) (hk : nHasItem ≠ k.bit) :
    paramTurn parseDate fuel ⟨h, nHasItem, g.param k.token.text s rest⟩ =
      match rest with
      | [] => .inr (some ⟨.sOk, k.set h (rawIso88591ToUtf8 w), []⟩)
      | chA :: tail =>
        if chA != chSemicolon then
          .inr (some ⟨.mxInvalidData, k.set h (rawIso88591ToUtf8 w), rest⟩)
        else if tail = [] then .inr (some ⟨.sOk, k.set h (rawIso88591ToUtf8 w), []⟩)
        else .inl ⟨k.set h (rawIso88591ToUtf8 w), nHasItem ||| k.bit, tail⟩ := by
  have hget := getParamNameAndValue_text k g hs hrest hfuel
  rw [hdec] at hget
  simp only [paramTurn, if_neg (param_ne_nil k g s rest), hget]
  rw [if_neg (by decide), addParameter_text parseDate k h hItem hk]

theorem skipUntil_append {szStopCharsA pre rest : List Byte}
    (hpre : pre.all (fun ch => !szStopCharsA.contains ch) = true)
    (hrest : (!szStopCharsA.contains (charAt rest 0)) = false) (hne : rest ≠ []) :
    skipUntil szStopCharsA (pre ++ rest) = rest := by
  rw [skipUntil, List.dropWhile_append_of_pos (List.all_eq_true.mp hpre)]
  obtain ⟨ch, tail, rfl⟩ := List.exists_cons_of_ne_nil hne
  rw [charAt_cons_zero] at hrest
  rw [List.dropWhile_cons, if_neg (by rw [hrest]; decide)]

/-- The header once its type is read. -/
def withType (h : ContentDisposition) : ContentDisposition :=
  { h with cStrTypeA := ascii "form-data" }

/-- The parameters are reached. -/
theorem parse_formData (fuel : Nat) (h : ContentDisposition) (lead typeEnd : Blanks)
    (rest : List Byte) :
    h.parse parseDate fuel
        (lead.text ++ (ascii "form-data" ++ (typeEnd.text ++ chSemicolon :: rest))) =
      (Loop.run (paramTurn parseDate fuel) fuel ⟨withType h, 0, rest⟩).join.map parseEnd := by
  have hstops : ∀ ch, isBlank ch = true → (!(ascii ";, \t").contains ch) = false := by
    intro ch hch
    simp only [isBlank, Bool.or_eq_true, beq_iff_eq] at hch
    rcases hch with rfl | rfl
    · decide
    · decide
  have hstart : skipSpaces (lead.text ++ (ascii "form-data" ++
      (typeEnd.text ++ chSemicolon :: rest))) =
        ascii "form-data" ++ (typeEnd.text ++ chSemicolon :: rest) := by
    rw [skipSpaces_blanks]
    rfl
  have huntil : skipUntil (ascii ";, \t") (ascii "form-data" ++
      (typeEnd.text ++ chSemicolon :: rest)) = typeEnd.text ++ chSemicolon :: rest :=
    skipUntil_append (by decide) (charAt_blanks hstops typeEnd rfl) (by simp)
  have htype : (ascii "form-data" ++ (typeEnd.text ++ chSemicolon :: rest)).take
      ((ascii "form-data" ++ (typeEnd.text ++ chSemicolon :: rest)).length -
        (typeEnd.text ++ chSemicolon :: rest).length) = ascii "form-data" := by
    rw [List.length_append, Nat.add_sub_cancel, List.take_left]
  have hset : h.setType (ascii "form-data") = .ok (withType h) := rfl
  have hblanks : skipSpaces (typeEnd.text ++ chSemicolon :: rest) = chSemicolon :: rest := by
    rw [skipSpaces_blanks, skipSpaces_cons (by decide)]
  simp only [ContentDisposition.parse, hstart, huntil, htype, hset, hblanks]
  rw [if_neg (by decide), if_pos (by decide)]

def UploadLayout.firstKind (l : UploadLayout) : TextParam :=
  if l.bNameFirst then .name else .fileName

def UploadLayout.secondKind (l : UploadLayout) : TextParam :=
  if l.bNameFirst then .fileName else .name

theorem value_eq (l : UploadLayout) (s : List Byte) :
    l.value s = l.lead.text ++ (ascii "form-data" ++ (l.typeEnd.text ++ chSemicolon ::
      l.first.param l.firstKind.token.text s
        (chSemicolon :: l.second.param l.secondKind.token.text s []))) := by
  rw [UploadLayout.value, UploadLayout.firstKind, UploadLayout.secondKind]
  cases l.bNameFirst with
  | false => rfl
  | true => rfl

/-- **What is parsed**: the text of both parameters is decoded twice. -/
theorem parse_upload {fuel : Nat} (h : ContentDisposition) (l : UploadLayout) {s : List Byte}
    (hs : s.all isQuotedText = true) (hfuel : (l.value s).length < fuel) :
    h.parse parseDate fuel (l.value s) = some (match utf8Decode s with
      | .error _ => (.mxInvalidData, withType h)
      | .ok w => (.sOk, l.secondKind.set (l.firstKind.set (withType h) (rawIso88591ToUtf8 w))
          (rawIso88591ToUtf8 w))) := by
  obtain ⟨fuel, rfl⟩ : ∃ n, fuel = n + 2 := ⟨fuel - 2, by
    rw [value_eq] at hfuel
    simp only [List.length_append, List.length_cons] at hfuel
    omega⟩
  have hlen := hfuel
  rw [value_eq] at hlen
  simp only [List.length_append, List.length_cons] at hlen
  have hfirst : (l.first.param l.firstKind.token.text s
      (chSemicolon :: l.second.param l.secondKind.token.text s [])).length < fuel + 2 := by omega
  have hsecond : (l.second.param l.secondKind.token.text s []).length < fuel + 2 := by
    have hsub : (l.second.param l.secondKind.token.text s []).length <
        (l.first.param l.firstKind.token.text s
          (chSemicolon :: l.second.param l.secondKind.token.text s [])).length := by
      simp only [Gaps.param, List.length_append, List.length_cons, List.length_nil]
      omega
    omega
  have hrest : skipSpaces (chSemicolon :: l.second.param l.secondKind.token.text s []) =
      chSemicolon :: l.second.param l.secondKind.token.text s [] := skipSpaces_cons (by decide) _
  rw [value_eq, parse_formData]
  cases hdec : utf8Decode s with
  | error hRes =>
    rw [Loop.run_succ_inr (paramTurn_refused parseDate l.firstKind l.first hs hrest hfirst hdec
      (withType h) 0)]
    rfl
  | ok w =>
    have hbits : (0 : UInt32) ≠ l.firstKind.bit ∧ (0 ||| l.firstKind.bit) ∈ ([0, 1, 2] : List UInt32) ∧
        (0 ||| l.firstKind.bit) ≠ l.secondKind.bit := by
      rw [UploadLayout.firstKind, UploadLayout.secondKind]
      cases l.bNameFirst with
      | false => decide
      | true => decide
    have hne : l.second.param l.secondKind.token.text s [] ≠ [] := by
      intro hnil
      exact param_ne_nil l.secondKind l.second s [] (by rw [hnil]; rfl)
    have hturn := paramTurn_taken parseDate l.firstKind l.first hs hrest hfirst hdec (withType h)
      (by decide) hbits.1
    simp only [bne_self_eq_false, Bool.false_eq_true, if_false, if_neg hne] at hturn
    rw [Loop.run_succ_inl hturn, Loop.run_succ_inr (paramTurn_taken parseDate l.secondKind l.second hs
      rfl hsecond hdec _ hbits.2.1 hbits.2.2)]
    rfl

theorem names_set (h : ContentDisposition) (l : UploadLayout) (szTextW : List WChar) :
    (l.secondKind.set (l.firstKind.set h szTextW) szTextW).getName = szStr szTextW ∧
      (l.secondKind.set (l.firstKind.set h szTextW) szTextW).getFileName = szStr szTextW := by
  have hidem : szStr (szStr szTextW) = szStr szTextW := List.takeWhile_idem
  rw [UploadLayout.firstKind, UploadLayout.secondKind]
  cases l.bNameFirst with
  | false => exact ⟨hidem, hidem⟩
  | true => exact ⟨hidem, hidem⟩

/-- No control characters, quotes and backslashes. -/
def IsUploadText (szTextW : List WChar) : Prop :=
  ∀ u ∈ szTextW, 0x20 ≤ u ∧ u ≠ 0x22 ∧ u ≠ 0x5C

theorem isUploadText_iff (szTextW : List WChar) : IsUploadText szTextW ↔
    szTextW.all (fun u => 0x20 ≤ u && u != 0x22 && u != 0x5C) = true := by
  simp [IsUploadText, List.all_eq_true, and_assoc]

theorem isQuotedText_utf8Text {s : List WChar} (hs : isWellFormed s = true)
    (htext : IsUploadText s) : (utf8Text s).all isQuotedText = true := by
  rw [List.all_eq_true]
  intro ch hch
  have hplain : 0x20 ≤ ch.toNat ∧ ch ≠ 0x5C ∧ ch ≠ 0x22 := by
    rcases mem_utf8Text hs ch hch with ⟨u, hu, hlt, rfl⟩ | hle
    · obtain ⟨hsp, hq, hb⟩ := htext u hu
      have hval : (UInt8.ofNat u.toNat).toNat = u.toNat := toNat_ofNat_byte (by omega)
      refine ⟨?_, fun h => hb ?_, fun h => hq ?_⟩
      · rw [hval]
        simpa only [UInt16.le_iff_toNat_le, UInt16.reduceToNat] using hsp
      · rw [← UInt16.toNat_inj, ← hval, h]
        rfl
      · rw [← UInt16.toNat_inj, ← hval, h]
        rfl
    · refine ⟨by omega, ?_, ?_⟩
      · rintro rfl
        exact absurd hle (by decide)
      · rintro rfl
        exact absurd hle (by decide)
  have hle : 0x20 ≤ ch := by
    simpa only [UInt8.le_iff_toNat_le, UInt8.reduceToNat] using hplain.1
  simp [isQuotedText, hle, chBackslash, chQuote, hplain.2.1, hplain.2.2]

/-- **Upload names are decoded faithfully exactly when they are ASCII.** -/
theorem uploadNames_iff (h : ContentDisposition) (l : UploadLayout) {szTextW : List WChar}
    (hs : isWellFormed szTextW = true) (htext : IsUploadText szTextW) :
    UploadNames parseDate h l szTextW ↔ ∀ u ∈ szTextW, u < 0x80 := by
  have hquoted := isQuotedText_utf8Text hs htext
  have hraw := szStr_rawIso88591ToUtf8_iff fun u hu => (htext u hu).1
  obtain ⟨b, henc, hdec⟩ := utf8_roundTrip hs
  obtain rfl : utf8Text szTextW = b := Except.ok.inj ((utf8Encode_eq_utf8Text hs).symm.trans henc)
  constructor
  · rintro ⟨n, h', hparse, hname, -⟩
    have hrun := hparse (n + (l.value (utf8Text szTextW)).length + 1) (by omega)
    rw [parse_upload parseDate h l hquoted (by omega), hdec, Option.some.injEq] at hrun
    by_cases hkept : szTextW.all isKept = true
    · rw [if_pos hkept] at hrun
      rw [← (Prod.mk.inj hrun).2, (names_set _ l _).1] at hname
      exact hraw.mp hname
    · rw [if_neg hkept] at hrun
      cases (Prod.mk.inj hrun).1
  · intro hascii
    have hself := hraw.mpr hascii
    have hkept : szTextW.all isKept = true := by
      rw [List.all_eq_true]
      intro u hu
      have hlt : u.toNat < 0x80 := by
        simpa only [UInt16.lt_iff_toNat_lt, UInt16.reduceToNat] using hascii u hu
      rw [isKept_iff]
      omega
    rw [if_pos hkept] at hdec
    obtain ⟨hname, hfile⟩ := names_set (withType h) l (rawIso88591ToUtf8 szTextW)
    rw [hself] at hname hfile
    refine ⟨(l.value (utf8Text szTextW)).length + 1, _, fun fuel hfuel => ?_, hname, hfile⟩
    rw [parse_upload parseDate h l hquoted (by omega), hdec]

end Upload

/-- No blanks, and the name in front. -/
def plainLayout : UploadLayout :=
  let none : Blanks := ⟨[], rfl⟩
  let blank : Blanks := ⟨[chSpace], rfl⟩
  ⟨none, none, ⟨blank, none, none, none⟩, ⟨blank, none, none, none⟩, true⟩

theorem uploadNames_ascii :
    UploadNames (fun _ => .error .mxInvalidData) .create plainLayout (wide "a b.txt") :=
  (uploadNames_iff _ _ plainLayout (show isWellFormed (wide "a b.txt") = true by decide)
    ((isUploadText_iff _).mpr (by decide))).mpr fun u hu => of_decide_eq_true
      (List.all_eq_true.mp (show (wide "a b.txt").all (· < 0x80) = true by decide) u hu)

/-- A letter with an accent is lost. -/
theorem uploadNames_accent : isWellFormed [0x63, 0x61, 0x66, 0xE9] = true ∧
    IsUploadText [0x63, 0x61, 0x66, 0xE9] ∧
    plainLayout.value (utf8Text [0x63, 0x61, 0x66, 0xE9]) =
      ascii "form-data; name=\"caf" ++ [0xC3, 0xA9] ++ ascii "\"; filename=\"caf" ++
        [0xC3, 0xA9] ++ ascii "\"" ∧
    ContentDisposition.parse (fun _ => .error .mxInvalidData) 100 .create
        (plainLayout.value (utf8Text [0x63, 0x61, 0x66, 0xE9])) =
      some (.sOk, ((withType .create).setName (wide "caf")).setFileName (wide "caf")) ∧
    ¬ UploadNames (fun _ => .error .mxInvalidData) .create plainLayout
      [0x63, 0x61, 0x66, 0xE9] := by
  have htext : IsUploadText [0x63, 0x61, 0x66, 0xE9] := (isUploadText_iff _).mpr (by decide)
  have hquoted := isQuotedText_utf8Text (s := [0x63, 0x61, 0x66, 0xE9]) (by decide) htext
  have hdec : utf8Decode (utf8Text [0x63, 0x61, 0x66, 0xE9]) = .ok [0x63, 0x61, 0x66, 0xE9] := by
    decide
  have hraw : rawIso88591ToUtf8 [0x63, 0x61, 0x66, 0xE9] = wide "caf" := by decide
  have hrun : ∀ fuel, 100 ≤ fuel → ContentDisposition.parse (fun _ => .error .mxInvalidData) fuel
      .create (plainLayout.value (utf8Text [0x63, 0x61, 0x66, 0xE9])) =
        some (.sOk, ((withType .create).setName (wide "caf")).setFileName (wide "caf")) := by
    intro fuel hfuel
    have hlen : (plainLayout.value (utf8Text [0x63, 0x61, 0x66, 0xE9])).length < 100 := by decide
    rw [parse_upload _ .create plainLayout hquoted (by omega), hdec]
    simp only [hraw]
    rfl
  refine ⟨by decide, htext, by decide, hrun 100 (Nat.le_refl _), ?_⟩
  rintro ⟨n, h', hparse, hname, -⟩
  have hrun' := hrun (n + 100) (by omega)
  rw [hparse (n + 100) (by omega), Option.some.injEq] at hrun'
  rw [(Prod.mk.inj hrun').2] at hname
  exact absurd hname (by decide)

end MxLib.Http
