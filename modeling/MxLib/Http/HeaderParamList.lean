import MxLib.Http.HeaderParams
import MxLib.Http.HttpHeaderEntContentDisposition
import MxLib.Http.QuotedString

/-!
# Lists of parameters

Many headers are a word and a list of parameters behind it.  `addParam` and
`paramListTurn` are the parts of their classes that do not differ: `AddParam`, and the
loop of `Parse`, whose headers differ in what may stand between two parameters.

A list of parameters as a header may have it is a list of `ParamText`, and `run_paramList`
says that the loop reads all of them: the names, and the values without their quotes and
escapes.
-/

namespace MxLib.Http

open MxLib.Library

/-- The names and the values, as `aParamsList` has them. -/
abbrev ParamsList := List (List Byte × List WChar)

/-- `AddParam` -/
def addParam (aParamsList : ParamsList) (szNameA : List Byte) (szValueW : List WChar) :
    Except HResult ParamsList :=
  let szNameA := szStr szNameA
  if (getToken szNameA).1 = [] ∨ (getToken szNameA).2 ≠ [] then .error .mxInvalidData
  else .ok (aParamsList ++ [(szNameA, szStr szValueW)])

/-- The loop of `Parse` between two parameters. -/
structure ParamListScan where
  aParamsList : ParamsList
  sA : List Byte

/-- How the loop is left. -/
structure ParamListResult where
  hRes : HResult
  aParamsList : ParamsList
  sA : List Byte

/-- What follows a parameter: a separator, or the end. -/
def paramSeparator (isSeparator : Byte → Bool) (aParamsList : ParamsList) :
    List Byte → ParamListScan ⊕ Option ParamListResult
  | [] => .inr (some ⟨.sOk, aParamsList, []⟩)
  | chA :: rest =>
    if !isSeparator chA then .inr (some ⟨.mxInvalidData, aParamsList, chA :: rest⟩)
    else if rest = [] then .inr (some ⟨.sOk, aParamsList, []⟩)
    else .inl ⟨aParamsList, rest⟩

/-- A turn of the loop of `Parse`, and its exit; `none` stands for a text in quotes that
is never left. -/
def paramListTurn (isSeparator : Byte → Bool) (fuel : Nat) (s : ParamListScan) :
    ParamListScan ⊕ Option ParamListResult :=
  let sA := skipSpaces s.sA
  if sA = [] then .inr (some ⟨.sOk, s.aParamsList, []⟩)
  else
    match getParamNameAndValue fuel true sA with
    | none => .inr none
    | some p =>
      if p.hRes.failed then
        .inr (some ⟨if p.hRes = .mxNoData then .mxInvalidData else p.hRes, s.aParamsList, p.sA⟩)
      else
        match addParam s.aParamsList p.cStrTokenA p.cStrValueW with
        | .error hRes => .inr (some ⟨hRes, s.aParamsList, p.sA⟩)
        | .ok aParamsList => paramSeparator isSeparator aParamsList p.sA

/-- The check behind the loop. -/
def ParamListResult.atEnd (r : ParamListResult) : HResult × ParamsList :=
  if r.hRes.failed then (r.hRes, r.aParamsList)
  else if skipSpaces r.sA ≠ [] then (.mxInvalidData, r.aParamsList)
  else (.sOk, r.aParamsList)

@[simp] theorem atEnd_snd (r : ParamListResult) : r.atEnd.2 = r.aParamsList := by
  rw [ParamListResult.atEnd]
  split
  · rfl
  · split
    · rfl
    · rfl

/-- The loop ended well, if `Parse` does. -/
theorem failed_of_atEnd {r : ParamListResult} (h : r.atEnd.1 = .sOk) : r.hRes.failed = false := by
  rw [ParamListResult.atEnd] at h
  by_contra hfailed
  rw [if_pos (by simpa using hfailed)] at h
  have hcode : r.hRes = .sOk := h
  rw [hcode] at hfailed
  exact hfailed rfl

/-! ### Parameters and their text -/

/-- The name of a plain parameter. -/
structure ParamName extends Token where
  notEmpty : text ≠ []
  notExtended : (text.getLast? == some chAsterisk) = false

def isPrintable (ch : Byte) : Bool := 0x20 ≤ ch && ch ≤ 0x7E

/-- A character in quotes, with a backslash or without one. -/
structure QuotedChar where
  ch : Byte
  bEscaped : Bool
  isPrintable : isPrintable ch = true
  isPlain : bEscaped = true ∨ isPlainA ch = true

def QuotedChar.text (c : QuotedChar) : List Byte :=
  if c.bEscaped then [chBackslash, c.ch] else [c.ch]

/-- A value as it stands in a header. -/
inductive ParamValue
  | token (t : Token) (notEmpty : t.text ≠ [])
  | quoted (l : List QuotedChar)

def ParamValue.text : ParamValue → List Byte
  | .token t _ => t.text
  | .quoted l => chQuote :: (l.flatMap QuotedChar.text ++ [chQuote])

/-- The value without quotes and escapes. -/
def ParamValue.value : ParamValue → List Byte
  | .token t _ => t.text
  | .quoted l => l.map QuotedChar.ch

/-- The parameter `name=value`, with blanks on both sides. -/
structure ParamText where
  before : Blanks
  name : ParamName
  value : ParamValue
  after : Blanks

def ParamText.text (p : ParamText) (rest : List Byte) : List Byte :=
  p.before.text ++ (p.name.text ++ chEquals :: (p.value.text ++ (p.after.text ++ rest)))

/-- The entry of `aParamsList` for a parameter. -/
def ParamText.entry (p : ParamText) : List Byte × List WChar :=
  (p.name.text, p.value.value.map UInt8.toUInt16)

/-- Parameters with a separator in front of each, and what is behind them. -/
def moreParams (chSeparator : Byte) (tail : List Byte) : List ParamText → List Byte
  | [] => tail
  | p :: l => chSeparator :: p.text (moreParams chSeparator tail l)

/-- A list of parameters with separators between them. -/
def paramsText (chSeparator : Byte) : List ParamText → List Byte
  | [] => []
  | p :: l => p.text (moreParams chSeparator [] l)

/-! ### What is read -/

theorem isTokenChar_ne_zero {ch : Byte} (h : isTokenChar ch = true) : ch ≠ 0 := by
  rintro rfl
  exact absurd h (by decide)

theorem isTokenChar_lt {ch : Byte} (h : isTokenChar ch = true) : ch.toNat < 0x80 := by
  simp only [isTokenChar, Bool.not_eq_true', Bool.or_eq_false_iff, decide_eq_false_iff_not,
    UInt8.not_lt] at h
  have hle := UInt8.le_iff_toNat_le.mp h.1.2
  exact Nat.lt_of_le_of_lt hle (by decide)

theorem isPrintable_lt {ch : Byte} (h : isPrintable ch = true) : ch.toNat < 0x80 := by
  simp only [isPrintable, Bool.and_eq_true, decide_eq_true_eq] at h
  have hle := UInt8.le_iff_toNat_le.mp h.2
  exact Nat.lt_of_le_of_lt hle (by decide)

theorem isPrintable_ne_zero {ch : Byte} (h : isPrintable ch = true) : ch ≠ 0 := by
  rintro rfl
  exact absurd h (by decide)

theorem getToken_self {t : List Byte} (h : t.all isTokenChar = true) : getToken t = (t, []) := by
  have happ := getToken_append h [] (by decide)
  rwa [List.append_nil] at happ

theorem szStr_token {t : List Byte} (h : t.all isTokenChar = true) : szStr t = t :=
  szStr_of_ne_zero fun ch hch => isTokenChar_ne_zero (List.all_eq_true.mp h ch hch)

theorem addParam_token (aParamsList : ParamsList) {t : Token} (hne : t.text ≠ [])
    (szValueW : List WChar) :
    addParam aParamsList t.text szValueW = .ok (aParamsList ++ [(t.text, szStr szValueW)]) := by
  simp only [addParam, szStr_token t.isToken, getToken_self t.isToken]
  rw [if_neg (by simp [hne])]

/-- The first character of a token is no blank. -/
theorem skipSpaces_token {t : List Byte} (h : t.all isTokenChar = true) (hne : t ≠ [])
    (rest : List Byte) : skipSpaces (t ++ rest) = t ++ rest := by
  obtain ⟨ch, tail, rfl⟩ := List.exists_cons_of_ne_nil hne
  have hch := List.all_eq_true.mp h ch List.mem_cons_self
  rw [List.cons_append, skipSpaces_cons]
  by_contra hblank
  rw [isTokenChar_of_isBlank ch (by simpa using hblank)] at hch
  cases hch

/-- **A plain name is read up to its equals sign.** -/
theorem getParamNameAndValue_name (fuel : Nat) (b : Bool) (name : ParamName) (sA : List Byte) :
    getParamNameAndValue fuel b (name.text ++ chEquals :: sA) =
      (plainValue fuel (skipSpaces sA)).map (convertCharset b false name.text) := by
  have htoken := getToken_append name.isToken (chEquals :: sA) rfl
  simp only [getParamNameAndValue, htoken, name.notExtended]
  rw [if_neg name.notEmpty, skipSpaces_cons (by decide)]
  simp only [bne_self_eq_false, Bool.false_eq_true, if_false, getParamValue, Bool.false_and]

/-- What is in quotes is read up to the closing quote. -/
theorem scanQuoted_chars (l : List QuotedChar) (rest : List Byte) : ∀ cStrA,
    scanQuoted (l.flatMap QuotedChar.text ++ chQuote :: rest) cStrA =
      ⟨.sOk, cStrA ++ l.map QuotedChar.ch, rest⟩ := by
  induction l with
  | nil =>
    intro cStrA
    rw [List.flatMap_nil, List.nil_append, scanQuoted_quote, List.map_nil, List.append_nil]
  | cons c l ih =>
    intro cStrA
    have hstep : scanQuoted (c.text ++ (l.flatMap QuotedChar.text ++ chQuote :: rest)) cStrA =
        scanQuoted (l.flatMap QuotedChar.text ++ chQuote :: rest) (cStrA ++ [c.ch]) := by
      rw [QuotedChar.text]
      by_cases hesc : c.bEscaped = true
      · rw [if_pos hesc]
        exact scanQuoted_escape (isPrintable_ne_zero c.isPrintable) _ _
      · have hplain := c.isPlain.resolve_left hesc
        have hne : c.ch ≠ chQuote ∧ c.ch ≠ chBackslash := by simpa [isPlainA] using hplain
        rw [if_neg hesc]
        exact scanQuoted_plain hne.1 hne.2 _ _
    rw [List.flatMap_cons, List.append_assoc, hstep, ih, List.map_cons, List.append_assoc,
      List.singleton_append]

/-- Characters in quotes do not stop the scan for good. -/
theorem quotedTextOk_chars (l : List QuotedChar) (rest : List Byte) :
    quotedTextOk (l.flatMap QuotedChar.text ++ chQuote :: rest) = true := by
  induction l with
  | nil => exact quotedTextOk_quote rest
  | cons c l ih =>
    rw [List.flatMap_cons, List.append_assoc, QuotedChar.text]
    by_cases hesc : c.bEscaped = true
    · rw [if_pos hesc]
      have hskip := quotedTextOk_escape c.ch (l.flatMap QuotedChar.text ++ chQuote :: rest)
      rw [ih, Bool.or_true] at hskip
      exact hskip
    · have hplain := c.isPlain.resolve_left hesc
      have hne : c.ch ≠ chQuote ∧ c.ch ≠ chBackslash := by simpa [isPlainA] using hplain
      have hprint := c.isPrintable
      rw [Http.isPrintable, Bool.and_eq_true, decide_eq_true_eq] at hprint
      have htext : isQuotedText c.ch = true := by simp [isQuotedText, hne, hprint.1]
      rw [if_neg hesc, List.singleton_append, quotedTextOk_plain htext, ih]

/-- A value is read up to what follows it. -/
theorem plainValue_text {fuel : Nat} (v : ParamValue) {rest : List Byte}
    (hrest : isTokenChar (charAt rest 0) = false) (hfuel : (v.text ++ rest).length < fuel) :
    plainValue fuel (v.text ++ rest) = some ⟨.sOk, v.value, rest⟩ := by
  cases v with
  | token t hne =>
    have hquote : (charAt (t.text ++ rest) 0 == chQuote) = false := by
      obtain ⟨ch, tail, htext⟩ := List.exists_cons_of_ne_nil hne
      have hch := List.all_eq_true.mp t.isToken ch (htext ▸ List.mem_cons_self)
      rw [htext, List.cons_append, charAt_cons_zero, beq_eq_false_iff_ne]
      rintro rfl
      exact absurd hch (by decide)
    simp only [plainValue, ParamValue.text, ParamValue.value, hquote,
      getToken_append t.isToken rest hrest]
    rfl
  | quoted l =>
    have hscan := scanQuoted_chars l rest []
    have htext : (ParamValue.quoted l).text ++ rest =
        chQuote :: (l.flatMap QuotedChar.text ++ chQuote :: rest) := by
      simp [ParamValue.text]
    rw [htext] at hfuel ⊢
    have hrun := run_quotedTurn fuel [] (Nat.lt_of_succ_lt hfuel) (quotedTextOk_chars l rest)
    simp only [plainValue, charAt_cons_zero, beq_self_eq_true, if_true, getQuotedString]
    rw [hrun, hscan]
    rfl

theorem value_ascii (v : ParamValue) : ∀ ch ∈ v.value, ch.toNat < 0x80 ∧ ch ≠ 0 := by
  intro ch hch
  cases v with
  | token t _ =>
    have htoken := List.all_eq_true.mp t.isToken ch hch
    exact ⟨isTokenChar_lt htoken, isTokenChar_ne_zero htoken⟩
  | quoted l =>
    obtain ⟨c, -, rfl⟩ := List.mem_map.mp hch
    exact ⟨isPrintable_lt c.isPrintable, isPrintable_ne_zero c.isPrintable⟩

theorem text_ne_blank (v : ParamValue) (rest : List Byte) :
    skipSpaces (v.text ++ rest) = v.text ++ rest := by
  cases v with
  | token t hne => exact skipSpaces_token t.isToken hne rest
  | quoted l => exact skipSpaces_cons (by decide) _

/-- The wide text of ASCII has no zeros, if the text has none. -/
theorem szStr_map_toUInt16 {s : List Byte} (h : ∀ ch ∈ s, ch ≠ 0) :
    szStr (s.map UInt8.toUInt16) = s.map UInt8.toUInt16 := by
  refine szStr_of_ne_zero fun u hu => ?_
  obtain ⟨ch, hch, rfl⟩ := List.mem_map.mp hu
  intro hzero
  refine h ch hch (UInt8.toNat_inj.mp ?_)
  rw [← UInt8.toNat_toUInt16, hzero]
  rfl

/-- **A parameter is read up to what follows it.** -/
theorem getParamNameAndValue_plain {fuel : Nat} (name : ParamName) (v : ParamValue)
    (after : Blanks) {rest : List Byte} (hrest : isTokenChar (charAt rest 0) = false)
    (hfuel : (v.text ++ (after.text ++ rest)).length < fuel) :
    getParamNameAndValue fuel true (name.text ++ chEquals :: (v.text ++ (after.text ++ rest))) =
      some ⟨.sOk, name.text, v.value.map UInt8.toUInt16, skipSpaces rest, false⟩ := by
  have hstop := charAt_blanks isTokenChar_of_isBlank after hrest
  have hascii : ∀ ch ∈ v.value, ch.toNat < 0x80 := fun ch hch => (value_ascii v ch hch).1
  rw [getParamNameAndValue_name, text_ne_blank, plainValue_text v hstop hfuel, Option.map_some,
    convertCharset_utf8, utf8Decode_ascii hascii, skipSpaces_blanks]

theorem convertCharset_token (b bExtendedParam : Bool) (name : List Byte) (value : QuotedResult) :
    (convertCharset b bExtendedParam name value).cStrTokenA = name := by
  rw [convertCharset]
  split
  · rfl
  · split
    · split
      · rfl
      · rfl
    · rfl

/-- The name that was read is the one in front of the equals sign. -/
theorem cStrTokenA_of_name {fuel : Nat} {b : Bool} {name : ParamName} {sA : List Byte}
    {p : ParamResult}
    (h : getParamNameAndValue fuel b (name.text ++ chEquals :: sA) = some p) :
    p.cStrTokenA = name.text := by
  rw [getParamNameAndValue_name] at h
  obtain ⟨value, -, rfl⟩ := Option.map_eq_some_iff.mp h
  exact convertCharset_token b false name.text value

/-! ### The word in front -/

/-- The characters of schemes, types and names of extensions. -/
def isWordChar (ch : Byte) : Bool := isTokenChar ch || ch == 0x2F

theorem all_isWordChar {t : List Byte} (h : t.all isTokenChar = true) :
    t.all isWordChar = true := by
  rw [List.all_eq_true] at h ⊢
  intro ch hch
  rw [isWordChar, h ch hch]
  rfl

/-- What a header starts with. -/
structure Word where
  text : List Byte
  notEmpty : text ≠ []
  isWord : text.all isWordChar = true

/-- Where the word ends. -/
def szWordEnds : List Byte := ascii ";, \t"

theorem isWordChar_facts {ch : Byte} (h : isWordChar ch = true) :
    ch ≠ 0 ∧ ch ≠ chQuote ∧ isBlank ch = false ∧ isPrintable ch = true ∧
      szWordEnds.contains ch = false := by
  revert h
  refine forall_byte (P := fun ch => isWordChar ch = true → ch ≠ 0 ∧ ch ≠ chQuote ∧
    isBlank ch = false ∧ isPrintable ch = true ∧ szWordEnds.contains ch = false) ?_ ch
  decide

theorem Word.facts (w : Word) : ∀ ch ∈ w.text, ch ≠ 0 ∧ ch ≠ chQuote ∧ isBlank ch = false ∧
    isPrintable ch = true ∧ szWordEnds.contains ch = false :=
  fun ch hch => isWordChar_facts (List.all_eq_true.mp w.isWord ch hch)

theorem skipSpaces_word (w : Word) (rest : List Byte) :
    skipSpaces (w.text ++ rest) = w.text ++ rest := by
  obtain ⟨ch, tail, htext⟩ := List.exists_cons_of_ne_nil w.notEmpty
  have hch := (w.facts ch (htext ▸ List.mem_cons_self)).2.2.1
  rw [htext, List.cons_append, skipSpaces_cons hch]

/-- **The word is read up to where it ends.** -/
theorem skipUntil_word (w : Word) {rest : List Byte}
    (hrest : rest = [] ∨ szWordEnds.contains (charAt rest 0) = true) :
    skipUntil szWordEnds (w.text ++ rest) = rest ∧
      (w.text ++ rest).take ((w.text ++ rest).length - rest.length) = w.text := by
  have hgo : ∀ ch ∈ w.text, (!szWordEnds.contains ch) = true := by
    intro ch hch
    rw [(w.facts ch hch).2.2.2.2]
    rfl
  refine ⟨?_, by rw [List.length_append, Nat.add_sub_cancel, List.take_left]⟩
  rw [skipUntil, List.dropWhile_append_of_pos hgo]
  cases rest with
  | nil => rfl
  | cons ch rest =>
    have hstop := hrest.resolve_left (List.cons_ne_nil _ _)
    rw [charAt_cons_zero] at hstop
    rw [List.dropWhile_cons, if_neg (by rw [hstop]; decide)]

/-! ### The loop -/

section Loop

variable (isSeparator : Byte → Bool)

/-- A turn with a parameter and something behind it. -/
theorem paramListTurn_text {fuel : Nat} (aParamsList : ParamsList) (p : ParamText)
    (rest : List Byte) (hrest : isTokenChar (charAt rest 0) = false)
    (hfuel : (p.text rest).length < fuel) :
    paramListTurn isSeparator fuel ⟨aParamsList, p.text rest⟩ =
      paramSeparator isSeparator (aParamsList ++ [p.entry]) (skipSpaces rest) := by
  have hstart : skipSpaces (p.text rest) =
      p.name.text ++ chEquals :: (p.value.text ++ (p.after.text ++ rest)) := by
    rw [ParamText.text, skipSpaces_blanks, skipSpaces_token p.name.isToken p.name.notEmpty]
  have hlen : (p.value.text ++ (p.after.text ++ rest)).length < fuel := by
    simp only [ParamText.text, List.length_append, List.length_cons] at hfuel ⊢
    omega
  have hvalue : szStr (p.value.value.map UInt8.toUInt16) = p.value.value.map UInt8.toUInt16 :=
    szStr_map_toUInt16 fun ch hch => (value_ascii p.value ch hch).2
  simp only [paramListTurn, hstart, getParamNameAndValue_plain p.name p.value p.after hrest hlen]
  rw [if_neg (by simp), if_neg (by decide), addParam_token aParamsList p.name.notEmpty, hvalue]
  rfl

theorem paramText_ne_nil (p : ParamText) (rest : List Byte) : p.text rest ≠ [] := by
  intro hnil
  have hlen := congrArg List.length hnil
  simp [ParamText.text] at hlen

theorem paramsText_ne_nil {chSeparator : Byte} {p : ParamText} {l : List ParamText} :
    paramsText chSeparator (p :: l) ≠ [] :=
  paramText_ne_nil p _

theorem length_lt_paramText (p : ParamText) (rest : List Byte) :
    rest.length < (p.text rest).length := by
  simp only [ParamText.text, List.length_append, List.length_cons]
  omega

theorem length_le_moreParams (chSeparator : Byte) (tail : List Byte) (l : List ParamText) :
    l.length ≤ (moreParams chSeparator tail l).length := by
  induction l with
  | nil => exact Nat.zero_le _
  | cons p l ih =>
    have hlt := length_lt_paramText p (moreParams chSeparator tail l)
    rw [moreParams, List.length_cons, List.length_cons]
    omega

theorem length_le_paramsText (chSeparator : Byte) (l : List ParamText) :
    l.length ≤ (paramsText chSeparator l).length := by
  cases l with
  | nil => exact Nat.le_refl _
  | cons p l =>
    have hle := length_le_moreParams chSeparator [] l
    have hlt := length_lt_paramText p (moreParams chSeparator [] l)
    rw [paramsText, List.length_cons]
    omega

/-- **The loop reads a whole list.** -/
theorem run_paramList (chSeparator : Byte) (hsep : isSeparator chSeparator = true)
    (htoken : isTokenChar chSeparator = false) (hblank : isBlank chSeparator = false) {fuel : Nat}
    (l : List ParamText) : ∀ (n : Nat) (aParamsList : ParamsList), l.length < n →
      (paramsText chSeparator l).length < fuel →
      Loop.run (paramListTurn isSeparator fuel) n ⟨aParamsList, paramsText chSeparator l⟩ =
        some (some ⟨.sOk, aParamsList ++ l.map ParamText.entry, []⟩) := by
  induction l with
  | nil =>
    intro n aParamsList hn _
    obtain ⟨n, rfl⟩ := Nat.exists_eq_succ_of_ne_zero (Nat.ne_of_gt (Nat.zero_lt_of_lt hn))
    rw [List.map_nil, List.append_nil]
    exact Loop.run_succ_inr rfl n
  | cons p l ih =>
    intro n aParamsList hn hfuel
    obtain ⟨n, rfl⟩ := Nat.exists_eq_succ_of_ne_zero (Nat.ne_of_gt (Nat.zero_lt_of_lt hn))
    rw [List.length_cons] at hn
    cases l with
    | nil =>
      have hturn := paramListTurn_text isSeparator aParamsList p [] rfl hfuel
      exact Loop.run_succ_inr hturn n
    | cons q l =>
      have hstart : skipSpaces (chSeparator :: paramsText chSeparator (q :: l)) =
          chSeparator :: paramsText chSeparator (q :: l) := skipSpaces_cons hblank _
      have hturn := paramListTurn_text isSeparator aParamsList p
        (chSeparator :: paramsText chSeparator (q :: l)) htoken hfuel
      simp only [hstart, paramSeparator, hsep, Bool.not_true, Bool.false_eq_true, if_false,
        if_neg paramsText_ne_nil] at hturn
      have hlen : (paramsText chSeparator (q :: l)).length < fuel := by
        have hlonger : (p.text (chSeparator :: paramsText chSeparator (q :: l))).length < fuel :=
          hfuel
        simp only [ParamText.text, List.length_append, List.length_cons] at hlonger
        omega
      have hrun := Loop.run_succ_inl hturn n
      refine hrun.trans ((ih n _ (by omega) hlen).trans ?_)
      rw [List.append_assoc]
      rfl

/-- A parameter that was read and taken: what is left in the list and at the cursor. -/
def TakesParam (fuel : Nat) (s : ParamListScan) (aParamsList : ParamsList) (sA : List Byte) :
    Prop :=
  ∃ p, getParamNameAndValue fuel true (skipSpaces s.sA) = some p ∧ p.hRes.failed = false ∧
    aParamsList = s.aParamsList ++ [(szStr p.cStrTokenA, szStr p.cStrValueW)] ∧ p.sA = sA

theorem addParam_ok {aParamsList aParamsList' : ParamsList} {szNameA : List Byte}
    {szValueW : List WChar} (h : addParam aParamsList szNameA szValueW = .ok aParamsList') :
    aParamsList' = aParamsList ++ [(szStr szNameA, szStr szValueW)] := by
  simp only [addParam] at h
  split at h
  · cases h
  · cases h
    rfl

theorem failed_addParam {aParamsList : ParamsList} {szNameA : List Byte} {szValueW : List WChar}
    {hRes : HResult} (h : addParam aParamsList szNameA szValueW = .error hRes) :
    hRes.failed = true := by
  simp only [addParam] at h
  split at h
  · cases h
    rfl
  · cases h

/-- A turn ends at the end of the text or at a fault, or there is a parameter. -/
theorem paramListTurn_cases (fuel : Nat) (s : ParamListScan) :
    (skipSpaces s.sA = [] ∧
        paramListTurn isSeparator fuel s = .inr (some ⟨.sOk, s.aParamsList, []⟩)) ∨
      paramListTurn isSeparator fuel s = .inr none ∨
      (∃ r, r.hRes.failed = true ∧ paramListTurn isSeparator fuel s = .inr (some r)) ∨
      ∃ aParamsList sA, TakesParam fuel s aParamsList sA ∧
        paramListTurn isSeparator fuel s = paramSeparator isSeparator aParamsList sA := by
  by_cases hend : skipSpaces s.sA = []
  · exact Or.inl ⟨hend, by simp only [paramListTurn, if_pos hend]⟩
  refine Or.inr ?_
  cases hget : getParamNameAndValue fuel true (skipSpaces s.sA) with
  | none => exact Or.inl (by simp only [paramListTurn, if_neg hend, hget])
  | some p =>
    refine Or.inr ?_
    by_cases hfailed : p.hRes.failed = true
    · refine Or.inl ⟨⟨if p.hRes = .mxNoData then .mxInvalidData else p.hRes, s.aParamsList, p.sA⟩,
        ?_, by simp only [paramListTurn, if_neg hend, hget, if_pos hfailed]⟩
      by_cases hnoData : p.hRes = .mxNoData
      · simp only [if_pos hnoData]
        rfl
      · simp only [if_neg hnoData, hfailed]
    · cases hadd : addParam s.aParamsList p.cStrTokenA p.cStrValueW with
      | error hRes =>
        exact Or.inl ⟨⟨hRes, s.aParamsList, p.sA⟩, failed_addParam hadd,
          by simp only [paramListTurn, if_neg hend, hget, if_neg hfailed, hadd]⟩
      | ok aParamsList =>
        exact Or.inr ⟨aParamsList, p.sA,
          ⟨p, hget, by simpa using hfailed, addParam_ok hadd, rfl⟩,
          by simp only [paramListTurn, if_neg hend, hget, if_neg hfailed, hadd]⟩

/-- **A run of the loop that ends well**: there was nothing to read, or it took a
parameter with a separator or nothing behind it, and then it was at the end or went on. -/
theorem run_paramList_ok {fuel n : Nat} {s : ParamListScan} {r : ParamListResult}
    (h : Loop.run (paramListTurn isSeparator fuel) n s = some (some r))
    (hok : r.hRes.failed = false) :
    (skipSpaces s.sA = [] ∧ r.aParamsList = s.aParamsList) ∨
      ∃ aParamsList sA, TakesParam fuel s aParamsList sA ∧
        (∀ ch rest, sA = ch :: rest → isSeparator ch = true) ∧
        ((sA.tail = [] ∧ r.aParamsList = aParamsList) ∨
          ∃ m, n = m + 1 ∧
            Loop.run (paramListTurn isSeparator fuel) m ⟨aParamsList, sA.tail⟩ = some (some r)) := by
  obtain _ | n := n
  · cases h
  rcases paramListTurn_cases isSeparator fuel s with
    ⟨hend, hturn⟩ | hturn | ⟨q, hfailed, hturn⟩ | ⟨aParamsList, sA, htakes, hturn⟩
  · rw [Loop.run_succ_inr hturn] at h
    cases h
    exact Or.inl ⟨hend, rfl⟩
  · rw [Loop.run_succ_inr hturn] at h
    cases h
  · rw [Loop.run_succ_inr hturn] at h
    cases h
    rw [hok] at hfailed
    cases hfailed
  · refine Or.inr ⟨aParamsList, sA, htakes, ?_⟩
    cases sA with
    | nil =>
      rw [Loop.run_succ_inr hturn] at h
      cases h
      exact ⟨fun _ _ hcons => (by cases hcons), Or.inl ⟨rfl, rfl⟩⟩
    | cons ch rest =>
      by_cases hsep : isSeparator ch = true
      · refine ⟨fun _ _ hcons => (List.cons.inj hcons).1 ▸ hsep, ?_⟩
        simp only [paramSeparator, hsep, Bool.not_true, Bool.false_eq_true, if_false] at hturn
        by_cases hrest : rest = []
        · rw [if_pos hrest] at hturn
          rw [Loop.run_succ_inr hturn] at h
          cases h
          exact Or.inl ⟨hrest, rfl⟩
        · rw [if_neg hrest] at hturn
          rw [Loop.run_succ_inl hturn] at h
          exact Or.inr ⟨n, rfl, h⟩
      · simp only [paramSeparator, Bool.not_eq_true _ ▸ hsep, Bool.not_false, if_true] at hturn
        rw [Loop.run_succ_inr hturn] at h
        cases h
        cases hok

/-- The parameters there are stay in front. -/
theorem run_paramList_isPrefix {fuel : Nat} (n : Nat) : ∀ {s : ParamListScan}
    {r : ParamListResult}, Loop.run (paramListTurn isSeparator fuel) n s = some (some r) →
      r.hRes.failed = false → s.aParamsList <+: r.aParamsList := by
  induction n with
  | zero => intro s r h _; cases h
  | succ n ih =>
    intro s r h hok
    rcases run_paramList_ok isSeparator h hok with
      ⟨-, hlist⟩ | ⟨aParamsList, sA, ⟨p, -, -, hlist, -⟩, -, ⟨-, hend⟩ | ⟨m, hm, hrun⟩⟩
    · exact ⟨[], by rw [List.append_nil, hlist]⟩
    · rw [hend, hlist]
      exact List.prefix_append _ _
    · obtain rfl : n = m := by omega
      have hnext := ih hrun hok
      exact (hlist ▸ List.prefix_append _ _).trans hnext

end Loop

end MxLib.Http
