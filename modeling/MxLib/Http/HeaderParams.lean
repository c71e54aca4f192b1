import MxLib.Http.HeaderBase
import MxLib.Strings.Utf8RoundTrip
import Mathlib.Data.List.TakeWhile

/-!
# Parameters of a header

`getParamNameAndValue` is `GetParamNameAndValue`: a name, an equals sign and a value,
which is a token, a text in quotes, or the extended form with a character set and
percent escapes.  `BuildExtendedValueString` writes the extended form.

The loop over an extended value leaves as soon as it has copied a run of plain
characters: the test behind the run was to leave when there is no escape, and leaves
when there is one.  So an extended value is read only if nothing in it is escaped
(`extendedRoundTrip_iff`).
-/

namespace MxLib.Http

open MxLib.Library

/-! ### The parameter -/

/-- What `GetParamNameAndValue` leaves in its arguments. -/
structure ParamResult where
  hRes : HResult
  cStrTokenA : List Byte
  cStrValueW : List WChar
  sA : List Byte
  bExtendedParam : Bool
deriving DecidableEq

/-- The characters of a run in an extended value; a `CHAR` is signed. -/
def isExtendedText (chA : Byte) : Bool :=
  signedChar chA ≥ 32 && signedChar chA ≤ 126 && chA != chPercent

/-- A digit of an escape, as the loop reads it. -/
def pctDigit (chA : Byte) : Option Byte :=
  if 0x30 ≤ chA && chA ≤ 0x39 then some (chA - 0x30)
  else if 0x41 ≤ chA && chA ≤ 0x41 then some (chA - 0x41 + 10)
  else if 0x61 ≤ chA && chA ≤ 0x66 then some (chA - 0x61 + 10)
  else none

/-- The two digits behind a percent sign: the character, unless one of them is none,
and the cursor. -/
def pctDecode : List Byte → Option Byte × List Byte
  | d :: d' :: sA =>
    match pctDigit d, pctDigit d' with
    | none, _ => (none, d :: d' :: sA)
    | some _, none => (none, d' :: sA)
    | some n, some n' => (some ((n <<< 4) + n'), sA)
  | sA => (none, sA)

/-- A turn of the loop over an extended value, and its exit.  The text ends its
string, so the character at `szEndA` is a zero. -/
def extendedValueTurn (s : QuotedScan) : QuotedScan ⊕ QuotedResult :=
  if s.sA = [] then .inr ⟨.sOk, s.cStrA, s.sA⟩
  else
    let run := s.sA.takeWhile isExtendedText
    let sA := s.sA.dropWhile isExtendedText
    let cStrValueA := if run ≠ [] then run else s.cStrA
    if sA ≠ [] || charAt sA 0 != chPercent then .inr ⟨.sOk, cStrValueA, sA⟩
    else
      match pctDecode (sA.drop 1) with
      | (none, sA) => .inr ⟨.mxInvalidData, cStrValueA, sA⟩
      | (some chA, sA) => .inl ⟨sA, [chA]⟩

/-- The character set of an extended value, and the cursor behind it. -/
def extendedCharset (bUsingUTF8 : Bool) (sA : List Byte) : Bool × List Byte :=
  if sA.length ≥ 6 && strNCompareA sA (ascii "UTF-8'") 6 true then (true, sA.drop 6)
  else if sA.length ≥ 11 && strNCompareA sA (ascii "ISO-8859-1'") 11 true then
    (false, sA.drop 11)
  else (bUsingUTF8, sA)

/-- The language and the value behind the character set.  The language is skipped up to
the apostrophe the cursor is at. -/
def extendedValue (sA : List Byte) : QuotedResult :=
  match sA.dropWhile (· != chApostrophe) with
  | [] => ⟨.mxInvalidData, [], []⟩
  | _ :: sA =>
    Loop.exec extendedValueTurn (fun s => s.sA.length) ⟨.mxInvalidData, [], []⟩ ⟨sA, []⟩

/-- A value that is a token or a text in quotes. -/
def plainValue (fuel : Nat) (sA : List Byte) : Option QuotedResult :=
  if charAt sA 0 == chQuote then
    (getQuotedString fuel sA).map fun r =>
      if r.hRes.failed && r.hRes != .eOutOfMemory then { r with hRes := .mxInvalidData } else r
  else
    let (token, sA) := getToken sA
    some ⟨.sOk, token, sA⟩

/-- The end of `GetParamNameAndValue`: the value as wide text, and what follows it. -/
def convertCharset (bUsingUTF8 bExtendedParam : Bool) (cStrTokenA : List Byte)
    (value : QuotedResult) : ParamResult :=
  if value.hRes.failed then ⟨value.hRes, cStrTokenA, [], value.sA, false⟩
  else if bUsingUTF8 then
    match utf8Decode value.cStrA with
    | .error hRes =>
      ⟨if hRes = .eOutOfMemory then hRes else .mxInvalidData, cStrTokenA, [], value.sA, false⟩
    | .ok cStrValueW => ⟨.sOk, cStrTokenA, cStrValueW, skipSpaces value.sA, bExtendedParam⟩
  else
    ⟨.sOk, cStrTokenA, fromIso88591 value.cStrA, skipSpaces value.sA, bExtendedParam⟩

/-- The value of a parameter, from the equals sign on. -/
def getParamValue (fuel : Nat) (bUsingUTF8 bExtendedParam : Bool) (cStrTokenA sA : List Byte) :
    Option ParamResult :=
  let (bUsingUTF8, sA) :=
    if bExtendedParam then extendedCharset bUsingUTF8 sA else (bUsingUTF8, sA)
  if bExtendedParam && charAt sA 0 == chApostrophe then
    some (convertCharset bUsingUTF8 bExtendedParam cStrTokenA (extendedValue sA))
  else (plainValue fuel sA).map (convertCharset bUsingUTF8 bExtendedParam cStrTokenA)

def chAsterisk : Byte := 0x2A
def chEquals : Byte := 0x3D
def chComma : Byte := 0x2C
def chSemicolon : Byte := 0x3B

/-- `GetParamNameAndValue(bUseUtf8AsDefaultCharset, cStrTokenA, cStrValueW, sA, szEndA,
lpbExtendedParam)`; `none` stands for a text in quotes that is never left. -/
def getParamNameAndValue (fuel : Nat) (bUseUtf8AsDefaultCharset : Bool) (sA : List Byte) :
    Option ParamResult :=
  let (token, rest) := getToken sA
  if token = [] then some ⟨.mxInvalidData, [], [], rest, false⟩
  else
    let bExtendedParam := token.getLast? == some chAsterisk
    let cStrTokenA := if bExtendedParam then token.dropLast else token
    let rest := skipSpaces rest
    match rest with
    | [] => some ⟨.mxNoData, cStrTokenA, [], [], false⟩
    | ch :: rest' =>
      if ch != chEquals then
        some ⟨if ch == chComma || ch == chSemicolon then .mxNoData else .mxInvalidData,
          cStrTokenA, [], rest, false⟩
      else getParamValue fuel bUseUtf8AsDefaultCharset bExtendedParam cStrTokenA (skipSpaces rest')

/-! ### What is written -/

/-- A character in an extended value. -/
def escapeExtended (chA : Byte) : List Byte := if isEscaped chA then pctEncode chA else [chA]

theorem extendedTurn_measure (c c' : List Byte × Nat) (h : extendedTurn c = .inl c') :
    c'.1.length - c'.2 < c.1.length - c.2 := by
  obtain ⟨cStrA, nOffset⟩ := c
  simp only [extendedTurn] at h
  split at h
  · cases h
  next hzero =>
    have hlt : nOffset < cStrA.length := by
      by_contra hle
      exact hzero (by rw [charAt_of_length_le (by omega)]; rfl)
    split at h
    · cases h
      simp only [insertStr, deleteStr, pctEncode, List.length_append, List.length_take,
        List.length_drop, List.length_cons, List.length_nil]
      omega
    · cases h
      simp only
      omega

/-- **The loop writes character by character**, up to the first zero. -/
theorem exec_extendedTurn (p : List Byte) : ∀ (pre t dflt : List Byte), (0 : Byte) ∉ p →
    charAt t 0 = 0 →
    Loop.exec extendedTurn (fun c => c.1.length - c.2) dflt (pre ++ (p ++ t), pre.length) =
      pre ++ (p.flatMap escapeExtended ++ t) := by
  induction p with
  | nil =>
    intro pre t dflt _ ht
    refine Loop.exec_inr dflt ?_
    rw [List.nil_append, extendedTurn]
    simp only [charAt_append_length, ht]
    rfl
  | cons ch p ih =>
    intro pre t dflt hp ht
    have hch : ch ≠ 0 := fun h => hp (h ▸ List.mem_cons_self)
    have hp : (0 : Byte) ∉ p := fun h => hp (List.mem_cons_of_mem _ h)
    have hne : (ch == 0) = false := beq_eq_false_iff_ne.mpr hch
    have hat : charAt (pre ++ (ch :: p ++ t)) pre.length = ch := charAt_append_length pre _
    have hturn : extendedTurn (pre ++ (ch :: p ++ t), pre.length) =
        .inl (pre ++ escapeExtended ch ++ (p ++ t), (pre ++ escapeExtended ch).length) := by
      simp only [extendedTurn, hat, hne, escapeExtended]
      by_cases hesc : isEscaped ch = true
      · rw [List.cons_append]
        simp only [if_pos hesc, deleteStr_append, insertStr_append, List.length_append]
        simp [pctEncode]
      · simp [if_neg hesc]
    rw [Loop.exec_inl extendedTurn_measure dflt hturn, ih _ t dflt hp ht, List.flatMap_cons]
    simp only [List.append_assoc]

theorem buildExtendedValueString_eq {szStrW : List WChar} {u : List Byte}
    (h : utf8Encode szStrW = .ok u) : ∃ t, u = szStr u ++ t ∧ charAt t 0 = 0 ∧
      buildExtendedValueString szStrW =
        some (ascii "UTF-8''" ++ ((szStr u).flatMap escapeExtended ++ t)) := by
  obtain ⟨t, hu, hnz, ht⟩ := exists_szStr_append u
  refine ⟨t, hu, ht, ?_⟩
  have hexec := exec_extendedTurn (szStr u) [] t [] hnz ht
  rw [List.nil_append, List.nil_append, ← hu, List.length_nil] at hexec
  rw [buildExtendedValueString, h]
  simp only [hexec]
  rfl

/-! ### What is read -/

/-- A name for a parameter. -/
structure Token where
  text : List Byte
  isToken : text.all isTokenChar = true

theorem exec_extendedValueTurn (sA : List Byte) (dflt : QuotedResult) :
    Loop.exec extendedValueTurn (fun s => s.sA.length) dflt ⟨sA, []⟩ =
      ⟨.sOk, sA.takeWhile isExtendedText, sA.dropWhile isExtendedText⟩ := by
  refine Loop.exec_inr dflt ?_
  rw [extendedValueTurn]
  by_cases hnil : sA = []
  · subst hnil
    rfl
  · have hrun : (if sA.takeWhile isExtendedText ≠ [] then sA.takeWhile isExtendedText else []) =
        sA.takeWhile isExtendedText := by
      split
      · rfl
      · next h => exact (not_not.mp h).symm
    have hleave : ((sA.dropWhile isExtendedText ≠ [] : Bool) ||
        charAt (sA.dropWhile isExtendedText) 0 != chPercent) = true := by
      cases sA.dropWhile isExtendedText with
      | nil => decide
      | cons ch rest => simp
    simp only [if_neg hnil, hrun]
    rw [if_pos hleave]

theorem extendedValue_apostrophe (body : List Byte) :
    extendedValue (chApostrophe :: body) =
      ⟨.sOk, body.takeWhile isExtendedText, body.dropWhile isExtendedText⟩ := by
  rw [extendedValue, List.dropWhile_cons, if_neg (by decide)]
  exact exec_extendedValueTurn body _

theorem strNCompareA_utf8 (sA : List Byte) :
    strNCompareA (ascii "UTF-8'" ++ sA) (ascii "UTF-8'") 6 true = true := by
  have htext : szStr (ascii "UTF-8'" ++ sA) = ascii "UTF-8'" ++ szStr sA := by
    have hall : (ascii "UTF-8'").all (· != 0) = true := by decide
    rw [szStr, List.takeWhile_append_of_pos (List.all_eq_true.mp hall)]
    rfl
  have htake : (ascii "UTF-8'" ++ szStr sA).take 6 = ascii "UTF-8'" := rfl
  rw [strNCompareA, htext, htake]
  decide

/-- An extended value is read up to the first character that is no plain text. -/
theorem getParamValue_extended (fuel : Nat) (bUsingUTF8 : Bool) (name body : List Byte) :
    getParamValue fuel bUsingUTF8 true name (ascii "UTF-8''" ++ body) =
      some (convertCharset true true name
        ⟨.sOk, body.takeWhile isExtendedText, body.dropWhile isExtendedText⟩) := by
  have hsplit : ascii "UTF-8''" ++ body = ascii "UTF-8'" ++ chApostrophe :: body := rfl
  have hcharset : extendedCharset bUsingUTF8 (ascii "UTF-8''" ++ body) =
      (true, chApostrophe :: body) := by
    rw [extendedCharset, if_pos]
    · rfl
    · rw [hsplit, strNCompareA_utf8, Bool.and_true, List.length_append]
      simp [ascii]
  simp only [getParamValue, if_true, hcharset, extendedValue_apostrophe, charAt_cons_zero, beq_self_eq_true,
    Bool.and_self]

theorem getToken_append {name : List Byte} (hname : name.all isTokenChar = true)
    (rest : List Byte) (hrest : isTokenChar (charAt rest 0) = false) : getToken (name ++ rest) = (name, rest) := by
  have hall : ∀ c ∈ name, isTokenChar c = true := List.all_eq_true.mp hname
  rw [getToken, List.takeWhile_append_of_pos hall, List.dropWhile_append_of_pos hall]
  cases rest with
  | nil => simp
  | cons ch rest =>
    rw [charAt_cons_zero] at hrest
    rw [List.takeWhile_cons, List.dropWhile_cons, hrest]
    simp

theorem getParamNameAndValue_extended (fuel : Nat) (b : Bool) (name : Token) (body : List Byte) :
    getParamNameAndValue fuel b (name.text ++ ascii "*=" ++ (ascii "UTF-8''" ++ body)) =
      some (convertCharset true true name.text
        ⟨.sOk, body.takeWhile isExtendedText, body.dropWhile isExtendedText⟩) := by
  have htoken : getToken (name.text ++ ascii "*=" ++ (ascii "UTF-8''" ++ body)) =
      (name.text ++ [chAsterisk], chEquals :: (ascii "UTF-8''" ++ body)) := by
    have hall : (name.text ++ [chAsterisk]).all isTokenChar = true := by
      rw [List.all_append, name.isToken]
      decide
    have h := getToken_append hall (chEquals :: (ascii "UTF-8''" ++ body)) rfl
    rw [← h]
    congr 1
    rw [List.append_assoc, List.append_assoc]
    rfl
  have hskip : skipSpaces (ascii "UTF-8''" ++ body) = ascii "UTF-8''" ++ body := rfl
  have hspaces : skipSpaces (chEquals :: (ascii "UTF-8''" ++ body)) =
      chEquals :: (ascii "UTF-8''" ++ body) := rfl
  simp only [getParamNameAndValue, htoken, hspaces, hskip]
  rw [if_neg (by simp), if_neg (by decide)]
  have hlast : ((name.text ++ [chAsterisk]).getLast? == some chAsterisk) = true := by simp
  rw [hlast, List.dropLast_concat, if_pos rfl]
  exact getParamValue_extended fuel b name.text body

/-! ### The round trip -/

/-- The units that `BuildExtendedValueString` leaves as they are. -/
def isExtendedPlain (chW : WChar) : Bool :=
  chW > 0x21 && chW ≤ 0x7E && chW != 0x25 && chW != 0x22 && chW != 0x27

/-- The parameter `name*=V` is read back, where `V` is what `BuildExtendedValueString`
makes of the text. -/
def ExtendedRoundTrip (bUseUtf8AsDefaultCharset : Bool) (name : Token) (szStrW : List WChar) :
    Prop :=
  ∃ V fuel, buildExtendedValueString szStrW = some V ∧
    getParamNameAndValue fuel bUseUtf8AsDefaultCharset (name.text ++ ascii "*=" ++ V) =
      some ⟨.sOk, name.text, szStrW, [], true⟩

theorem isEscaped_eq_false_iff (chA : Byte) :
    isEscaped chA = false ↔ isExtendedPlain chA.toUInt16 = true := by
  have hall : (List.range 256).all (fun n =>
      isEscaped (.ofNat n) == !isExtendedPlain (UInt8.ofNat n).toUInt16) = true := by
    decide +kernel
  have h := List.all_eq_true.mp hall chA.toNat (List.mem_range.mpr chA.toNat_lt)
  rw [UInt8.ofNat_toNat, beq_iff_eq] at h
  rw [h, Bool.not_eq_false']

theorem isExtendedText_of_plain {chA : Byte} (h : isEscaped chA = false) :
    isExtendedText chA = true := by
  simp only [isEscaped, Bool.or_eq_false_iff, decide_eq_false_iff_not, beq_eq_false_iff_ne] at h
  simp only [isExtendedText, Bool.and_eq_true, decide_eq_true_eq, bne_iff_ne]
  exact ⟨⟨by omega, by omega⟩, h.1.1.2⟩

theorem toNat_lt_of_isExtendedPlain {chW : WChar} (h : isExtendedPlain chW = true) :
    chW.toNat < 0x80 := by
  simp only [isExtendedPlain, Bool.and_eq_true, decide_eq_true_eq] at h
  have hle := UInt16.le_iff_toNat_le.mp h.1.1.1.2
  exact Nat.lt_of_le_of_lt hle (by decide)

theorem dropWhile_extended_cons {ch : Byte} (h : isEscaped ch = false) (p t : List Byte) :
    ((ch :: p).flatMap escapeExtended ++ t).dropWhile isExtendedText =
      (p.flatMap escapeExtended ++ t).dropWhile isExtendedText := by
  rw [List.flatMap_cons, escapeExtended, if_neg (by rw [h]; decide), List.append_assoc,
    List.singleton_append, List.dropWhile_cons, if_pos (isExtendedText_of_plain h)]

/-- **What is left unread**: nothing, if there was nothing to escape; else it starts at
a percent sign or at a zero, which are no blanks. -/
theorem dropWhile_extended (p t : List Byte) (ht : charAt t 0 = 0) :
    (∃ ch rest, (p.flatMap escapeExtended ++ t).dropWhile isExtendedText = ch :: rest ∧
        isBlank ch = false) ∨
      ((p.flatMap escapeExtended ++ t).dropWhile isExtendedText = [] ∧ t = [] ∧
        ∀ ch ∈ p, isEscaped ch = false) := by
  induction p with
  | nil =>
    cases t with
    | nil => exact Or.inr ⟨rfl, rfl, fun _ h => absurd h List.not_mem_nil⟩
    | cons ch t =>
      have hch : ch = 0 := ht
      subst hch
      exact Or.inl ⟨0, t, by rw [List.flatMap_nil, List.nil_append, List.dropWhile_cons,
        if_neg (by decide)], by decide⟩
  | cons ch p ih =>
    by_cases hesc : isEscaped ch = true
    · refine Or.inl ⟨chPercent, (pctEncode ch).tail ++ (p.flatMap escapeExtended ++ t), ?_,
        by decide⟩
      rw [List.flatMap_cons, escapeExtended, if_pos hesc, List.append_assoc]
      rfl
    · have hplain : isEscaped ch = false := by simpa using hesc
      rw [dropWhile_extended_cons hplain]
      rcases ih with hrest | ⟨hnil, htnil, hall⟩
      · exact Or.inl hrest
      · refine Or.inr ⟨hnil, htnil, fun c hc => ?_⟩
        rcases List.mem_cons.mp hc with rfl | hc
        · exact hplain
        · exact hall c hc

theorem flatMap_escapeExtended {p : List Byte} (h : ∀ ch ∈ p, isEscaped ch = false) :
    p.flatMap escapeExtended = p := by
  induction p with
  | nil => rfl
  | cons ch p ih =>
    obtain ⟨hch, hp⟩ := List.forall_mem_cons.mp h
    rw [List.flatMap_cons, ih hp, escapeExtended, if_neg (by rw [hch]; decide)]
    rfl

theorem takeWhile_isExtendedText {p : List Byte} (h : ∀ ch ∈ p, isEscaped ch = false) :
    p.takeWhile isExtendedText = p := by
  exact List.takeWhile_eq_self_iff.mpr fun ch hch => isExtendedText_of_plain (h ch hch)

theorem convertCharset_utf8 (bExtendedParam : Bool) (name cStrA sA : List Byte) :
    convertCharset true bExtendedParam name ⟨.sOk, cStrA, sA⟩ =
      match utf8Decode cStrA with
      | .error hRes => ⟨if hRes = .eOutOfMemory then hRes else .mxInvalidData, name, [], sA, false⟩
      | .ok cStrValueW => ⟨.sOk, name, cStrValueW, skipSpaces sA, bExtendedParam⟩ := rfl

/-- Plain text is read back as its own characters. -/
theorem convertCharset_plain (name : Token) {p : List Byte}
    (h : ∀ ch ∈ p, isEscaped ch = false) :
    convertCharset true true name.text ⟨.sOk, p, []⟩ =
      ⟨.sOk, name.text, p.map UInt8.toUInt16, [], true⟩ := by
  have hascii : ∀ ch ∈ p, ch.toNat < 0x80 := by
    intro ch hch
    have hlt := toNat_lt_of_isExtendedPlain ((isEscaped_eq_false_iff ch).mp (h ch hch))
    rwa [UInt8.toNat_toUInt16] at hlt
  rw [convertCharset_utf8, utf8Decode_ascii hascii]
  rfl

/-- **An extended parameter is read back exactly when nothing in it is escaped.** -/
theorem extendedRoundTrip_iff (bUseUtf8AsDefaultCharset : Bool) (name : Token)
    (szStrW : List WChar) :
    ExtendedRoundTrip bUseUtf8AsDefaultCharset name szStrW ↔
      szStrW.all isExtendedPlain = true := by
  rw [List.all_eq_true]
  constructor
  · rintro ⟨V, fuel, hV, hread⟩
    cases henc : utf8Encode szStrW with
    | error e => rw [buildExtendedValueString, henc] at hV; cases hV
    | ok u =>
      obtain ⟨t, hu, ht, hbuild⟩ := buildExtendedValueString_eq henc
      obtain rfl := Option.some.inj (hV.symm.trans hbuild)
      rw [getParamNameAndValue_extended, Option.some.injEq] at hread
      rcases dropWhile_extended (szStr u) t ht with ⟨ch, rest, hrest, hblank⟩ | ⟨hnil, rfl, hall⟩
      · -- the cursor is left in front of the first escape
        have hstop : skipSpaces (ch :: rest) = ch :: rest := skipSpaces_cons hblank rest
        rw [hrest, convertCharset_utf8] at hread
        split at hread
        · cases congrArg ParamResult.bExtendedParam hread
        · rw [hstop] at hread
          cases congrArg ParamResult.sA hread
      · rw [hnil, List.append_nil, flatMap_escapeExtended hall, takeWhile_isExtendedText hall,
          convertCharset_plain name hall] at hread
        have hvalue : (szStr u).map UInt8.toUInt16 = szStrW :=
          congrArg ParamResult.cStrValueW hread
        intro chW hchW
        rw [← hvalue] at hchW
        obtain ⟨ch, hch, rfl⟩ := List.mem_map.mp hchW
        exact (isEscaped_eq_false_iff ch).mp (hall ch hch)
  · intro hall
    have hlt : ∀ chW ∈ szStrW, chW.toNat < 0x80 :=
      fun chW hchW => toNat_lt_of_isExtendedPlain (hall chW hchW)
    have hback : ∀ chW ∈ szStrW, chW.toUInt8.toUInt16 = chW := by
      intro chW hchW
      rw [← UInt16.toNat_inj, UInt8.toNat_toUInt16, UInt16.toNat_toUInt8]
      exact Nat.mod_eq_of_lt (by have := hlt chW hchW; omega)
    have hplain : ∀ ch ∈ szStrW.map UInt16.toUInt8, isEscaped ch = false := by
      intro ch hch
      obtain ⟨chW, hchW, rfl⟩ := List.mem_map.mp hch
      rw [isEscaped_eq_false_iff, hback chW hchW]
      exact hall chW hchW
    obtain ⟨t, hu, ht, hbuild⟩ := buildExtendedValueString_eq (utf8Encode_ascii hlt)
    have htnil : t = [] := by
      cases t with
      | nil => rfl
      | cons ch t =>
        have hch : ch = 0 := ht
        have hmem : ch ∈ szStrW.map UInt16.toUInt8 := by rw [hu]; simp
        exact absurd (hplain ch hmem) (by rw [hch]; decide)
    rw [htnil, List.append_nil] at hu hbuild
    rw [← hu, flatMap_escapeExtended hplain] at hbuild
    refine ⟨_, 0, hbuild, ?_⟩
    have hdrop : (szStrW.map UInt16.toUInt8).dropWhile isExtendedText = [] := by
      exact List.dropWhile_eq_nil_iff.mpr fun ch hch => isExtendedText_of_plain (hplain ch hch)
    rw [getParamNameAndValue_extended, takeWhile_isExtendedText hplain, hdrop,
      convertCharset_plain name hplain, List.map_map]
    have hid : szStrW.map (UInt8.toUInt16 ∘ UInt16.toUInt8) = szStrW.map id :=
      List.map_congr_left hback
    rw [hid, List.map_id]

/-- A blank is escaped, and the value ends in front of its escape. -/
theorem extendedRoundTrip_blank : Unicode.isWellFormed [0x61, 0x20, 0x62] = true ∧
    utf8Encode [0x61, 0x20, 0x62] = .ok (ascii "a b") ∧
    utf8Decode (ascii "a b") = .ok [0x61, 0x20, 0x62] ∧
    buildExtendedValueString [0x61, 0x20, 0x62] = some (ascii "UTF-8''a%20b") ∧
    ¬ ExtendedRoundTrip true ⟨ascii "filename", by decide⟩ [0x61, 0x20, 0x62] := by
  have hbuild : buildExtendedValueString [0x61, 0x20, 0x62] = some (ascii "UTF-8''a%20b") := by
    decide
  refine ⟨by decide, by decide, by decide, hbuild, ?_⟩
  rintro ⟨V, fuel, hV, hread⟩
  obtain rfl := Option.some.inj (hV.symm.trans hbuild)
  rw [show ascii "UTF-8''a%20b" = ascii "UTF-8''" ++ ascii "a%20b" by decide,
    getParamNameAndValue_extended] at hread
  exact absurd (congrArg ParamResult.sA (Option.some.inj hread)) (by decide)

end MxLib.Http
