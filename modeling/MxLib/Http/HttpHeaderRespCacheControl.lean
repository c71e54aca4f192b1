import MxLib.Http.HeaderParamList
import MxLib.Http.UrlComponents
import MxLib.Library.Decimal

/-!
# Cache-Control of a response

`CHttpHeaderRespCacheControl`.  What `Build` writes is a list of directives (`Directive`), and
`Parse` takes each of them once, so a header that the setters made is read back
(`respCacheControlRoundTrip`).

An extension is its name and its value here, whatever place they have in memory.
-/

namespace MxLib.Http.RespCacheControl

open MxLib.Library

/-- `CHttpHeaderRespCacheControl` -/
@[ext] structure Header where
  bPublic : Bool
  bPrivate : Bool
  cPrivateFieldsList : List (List Byte)
  bNoCache : Bool
  cNoCacheFieldsList : List (List Byte)
  bNoStore : Bool
  bNoTransform : Bool
  bMustRevalidate : Bool
  bProxyRevalidate : Bool
  nMaxAge : UInt64
  nSMaxAge : UInt64
  aExtensionsList : List (List Byte × List WChar)
deriving DecidableEq

/-- `ULONGLONG_MAX`, where there is no age. -/
def noAge : UInt64 := 0xFFFFFFFFFFFFFFFF

/-- A new header. -/
def Header.create : Header :=
  ⟨false, false, [], false, [], false, false, false, false, noAge, noAge, []⟩

/-! ### The setters -/

/-- `AddPrivateField` and `AddNoCacheField` -/
def addField (cFieldsList : List (List Byte)) (szFieldA : List Byte) :
    Except HResult (List (List Byte)) :=
  if szFieldA = [] || (getToken szFieldA).2 != [] then .error .mxInvalidData
  else .ok (cFieldsList ++ [szFieldA])

/-- `AddExtension` -/
def addExtension (aExtensionsList : List (List Byte × List WChar)) (szNameA : List Byte)
    (szValueW : List WChar) : Except HResult (List (List Byte × List WChar)) :=
  if szNameA = [] || (getToken szNameA).2 != [] then .error .mxInvalidData
  else .ok (aExtensionsList ++ [(szNameA, szValueW)])

/-- A call of a setter. -/
inductive Setter
  | setPublic (bPublic : Bool)
  | setPrivate (bPrivate : Bool)
  | addPrivateField (szFieldA : List Byte)
  | setNoCache (bNoCache : Bool)
  | addNoCacheField (szFieldA : List Byte)
  | setNoStore (bNoStore : Bool)
  | setNoTransform (bNoTransform : Bool)
  | setMustRevalidate (bMustRevalidate : Bool)
  | setProxyRevalidate (bProxyRevalidate : Bool)
  | setMaxAge (nMaxAge : UInt64)
  | setSharedMaxAge (nSharedMaxAge : UInt64)
  | addExtension (szNameA : List Byte) (szValueW : List WChar)

/-- The header after a call, which a call that fails leaves as it was. -/
def Header.set (h : Header) : Setter → Header
  | .setPublic bPublic => { h with bPublic }
  | .setPrivate bPrivate => { h with bPrivate }
  | .addPrivateField szFieldA =>
    match addField h.cPrivateFieldsList (szStr szFieldA) with
    | .error _ => h
    | .ok cPrivateFieldsList => { h with cPrivateFieldsList }
  | .setNoCache bNoCache => { h with bNoCache }
  | .addNoCacheField szFieldA =>
    match addField h.cNoCacheFieldsList (szStr szFieldA) with
    | .error _ => h
    | .ok cNoCacheFieldsList => { h with cNoCacheFieldsList }
  | .setNoStore bNoStore => { h with bNoStore }
  | .setNoTransform bNoTransform => { h with bNoTransform }
  | .setMustRevalidate bMustRevalidate => { h with bMustRevalidate }
  | .setProxyRevalidate bProxyRevalidate => { h with bProxyRevalidate }
  | .setMaxAge nMaxAge => { h with nMaxAge }
  | .setSharedMaxAge nSMaxAge => { h with nSMaxAge }
  | .addExtension szNameA szValueW =>
    match RespCacheControl.addExtension h.aExtensionsList (szStr szNameA) (szStr szValueW) with
    | .error _ => h
    | .ok aExtensionsList => { h with aExtensionsList }

/-- A header that was made by setters. -/
def Header.make (l : List Setter) : Header := l.foldl Header.set .create

/-! ### `Parse` -/

def isDecimalW (chW : WChar) : Bool := 0x30 ≤ chW && chW ≤ 0x39

/-- The digits of a number, and the zero behind them. -/
def uint64Digits : UInt64 → List WChar → Except HResult UInt64
  | nValue, [] => .ok nValue
  | nValue, chW :: szValueW =>
    if isDecimalW chW then
      let nTemp := nValue * 10
      if nTemp < nValue then .error .mxArithmeticOverflow
      else
        let nValue := nTemp + (chW - 0x30).toUInt64
        if nValue < nTemp then .error .mxArithmeticOverflow else uint64Digits nValue szValueW
    else .error .mxInvalidData

/-- `GetUInt64` -/
def getUInt64 (szValueW : List WChar) : Except HResult UInt64 :=
  if !isDecimalW (charAt szValueW 0) then .error .mxInvalidData
  else uint64Digits 0 (szValueW.dropWhile (· == 0x30))

def isBlankW (chW : WChar) : Bool := chW == 0x20 || chW == 0x09

/-- The characters of a field. -/
def isFieldChar (chW : WChar) : Bool := 0x21 ≤ chW && chW ≤ 0x7E && chW != 0x2C

/-- The fields of a value, of which there are fewer than `fuel`. -/
def fieldsFrom : Nat → List (List Byte) → List WChar → HResult × List (List Byte)
  | 0, cFieldsList, _ => (.mxInvalidData, cFieldsList)
  | fuel + 1, cFieldsList, szFieldW =>
    let szStartW := szFieldW.dropWhile isBlankW
    if szStartW = [] then (.sOk, cFieldsList)
    else
      let cStrTempA := (szStartW.takeWhile isFieldChar).map UInt16.toUInt8
      match if cStrTempA = [] then .ok cFieldsList else addField cFieldsList cStrTempA with
      | .error hRes => (hRes, cFieldsList)
      | .ok cFieldsList =>
        match (szStartW.dropWhile isFieldChar).dropWhile isBlankW with
        | [] => (.sOk, cFieldsList)
        | chW :: szFieldW =>
          if chW == 0x2C then fieldsFrom fuel cFieldsList szFieldW
          else (.mxInvalidData, cFieldsList)

/-- The fields of a value. -/
def parseFields (cFieldsList : List (List Byte)) (szValueW : List WChar) :
    HResult × List (List Byte) :=
  fieldsFrom (szValueW.length + 1) cFieldsList szValueW

/-- The header and the directives that were there. -/
structure Result where
  hRes : HResult
  header : Header
  nHasItem : Nat

section Directives

variable (h : Header) (nHasItem : Nat)

/-- A directive that may be there once. -/
def once (nBit : Nat) (set : HResult × Header) : Result :=
  if nHasItem &&& nBit != 0 then ⟨.mxInvalidData, h, nHasItem⟩
  else ⟨set.1, set.2, nHasItem ||| nBit⟩

/-- The age of a directive. -/
def takeAge (szValueW : List WChar) (set : UInt64 → Header) : HResult × Header :=
  match getUInt64 (szStr szValueW) with
  | .error hRes => (hRes, h)
  | .ok nValue => (.sOk, set nValue)

/-- The fields of a directive. -/
def takeFields (cFieldsList : List (List Byte)) (szValueW : List WChar)
    (set : List (List Byte) → Header) : HResult × Header :=
  let r := parseFields cFieldsList (szStr szValueW)
  (r.1, set r.2)

/-- What `Parse` does with a directive. -/
def takeDirective (cStrTokenA : List Byte) (cStrValueW : List WChar) : Result :=
  if strCompareA cStrTokenA (ascii "public") true then
    if !isEmptyStr cStrValueW then ⟨.mxInvalidData, h, nHasItem⟩
    else once h nHasItem 0x0001 (.sOk, { h with bPublic := true })
  else if strCompareA cStrTokenA (ascii "max-age") true then
    once h nHasItem 0x0002 (takeAge h cStrValueW fun nMaxAge => { h with nMaxAge })
  else if strCompareA cStrTokenA (ascii "private") true then
    once h nHasItem 0x0004 (takeFields h.cPrivateFieldsList cStrValueW fun cPrivateFieldsList =>
      { h with bPrivate := true, cPrivateFieldsList })
  else if strCompareA cStrTokenA (ascii "s-maxage") true then
    once h nHasItem 0x0008 (takeAge h cStrValueW fun nSMaxAge => { h with nSMaxAge })
  else if strCompareA cStrTokenA (ascii "no-cache") true then
    once h nHasItem 0x0010 (takeFields h.cNoCacheFieldsList cStrValueW fun cNoCacheFieldsList =>
      { h with bNoCache := true, cNoCacheFieldsList })
  else if strCompareA cStrTokenA (ascii "no-store") true then
    once h nHasItem 0x0020 (.sOk, { h with bNoStore := true })
  else if strCompareA cStrTokenA (ascii "no-transform") true then
    once h nHasItem 0x0040 (.sOk, { h with bNoTransform := true })
  else if strCompareA cStrTokenA (ascii "must-revalidate") true then
    once h nHasItem 0x0080 (.sOk, { h with bMustRevalidate := true })
  else if strCompareA cStrTokenA (ascii "proxy-revalidate") true then
    once h nHasItem 0x0100 (.sOk, { h with bProxyRevalidate := true })
  else
    match addExtension h.aExtensionsList (szStr cStrTokenA) (szStr cStrValueW) with
    | .error hRes => ⟨hRes, h, nHasItem ||| 0x1000⟩
    | .ok aExtensionsList => ⟨.sOk, { h with aExtensionsList }, nHasItem ||| 0x1000⟩

end Directives

/-- The loop between two directives. -/
structure Scan where
  header : Header
  nHasItem : Nat
  sA : List Byte

/-- What follows a directive: a comma, or the end. -/
def separator (h : Header) (nHasItem : Nat) : List Byte → Scan ⊕ Option Result
  | [] => .inr (some ⟨.sOk, h, nHasItem⟩)
  | ch :: rest =>
    if ch == chComma then
      if rest = [] then .inr (some ⟨.sOk, h, nHasItem⟩) else .inl ⟨h, nHasItem, rest⟩
    else .inr (some ⟨.mxInvalidData, h, nHasItem⟩)

/-- A turn of the loop, and its exit; `none` stands for a text in quotes that is never left. -/
def turn (fuel : Nat) (s : Scan) : Scan ⊕ Option Result :=
  let sA := skipSpaces s.sA
  if sA = [] then .inr (some ⟨.sOk, s.header, s.nHasItem⟩)
  else if charAt sA 0 == chComma then separator s.header s.nHasItem sA
  else
    match getParamNameAndValue fuel true sA with
    | none => .inr none
    | some p =>
      if p.hRes.failed && p.hRes != .mxNoData then .inr (some ⟨p.hRes, s.header, s.nHasItem⟩)
      else
        let r := takeDirective s.header s.nHasItem p.cStrTokenA p.cStrValueW
        if r.hRes.failed then .inr (some r) else separator r.header r.nHasItem (skipSpaces p.sA)

/-- `Parse`, with at most `fuel` turns of each loop. -/
def parse (fuel : Nat) (h : Header) (szValueA : List Byte) : Option (HResult × Header) :=
  (Loop.run (turn fuel) fuel ⟨h, 0, szValueA⟩).join.map fun r =>
    if r.hRes.failed then (r.hRes, r.header)
    else if r.nHasItem = 0 then (.mxInvalidData, r.header)
    else (.sOk, r.header)

/-! ### `Build` -/

/-- The fields in quotes. -/
def buildFields (cFieldsList : List (List Byte)) : List Byte :=
  match cFieldsList with
  | [] => []
  | szFieldA :: l => ascii "=\"" ++ szStr szFieldA ++ (l.flatMap fun szFieldA =>
      ascii "," ++ szStr szFieldA) ++ ascii "\""

/-- An extension as it is written. -/
def buildExtension (e : List Byte × List WChar) : List Byte :=
  ascii "," ++ szStr e.1 ++ ascii "=" ++ szStr (buildQuotedStringW (szStr e.2) false)

/-- `Build` -/
def Header.build (h : Header) : List Byte :=
  let cStrDestA :=
    (if h.bPublic then ascii ",public" else []) ++
    (if h.bPrivate then ascii ",private" ++ buildFields h.cPrivateFieldsList else []) ++
    (if h.bNoCache then ascii ",no-cache" ++ buildFields h.cNoCacheFieldsList else []) ++
    (if h.bMustRevalidate then ascii ",must-revalidate" else []) ++
    (if h.bProxyRevalidate then ascii ",proxy-revalidate" else []) ++
    (if h.bNoStore then ascii ",no-store" else []) ++
    (if h.bNoTransform then ascii ",no-transform" else []) ++
    (if h.nMaxAge ≠ noAge then ascii ",max-age=" ++ decimal h.nMaxAge.toNat else []) ++
    (if h.nSMaxAge ≠ noAge then ascii ",s-maxage=" ++ decimal h.nSMaxAge.toNat else []) ++
    h.aExtensionsList.flatMap buildExtension
  if isEmptyStr cStrDestA then cStrDestA else deleteStr cStrDestA 0 1

/-! ### Numbers -/

/-- The codes of the characters of a wide text. -/
def codes (sW : List WChar) : List Nat := sW.map UInt16.toNat

/-- A digit and its code. -/
theorem isDecimalW_iff {chW : WChar} :
    isDecimalW chW = true ↔ 0x30 ≤ chW.toNat ∧ chW.toNat ≤ 0x39 := by
  rw [isDecimalW, Bool.and_eq_true, decide_eq_true_iff, decide_eq_true_iff, UInt16.le_iff_toNat_le,
    UInt16.le_iff_toNat_le]
  exact Iff.rfl

/-- **Digits are added up** to the number they make, if it has 64 bits. -/
theorem uint64Digits_eq (sW : List WChar) : ∀ nValue : UInt64,
    (∀ chW ∈ sW, isDecimalW chW = true) → Decimal.value nValue.toNat (codes sW) < 2 ^ 64 →
    uint64Digits nValue sW = .ok (UInt64.ofNat (Decimal.value nValue.toNat (codes sW))) := by
  induction sW with
  | nil =>
    intro nValue _ _
    exact congrArg Except.ok (UInt64.ofNat_toNat).symm
  | cons chW sW ih =>
    intro nValue hdigits hlt
    have hch := hdigits chW List.mem_cons_self
    obtain ⟨hlo, hhi⟩ := isDecimalW_iff.mp hch
    rw [codes, List.map_cons, Decimal.value_cons] at hlt ⊢
    have hle := Decimal.le_value (codes sW) (10 * nValue.toNat + (chW.toNat - 0x30))
    rw [codes] at hle
    -- neither the product nor the sum wraps
    have hproduct : (nValue * 10).toNat = 10 * nValue.toNat := by
      rw [UInt64.toNat_mul, show (10 : UInt64).toNat = 10 from rfl, Nat.mod_eq_of_lt (by omega),
        Nat.mul_comm]
    have hdigit : (chW - 0x30).toUInt64.toNat = chW.toNat - 0x30 := by
      have hle : (0x30 : UInt16) ≤ chW := UInt16.le_iff_toNat_le.mpr hlo
      rw [UInt16.toNat_toUInt64, UInt16.toNat_sub_of_le _ _ hle]
      rfl
    have hsum : (nValue * 10 + (chW - 0x30).toUInt64).toNat =
        10 * nValue.toNat + (chW.toNat - 0x30) := by
      rw [UInt64.toNat_add, hproduct, hdigit, Nat.mod_eq_of_lt (by omega)]
    have hmul : ¬ nValue * 10 < nValue := by
      rw [UInt64.lt_iff_toNat_lt, hproduct]
      omega
    have hadd : ¬ nValue * 10 + (chW - 0x30).toUInt64 < nValue * 10 := by
      rw [UInt64.lt_iff_toNat_lt, hproduct, hsum]
      omega
    rw [uint64Digits, if_pos hch]
    dsimp only
    rw [if_neg hmul, if_neg hadd, ih _ (fun c hc => hdigits c (List.mem_cons_of_mem _ hc)), hsum]
    · rfl
    · rw [hsum]
      exact hlt

/-- Zeros in front change no number. -/
theorem value_dropWhile_zeros (sW : List WChar) :
    Decimal.value 0 (codes (sW.dropWhile (· == 0x30))) = Decimal.value 0 (codes sW) := by
  induction sW with
  | nil => rfl
  | cons chW sW ih =>
    by_cases hzero : chW = 0x30
    · subst hzero
      rw [List.dropWhile_cons_of_pos rfl, ih]
      rfl
    · rw [List.dropWhile_cons_of_neg (by simpa using hzero)]

/-- The wide text of a number. -/
theorem codes_decimal (n : Nat) : codes ((decimal n).map UInt8.toUInt16) = Decimal.numeral n := by
  rw [codes, decimal, Decimal.numeral, List.map_map, List.map_map]
  refine List.map_congr_left fun c hc => ?_
  have hdigit : c.isDigit = true := Nat.isDigit_of_mem_toDigits (by decide) (by decide) hc
  rw [Char.isDigit, Bool.and_eq_true, decide_eq_true_iff, decide_eq_true_iff] at hdigit
  have hlt : c.toNat < 256 := Nat.lt_of_le_of_lt hdigit.2 (by decide)
  rw [Function.comp_apply, Function.comp_apply, UInt8.toNat_toUInt16]
  exact UInt8.toNat_ofNat_of_lt' hlt

/-- **A number that `Build` writes is read again.** -/
theorem getUInt64_decimal (n : UInt64) :
    getUInt64 ((decimal n.toNat).map UInt8.toUInt16) = .ok n := by
  have hcodes := codes_decimal n.toNat
  have hdigits : ∀ chW ∈ (decimal n.toNat).map UInt8.toUInt16, isDecimalW chW = true := by
    intro chW hch
    have hmem : chW.toNat ∈ Decimal.numeral n.toNat :=
      hcodes ▸ List.mem_map_of_mem hch
    exact isDecimalW_iff.mpr (Decimal.isDigit_iff.mp (Decimal.isDigit_numeral _ _ hmem))
  have hne : (decimal n.toNat).map UInt8.toUInt16 ≠ [] := by
    intro hnil
    rw [hnil] at hcodes
    exact Decimal.numeral_ne_nil _ hcodes.symm
  have hvalue : Decimal.value 0 (codes (((decimal n.toNat).map UInt8.toUInt16).dropWhile
      (· == 0x30))) = n.toNat := by
    rw [value_dropWhile_zeros, hcodes, Decimal.value_numeral]
  rw [getUInt64, if_neg, uint64Digits_eq]
  · rw [show (0 : UInt64).toNat = 0 from rfl, hvalue, UInt64.ofNat_toNat]
  · exact fun chW hch => hdigits chW ((List.dropWhile_suffix _).subset hch)
  · rw [show (0 : UInt64).toNat = 0 from rfl, hvalue]
    exact n.toNat_lt
  · obtain ⟨chW, sW, hcons⟩ := List.exists_cons_of_ne_nil hne
    rw [hcons, charAt_cons_zero, hdigits chW (hcons ▸ List.mem_cons_self)]
    decide

/-! ### Fields -/

/-- A field is a token. -/
def IsField (szFieldA : List Byte) : Prop := szFieldA ≠ [] ∧ szFieldA.all isTokenChar = true

/-- Fields with commas between them. -/
def fieldsText : List (List Byte) → List Byte
  | [] => []
  | szFieldA :: l => szFieldA ++ l.flatMap fun szFieldA => chComma :: szFieldA

theorem isFieldChar_toUInt16 {ch : Byte} (h : isTokenChar ch = true) :
    isFieldChar ch.toUInt16 = true ∧ isBlankW ch.toUInt16 = false := by
  revert h
  refine forall_byte (P := fun ch => isTokenChar ch = true →
    isFieldChar ch.toUInt16 = true ∧ isBlankW ch.toUInt16 = false) ?_ ch
  decide

theorem map_toUInt8_toUInt16 (sA : List Byte) :
    (sA.map UInt8.toUInt16).map UInt16.toUInt8 = sA := by
  rw [List.map_map]
  exact (List.map_congr_left fun ch _ => UInt8.toUInt8_toUInt16 ch).trans (List.map_id _)

theorem addField_token {szFieldA : List Byte} (h : IsField szFieldA)
    (cFieldsList : List (List Byte)) :
    addField cFieldsList szFieldA = .ok (cFieldsList ++ [szFieldA]) := by
  rw [addField, getToken_self h.2, decide_eq_false h.1]
  rfl

/-- A turn of the loop over fields. -/
theorem fieldsFrom_cons {szFieldA : List Byte} (h : IsField szFieldA) (fuel : Nat)
    (cFieldsList : List (List Byte)) {tail : List WChar}
    (htail : tail = [] ∨ ∃ rest, tail = 0x2C :: rest) :
    fieldsFrom (fuel + 1) cFieldsList (szFieldA.map UInt8.toUInt16 ++ tail) =
      match tail with
      | [] => (.sOk, cFieldsList ++ [szFieldA])
      | _ :: szFieldW => fieldsFrom fuel (cFieldsList ++ [szFieldA]) szFieldW := by
  obtain ⟨hne, htoken⟩ := h
  have hchars : ∀ chW ∈ szFieldA.map UInt8.toUInt16, isFieldChar chW = true := by
    intro chW hch
    obtain ⟨ch, hmem, rfl⟩ := List.mem_map.mp hch
    exact (isFieldChar_toUInt16 (List.all_eq_true.mp htoken ch hmem)).1
  have hstart : (szFieldA.map UInt8.toUInt16 ++ tail).dropWhile isBlankW =
      szFieldA.map UInt8.toUInt16 ++ tail := by
    obtain ⟨ch, rest, rfl⟩ := List.exists_cons_of_ne_nil hne
    refine List.dropWhile_cons_of_neg ?_
    rw [(isFieldChar_toUInt16 (List.all_eq_true.mp htoken ch List.mem_cons_self)).2]
    decide
  have hstop : tail.takeWhile isFieldChar = [] ∧ tail.dropWhile isFieldChar = tail ∧
      tail.dropWhile isBlankW = tail := by
    rcases htail with rfl | ⟨rest, rfl⟩
    · exact ⟨rfl, rfl, rfl⟩
    · exact ⟨rfl, rfl, rfl⟩
  have hcons : szFieldA.map UInt8.toUInt16 ++ tail ≠ [] :=
    List.append_ne_nil_of_left_ne_nil (fun hnil => hne (List.map_eq_nil_iff.mp hnil)) _
  rw [fieldsFrom]
  dsimp only
  rw [hstart, if_neg hcons, List.takeWhile_append_of_pos hchars,
    List.dropWhile_append_of_pos hchars, hstop.1, hstop.2.1, hstop.2.2, List.append_nil,
    map_toUInt8_toUInt16, if_neg hne, addField_token ⟨hne, htoken⟩]
  rcases htail with rfl | ⟨rest, rfl⟩
  · rfl
  · rfl

/-- **The fields are read one by one.** -/
theorem fieldsFrom_fieldsText (l : List (List Byte)) : ∀ (cFieldsList : List (List Byte))
    (fuel : Nat), (∀ szFieldA ∈ l, IsField szFieldA) → l.length < fuel →
    fieldsFrom fuel cFieldsList ((fieldsText l).map UInt8.toUInt16) = (.sOk, cFieldsList ++ l) := by
  induction l with
  | nil =>
    intro cFieldsList fuel _ hfuel
    obtain ⟨fuel, rfl⟩ := Nat.exists_eq_add_one.mpr hfuel
    rw [List.append_nil]
    rfl
  | cons szFieldA l ih =>
    intro cFieldsList fuel hfields hfuel
    obtain ⟨fuel, rfl⟩ := Nat.exists_eq_add_one.mpr (Nat.zero_lt_of_lt hfuel)
    have hfield := hfields szFieldA List.mem_cons_self
    rw [fieldsText, List.map_append]
    cases l with
    | nil => exact fieldsFrom_cons hfield fuel cFieldsList (.inl rfl)
    | cons szFieldA' l =>
      refine (fieldsFrom_cons hfield fuel cFieldsList (.inr ⟨_, rfl⟩)).trans ?_
      have hrun := ih (cFieldsList ++ [szFieldA]) fuel
        (fun f hf => hfields f (List.mem_cons_of_mem _ hf)) (Nat.lt_of_succ_lt_succ hfuel)
      rw [List.append_assoc, List.singleton_append] at hrun
      exact hrun

/-- A field has a character at least. -/
theorem length_le_fieldsText {l : List (List Byte)} (h : ∀ szFieldA ∈ l, IsField szFieldA) :
    l.length ≤ (fieldsText l).length := by
  cases l with
  | nil => exact Nat.le_refl _
  | cons szFieldA l =>
    have hmore : ∀ l : List (List Byte),
        l.length ≤ (l.flatMap fun szFieldA => chComma :: szFieldA).length := by
      intro l
      induction l with
      | nil => exact Nat.le_refl _
      | cons szFieldA l ih =>
        rw [List.flatMap_cons, List.length_append, List.length_cons, List.length_cons]
        omega
    have hpos := List.length_pos_of_ne_nil (h szFieldA List.mem_cons_self).1
    have hle := hmore l
    rw [fieldsText, List.length_append, List.length_cons]
    omega

/-- The characters of fields: those of tokens, and commas. -/
theorem mem_fieldsText {l : List (List Byte)} (h : ∀ szFieldA ∈ l, IsField szFieldA) :
    ∀ ch ∈ fieldsText l, isTokenChar ch = true ∨ ch = chComma := by
  have hfield : ∀ szFieldA ∈ l, ∀ ch ∈ szFieldA, isTokenChar ch = true :=
    fun szFieldA hmem ch hch => List.all_eq_true.mp (h szFieldA hmem).2 ch hch
  cases l with
  | nil =>
    intro ch hch
    cases hch
  | cons szFieldA l =>
    intro ch hch
    rcases List.mem_append.mp hch with hch | hch
    · exact .inl (hfield szFieldA List.mem_cons_self ch hch)
    · obtain ⟨szFieldA', hmem, hch⟩ := List.mem_flatMap.mp hch
      rcases List.mem_cons.mp hch with rfl | hch
      · exact .inr rfl
      · exact .inl (hfield szFieldA' (List.mem_cons_of_mem _ hmem) ch hch)

/-- Characters that need no backslash. -/
theorem isPlain_of_fieldsText {l : List (List Byte)} (h : ∀ szFieldA ∈ l, IsField szFieldA) :
    ∀ ch ∈ fieldsText l, isPrintable ch = true ∧ isPlainA ch = true := by
  intro ch hch
  rcases mem_fieldsText h ch hch with htoken | rfl
  · revert htoken
    refine forall_byte (P := fun ch => isTokenChar ch = true →
      isPrintable ch = true ∧ isPlainA ch = true) ?_ ch
    decide
  · decide

/-- Characters in quotes without a backslash. -/
def plainChars (sA : List Byte) (h : ∀ ch ∈ sA, isPrintable ch = true ∧ isPlainA ch = true) :
    List QuotedChar :=
  sA.pmap (fun ch hch => ⟨ch, false, hch.1, .inr hch.2⟩) h

@[simp] theorem map_ch_plainChars (sA : List Byte)
    (h : ∀ ch ∈ sA, isPrintable ch = true ∧ isPlainA ch = true) :
    (plainChars sA h).map QuotedChar.ch = sA := by
  rw [plainChars, List.map_pmap, List.pmap_eq_map, List.map_id']

@[simp] theorem text_plainChars (sA : List Byte)
    (h : ∀ ch ∈ sA, isPrintable ch = true ∧ isPlainA ch = true) :
    (plainChars sA h).flatMap QuotedChar.text = sA := by
  induction sA with
  | nil => rfl
  | cons ch sA ih =>
    rw [plainChars, List.pmap_cons, List.flatMap_cons]
    exact congrArg (ch :: ·) (ih fun c hc => h c (List.mem_cons_of_mem _ hc))

/-! ### Directives -/

/-- The value of a directive as `Parse` has it. -/
def wideValue (value : Option ParamValue) : List WChar :=
  (value.map fun v => v.value.map UInt8.toUInt16).getD []

/-- A directive that `Build` writes, and what `Parse` makes of it. -/
structure Directive where
  name : ParamName
  value : Option ParamValue
  nBit : Nat
  effect : Header → Header
  takes : ∀ h nHasItem, nHasItem &&& nBit = 0 →
    takeDirective h nHasItem name.text (wideValue value) = ⟨.sOk, effect h, nHasItem ||| nBit⟩

/-- The text of a directive, and what is behind it. -/
def Directive.text (d : Directive) (rest : List Byte) : List Byte :=
  match d.value with
  | none => d.name.text ++ rest
  | some v => d.name.text ++ chEquals :: (v.text ++ rest)

/-- A directive that was not there yet is taken. -/
theorem once_new (h : Header) {nHasItem nBit : Nat} (hnew : nHasItem &&& nBit = 0)
    (set : HResult × Header) :
    once h nHasItem nBit set = ⟨set.1, set.2, nHasItem ||| nBit⟩ := by
  rw [once, hnew]
  rfl

/-- The name of a directive. -/
def directiveName (sA : List Byte) (h : sA.all isTokenChar = true ∧ sA ≠ [] ∧
    (sA.getLast? == some chAsterisk) = false) : ParamName :=
  ⟨⟨sA, h.1⟩, h.2.1, h.2.2⟩

/-- A directive without a value. -/
def flag (sA : List Byte) (h : sA.all isTokenChar = true ∧ sA ≠ [] ∧
    (sA.getLast? == some chAsterisk) = false) (nBit : Nat) (effect : Header → Header)
    (takes : ∀ h nHasItem, takeDirective h nHasItem sA [] =
      once h nHasItem nBit (.sOk, effect h)) : Directive where
  name := directiveName sA h
  value := none
  nBit := nBit
  effect := effect
  takes h nHasItem hnew := (takes h nHasItem).trans (once_new h hnew _)

def publicDirective : Directive :=
  flag (ascii "public") (by decide) 0x0001 (fun h => { h with bPublic := true })
    fun _ _ => rfl

def noStoreDirective : Directive :=
  flag (ascii "no-store") (by decide) 0x0020 (fun h => { h with bNoStore := true }) fun _ _ => rfl

def noTransformDirective : Directive :=
  flag (ascii "no-transform") (by decide) 0x0040 (fun h => { h with bNoTransform := true })
    fun _ _ => rfl

def mustRevalidateDirective : Directive :=
  flag (ascii "must-revalidate") (by decide) 0x0080 (fun h => { h with bMustRevalidate := true })
    fun _ _ => rfl

def proxyRevalidateDirective : Directive :=
  flag (ascii "proxy-revalidate") (by decide) 0x0100
    (fun h => { h with bProxyRevalidate := true }) fun _ _ => rfl

/-- A number is a token. -/
theorem decimal_isToken (n : Nat) : (decimal n).all isTokenChar = true := by
  refine List.all_eq_true.mpr fun ch hch => ?_
  have hdigit := mem_decimal hch
  revert hdigit
  refine forall_byte (P := fun ch => 0x30 ≤ ch ∧ ch ≤ 0x39 → isTokenChar ch = true) ?_ ch
  decide

theorem decimal_ne_nil (n : Nat) : decimal n ≠ [] := by
  intro hnil
  have hcodes := codes_decimal n
  rw [hnil] at hcodes
  exact Decimal.numeral_ne_nil _ hcodes.symm

/-- A directive with an age. -/
def age (sA : List Byte) (h : sA.all isTokenChar = true ∧ sA ≠ [] ∧
    (sA.getLast? == some chAsterisk) = false) (nBit : Nat) (set : Header → UInt64 → Header)
    (takes : ∀ h nHasItem szValueW, takeDirective h nHasItem sA szValueW =
      once h nHasItem nBit (takeAge h szValueW (set h))) (n : UInt64) : Directive where
  name := directiveName sA h
  value := some (.token ⟨decimal n.toNat, decimal_isToken n.toNat⟩ (decimal_ne_nil n.toNat))
  nBit := nBit
  effect h := set h n
  takes h nHasItem hnew := by
    have hzero : ∀ ch ∈ decimal n.toNat, ch ≠ 0 := fun ch hch =>
      isTokenChar_ne_zero (List.all_eq_true.mp (decimal_isToken n.toNat) ch hch)
    have htake : takeAge h (wideValue (some (.token ⟨decimal n.toNat, decimal_isToken n.toNat⟩
        (decimal_ne_nil n.toNat)))) (set h) = (.sOk, set h n) := by
      change takeAge h ((decimal n.toNat).map UInt8.toUInt16) (set h) = _
      rw [takeAge, szStr_map_toUInt16 hzero, getUInt64_decimal]
    refine (takes h nHasItem _).trans ((once_new h hnew _).trans ?_)
    rw [htake]

def maxAgeDirective : UInt64 → Directive :=
  age (ascii "max-age") (by decide) 0x0002 (fun h nMaxAge => { h with nMaxAge }) fun _ _ _ => rfl

def sMaxAgeDirective : UInt64 → Directive :=
  age (ascii "s-maxage") (by decide) 0x0008 (fun h nSMaxAge => { h with nSMaxAge })
    fun _ _ _ => rfl

/-- The fields in quotes, if there are any. -/
def fieldsValue (l : List (List Byte)) (hfields : ∀ szFieldA ∈ l, IsField szFieldA) :
    Option ParamValue :=
  if l = [] then none
  else some (.quoted (plainChars (fieldsText l) (isPlain_of_fieldsText hfields)))

theorem wideValue_fieldsValue (l : List (List Byte))
    (hfields : ∀ szFieldA ∈ l, IsField szFieldA) :
    wideValue (fieldsValue l hfields) = (fieldsText l).map UInt8.toUInt16 := by
  rw [fieldsValue]
  by_cases hnil : l = []
  · subst hnil
    rfl
  · rw [if_neg hnil]
    change ((plainChars _ _).map QuotedChar.ch).map UInt8.toUInt16 = _
    rw [map_ch_plainChars]

/-- **The fields that `Build` writes are added again.** -/
theorem parseFields_fieldsText (cFieldsList l : List (List Byte))
    (hfields : ∀ szFieldA ∈ l, IsField szFieldA) :
    parseFields cFieldsList (szStr ((fieldsText l).map UInt8.toUInt16)) =
      (.sOk, cFieldsList ++ l) := by
  have hzero : ∀ ch ∈ fieldsText l, ch ≠ 0 := fun ch hch =>
    isPrintable_ne_zero (isPlain_of_fieldsText hfields ch hch).1
  have hlen := length_le_fieldsText hfields
  rw [szStr_map_toUInt16 hzero, parseFields]
  refine fieldsFrom_fieldsText l cFieldsList _ hfields ?_
  rw [List.length_map]
  omega

/-- A directive with fields. -/
def fields (sA : List Byte) (h : sA.all isTokenChar = true ∧ sA ≠ [] ∧
    (sA.getLast? == some chAsterisk) = false) (nBit : Nat) (get : Header → List (List Byte))
    (set : Header → List (List Byte) → Header)
    (takes : ∀ h nHasItem szValueW, takeDirective h nHasItem sA szValueW =
      once h nHasItem nBit (takeFields (get h) szValueW (set h))) (l : List (List Byte))
    (hfields : ∀ szFieldA ∈ l, IsField szFieldA) : Directive where
  name := directiveName sA h
  value := fieldsValue l hfields
  nBit := nBit
  effect h := set h (get h ++ l)
  takes h nHasItem hnew := by
    refine (takes h nHasItem _).trans ((once_new h hnew _).trans ?_)
    rw [wideValue_fieldsValue, takeFields, parseFields_fieldsText (get h) l hfields]

def privateDirective (l : List (List Byte)) (hfields : ∀ szFieldA ∈ l, IsField szFieldA) :
    Directive :=
  fields (ascii "private") (by decide) 0x0004 Header.cPrivateFieldsList
    (fun h cPrivateFieldsList => { h with bPrivate := true, cPrivateFieldsList })
    (fun _ _ _ => rfl) l hfields

def noCacheDirective (l : List (List Byte)) (hfields : ∀ szFieldA ∈ l, IsField szFieldA) :
    Directive :=
  fields (ascii "no-cache") (by decide) 0x0010 Header.cNoCacheFieldsList
    (fun h cNoCacheFieldsList => { h with bNoCache := true, cNoCacheFieldsList })
    (fun _ _ _ => rfl) l hfields

/-! ### The loop over directives -/

/-- A name without a value. -/
theorem getParamNameAndValue_bare (fuel : Nat) (b : Bool) (name : ParamName) {rest : List Byte}
    (hrest : rest = [] ∨ ∃ tail, rest = chComma :: tail) :
    getParamNameAndValue fuel b (name.text ++ rest) =
      some ⟨.mxNoData, name.text, [], rest, false⟩ := by
  rcases hrest with rfl | ⟨tail, rfl⟩
  · have htoken := getToken_append name.isToken [] rfl
    simp only [getParamNameAndValue, htoken, name.notExtended]
    rw [if_neg name.notEmpty]
    rfl
  · have htoken := getToken_append name.isToken (chComma :: tail) rfl
    simp only [getParamNameAndValue, htoken, name.notExtended]
    rw [if_neg name.notEmpty, skipSpaces_cons (by decide)]
    rfl

/-- What is behind a directive. -/
theorem rest_facts {rest : List Byte} (hrest : rest = [] ∨ ∃ tail, rest = chComma :: tail) :
    isTokenChar (charAt rest 0) = false ∧ skipSpaces rest = rest := by
  rcases hrest with rfl | ⟨tail, rfl⟩
  · exact ⟨rfl, rfl⟩
  · exact ⟨rfl, skipSpaces_cons (by decide) tail⟩

/-- **A directive is read up to what follows it.** -/
theorem getParamNameAndValue_directive {fuel : Nat} (d : Directive) {rest : List Byte}
    (hrest : rest = [] ∨ ∃ tail, rest = chComma :: tail) (hfuel : (d.text rest).length < fuel) :
    ∃ hRes, getParamNameAndValue fuel true (d.text rest) =
        some ⟨hRes, d.name.text, wideValue d.value, rest, false⟩ ∧
      (hRes.failed && hRes != .mxNoData) = false := by
  rw [Directive.text] at hfuel ⊢
  cases hvalue : d.value with
  | none => exact ⟨.mxNoData, getParamNameAndValue_bare fuel true d.name hrest, rfl⟩
  | some v =>
    rw [hvalue] at hfuel
    have hlen : (v.text ++ (Blanks.none.text ++ rest)).length < fuel := by
      have hle : (v.text ++ rest).length <
          (d.name.text ++ chEquals :: (v.text ++ rest)).length := by
        simp only [List.length_append, List.length_cons]
        omega
      exact Nat.lt_trans hle hfuel
    have hget := getParamNameAndValue_plain d.name v Blanks.none (rest_facts hrest).1 hlen
    rw [(rest_facts hrest).2] at hget
    exact ⟨.sOk, hget, rfl⟩

/-- The first character of a directive is one of a token. -/
theorem text_facts (d : Directive) (rest : List Byte) :
    skipSpaces (d.text rest) = d.text rest ∧ d.text rest ≠ [] ∧
      (charAt (d.text rest) 0 == chComma) = false := by
  have htext : ∃ tail, d.text rest = d.name.text ++ tail := by
    rw [Directive.text]
    cases d.value with
    | none => exact ⟨_, rfl⟩
    | some v => exact ⟨_, rfl⟩
  obtain ⟨tail, htext⟩ := htext
  rw [htext]
  refine ⟨skipSpaces_token d.name.isToken d.name.notEmpty tail,
    List.append_ne_nil_of_left_ne_nil d.name.notEmpty tail, ?_⟩
  obtain ⟨ch, name, hname⟩ := List.exists_cons_of_ne_nil d.name.notEmpty
  have hch := List.all_eq_true.mp d.name.isToken ch (hname ▸ List.mem_cons_self)
  rw [hname, List.cons_append, charAt_cons_zero, beq_eq_false_iff_ne]
  rintro rfl
  exact absurd hch (by decide)

theorem text_append (d : Directive) (rest : List Byte) : d.text rest = d.text [] ++ rest := by
  rw [Directive.text, Directive.text]
  cases d.value with
  | none => rw [List.append_nil]
  | some v =>
    dsimp only
    rw [List.append_nil, List.append_assoc, List.cons_append]

theorem length_le_text (d : Directive) (rest : List Byte) :
    rest.length ≤ (d.text rest).length := by
  rw [Directive.text]
  cases d.value with
  | none =>
    rw [List.length_append]
    exact Nat.le_add_left _ _
  | some v =>
    simp only [List.length_append, List.length_cons]
    omega

/-- **A turn takes a directive.** -/
theorem turn_directive {fuel : Nat} (d : Directive) (h : Header) {nHasItem : Nat}
    (hnew : nHasItem &&& d.nBit = 0) {rest : List Byte}
    (hrest : rest = [] ∨ ∃ tail, rest = chComma :: tail) (hfuel : (d.text rest).length < fuel) :
    turn fuel ⟨h, nHasItem, d.text rest⟩ =
      separator (d.effect h) (nHasItem ||| d.nBit) rest := by
  obtain ⟨hblank, hne, hcomma⟩ := text_facts d rest
  obtain ⟨hRes, hget, hok⟩ := getParamNameAndValue_directive d hrest hfuel
  rw [turn]
  dsimp only
  rw [hblank, if_neg hne, hcomma, hget]
  dsimp only
  rw [if_neg (by decide), hok, if_neg (by decide), d.takes h nHasItem hnew, (rest_facts hrest).2]
  rfl

/-- Directives with commas between them. -/
def directivesText : List Directive → List Byte
  | [] => []
  | [d] => d.text []
  | d :: l => d.text (chComma :: directivesText l)

/-- What directives make of a header. -/
def applyAll (h : Header) (l : List Directive) : Header := l.foldl (fun h d => d.effect h) h

theorem directivesText_ne_nil {l : List Directive} (h : l ≠ []) : directivesText l ≠ [] := by
  match l, h with
  | [d], _ => exact (text_facts d []).2.1
  | d :: d' :: l, _ => exact (text_facts d _).2.1

/-- **The loop takes all the directives**, none of which is there twice. -/
theorem run_directives {fuel : Nat} (l : List Directive) : ∀ (h : Header) (nHasItem n : Nat),
    l ≠ [] → l.Pairwise (fun d d' => d.nBit &&& d'.nBit = 0) → (∀ d ∈ l, d.nBit ≠ 0) →
    (∀ d ∈ l, nHasItem &&& d.nBit = 0) → l.length ≤ n → (directivesText l).length < fuel →
    ∃ m, m ≠ 0 ∧ Loop.run (turn fuel) n ⟨h, nHasItem, directivesText l⟩ =
      some (some ⟨.sOk, applyAll h l, m⟩) := by
  induction l with
  | nil =>
    intro h nHasItem n hne
    exact absurd rfl hne
  | cons d l ih =>
    intro h nHasItem n _ hbits hpos hnew hn hfuel
    obtain ⟨n, rfl⟩ := Nat.exists_eq_add_one.mpr (Nat.lt_of_lt_of_le (Nat.zero_lt_succ _) hn)
    have hd := hnew d List.mem_cons_self
    have hbit : nHasItem ||| d.nBit ≠ 0 := by
      intro hzero
      exact hpos d List.mem_cons_self (Nat.or_eq_zero_iff.mp hzero).2
    cases l with
    | nil =>
      have hturn := turn_directive d h hd (.inl rfl) hfuel
      exact ⟨nHasItem ||| d.nBit, hbit, Loop.run_succ_inr hturn n⟩
    | cons d' l =>
      have hturn := turn_directive d h hd (.inr ⟨_, rfl⟩) hfuel
      have hmore : directivesText (d' :: l) ≠ [] := directivesText_ne_nil (List.cons_ne_nil _ _)
      have hsep : separator (d.effect h) (nHasItem ||| d.nBit)
          (chComma :: directivesText (d' :: l)) =
          .inl ⟨d.effect h, nHasItem ||| d.nBit, directivesText (d' :: l)⟩ := by
        rw [separator, if_pos (beq_self_eq_true _), if_neg hmore]
      obtain ⟨hfirst, hrest⟩ := List.pairwise_cons.mp hbits
      -- the bits that are set and those to come stay disjoint
      have hnext : ∀ e ∈ d' :: l, (nHasItem ||| d.nBit) &&& e.nBit = 0 := by
        intro e he
        rw [Nat.and_or_distrib_right, hnew e (List.mem_cons_of_mem _ he), hfirst e he]
        rfl
      have hlen : (directivesText (d' :: l)).length < fuel := by
        have hlonger : (d.text (chComma :: directivesText (d' :: l))).length < fuel := hfuel
        have hsuffix := length_le_text d (chComma :: directivesText (d' :: l))
        rw [List.length_cons] at hsuffix
        omega
      obtain ⟨m, hm, hrun⟩ := ih (d.effect h) (nHasItem ||| d.nBit) n (List.cons_ne_nil _ _) hrest
        (fun e he => hpos e (List.mem_cons_of_mem _ he)) hnext (Nat.le_of_succ_le_succ hn) hlen
      exact ⟨m, hm, (Loop.run_succ_inl (hturn.trans hsep) n).trans hrun⟩

/-! ### The directives of a header -/

section Directives

variable (h : Header) (hprivate : ∀ szFieldA ∈ h.cPrivateFieldsList, IsField szFieldA)
  (hnoCache : ∀ szFieldA ∈ h.cNoCacheFieldsList, IsField szFieldA)

/-- The directives that there may be, and which of them there are. -/
def slots : List (Bool × Directive) :=
  [(h.bPublic, publicDirective), (h.bPrivate, privateDirective h.cPrivateFieldsList hprivate),
    (h.bNoCache, noCacheDirective h.cNoCacheFieldsList hnoCache),
    (h.bMustRevalidate, mustRevalidateDirective), (h.bProxyRevalidate, proxyRevalidateDirective),
    (h.bNoStore, noStoreDirective), (h.bNoTransform, noTransformDirective),
    (decide (h.nMaxAge ≠ noAge), maxAgeDirective h.nMaxAge),
    (decide (h.nSMaxAge ≠ noAge), sMaxAgeDirective h.nSMaxAge)]

/-- The directives that there are. -/
def directives : List Directive := ((slots h hprivate hnoCache).filter (·.1)).map (·.2)

theorem directives_bits : (directives h hprivate hnoCache).Pairwise
      (fun d d' => d.nBit &&& d'.nBit = 0) ∧
    ∀ d ∈ directives h hprivate hnoCache, d.nBit ≠ 0 := by
  have hsub : List.Sublist ((directives h hprivate hnoCache).map Directive.nBit)
      ((slots h hprivate hnoCache).map fun s => s.2.nBit) := by
    rw [directives, List.map_map]
    exact List.filter_sublist.map _
  have hbits : ((slots h hprivate hnoCache).map fun s => s.2.nBit) =
      [0x0001, 0x0004, 0x0010, 0x0080, 0x0100, 0x0020, 0x0040, 0x0002, 0x0008] := rfl
  rw [hbits] at hsub
  constructor
  · have hdisjoint : List.Pairwise (fun n n' : Nat => n &&& n' = 0)
        [0x0001, 0x0004, 0x0010, 0x0080, 0x0100, 0x0020, 0x0040, 0x0002, 0x0008] := by
      decide
    exact List.pairwise_map.mp (hdisjoint.sublist hsub)
  · intro d hd hzero
    have hmem := hsub.subset (List.mem_map_of_mem hd)
    rw [hzero] at hmem
    exact absurd hmem (by decide)

theorem length_directives : (directives h hprivate hnoCache).length ≤ 9 := by
  rw [directives, List.length_map]
  exact List.length_filter_le _ _

/-- The effect of a directive, if there is one. -/
def effectOf (h : Header) (s : Bool × Directive) : Header := if s.1 then s.2.effect h else h

theorem applyAll_slots (l : List (Bool × Directive)) (h : Header) :
    applyAll h ((l.filter (·.1)).map (·.2)) = l.foldl effectOf h := by
  rw [applyAll, List.foldl_map, List.foldl_filter]
  rfl

/-- A slot does to a header what it is there for, filled or not. -/
theorem effectOf_eq {h h' : Header} {b : Bool} {d : Directive} (htrue : b = true → d.effect h = h')
    (hfalse : b = false → h = h') : effectOf h (b, d) = h' := by
  cases b with
  | true => exact htrue rfl
  | false => exact hfalse rfl

/-- **The directives of a header make the header**, if it has no extensions. -/
theorem applyAll_directives (hext : h.aExtensionsList = [])
    (hnoPrivate : h.bPrivate = false → h.cPrivateFieldsList = [])
    (hnoNoCache : h.bNoCache = false → h.cNoCacheFieldsList = []) :
    applyAll .create (directives h hprivate hnoCache) = h := by
  obtain ⟨bPublic, bPrivate, cPrivateFieldsList, bNoCache, cNoCacheFieldsList, bNoStore,
    bNoTransform, bMustRevalidate, bProxyRevalidate, nMaxAge, nSMaxAge, aExtensionsList⟩ := h
  obtain rfl : aExtensionsList = [] := hext
  have hpublic : effectOf .create (bPublic, publicDirective) = { Header.create with bPublic } :=
    effectOf_eq (fun hb => hb ▸ rfl) (fun hb => hb ▸ rfl)
  have hprivateFields : effectOf { Header.create with bPublic }
      (bPrivate, privateDirective cPrivateFieldsList hprivate) =
      { Header.create with bPublic, bPrivate, cPrivateFieldsList } :=
    effectOf_eq (fun hb => hb ▸ rfl) (fun hb => by
      subst hb
      rw [show cPrivateFieldsList = [] from hnoPrivate rfl]
      rfl)
  have hnoCacheFields : effectOf { Header.create with bPublic, bPrivate, cPrivateFieldsList }
      (bNoCache, noCacheDirective cNoCacheFieldsList hnoCache) =
      { Header.create with bPublic, bPrivate, cPrivateFieldsList, bNoCache, cNoCacheFieldsList } :=
    effectOf_eq (fun hb => hb ▸ rfl) (fun hb => by
      subst hb
      rw [show cNoCacheFieldsList = [] from hnoNoCache rfl]
      rfl)
  have hmust (h : Header) (hfalse : h.bMustRevalidate = false) :
      effectOf h (bMustRevalidate, mustRevalidateDirective) = { h with bMustRevalidate } :=
    effectOf_eq (fun hb => hb ▸ rfl) (fun hb => by rw [hb, ← hfalse])
  have hproxy (h : Header) (hfalse : h.bProxyRevalidate = false) :
      effectOf h (bProxyRevalidate, proxyRevalidateDirective) = { h with bProxyRevalidate } :=
    effectOf_eq (fun hb => hb ▸ rfl) (fun hb => by rw [hb, ← hfalse])
  have hnoStore (h : Header) (hfalse : h.bNoStore = false) :
      effectOf h (bNoStore, noStoreDirective) = { h with bNoStore } :=
    effectOf_eq (fun hb => hb ▸ rfl) (fun hb => by rw [hb, ← hfalse])
  have hnoTransform (h : Header) (hfalse : h.bNoTransform = false) :
      effectOf h (bNoTransform, noTransformDirective) = { h with bNoTransform } :=
    effectOf_eq (fun hb => hb ▸ rfl) (fun hb => by rw [hb, ← hfalse])
  have hmaxAge (h : Header) (hage : h.nMaxAge = noAge) :
      effectOf h (decide (nMaxAge ≠ noAge), maxAgeDirective nMaxAge) = { h with nMaxAge } :=
    effectOf_eq (fun _ => rfl)
      (fun hb => by rw [show nMaxAge = noAge by simpa using hb, ← hage])
  have hsMaxAge (h : Header) (hage : h.nSMaxAge = noAge) :
      effectOf h (decide (nSMaxAge ≠ noAge), sMaxAgeDirective nSMaxAge) = { h with nSMaxAge } :=
    effectOf_eq (fun _ => rfl)
      (fun hb => by rw [show nSMaxAge = noAge by simpa using hb, ← hage])
  rw [directives, applyAll_slots, slots]
  simp only [List.foldl_cons, List.foldl_nil]
  rw [hpublic, hprivateFields, hnoCacheFields, hmust _ rfl, hproxy _ rfl, hnoStore _ rfl,
    hnoTransform _ rfl, hmaxAge _ rfl, hsMaxAge _ rfl]
  rfl

/-- The text of directives, a comma in front of each. -/
theorem flatMap_directives {l : List Directive} (hne : l ≠ []) :
    l.flatMap (fun d => chComma :: d.text []) = chComma :: directivesText l := by
  induction l with
  | nil => exact absurd rfl hne
  | cons d l ih =>
    rw [List.flatMap_cons]
    cases l with
    | nil => exact List.append_nil _
    | cons d' l =>
      rw [ih (List.cons_ne_nil _ _), List.cons_append, ← text_append]
      rfl

/-- The text of the directives that there are. -/
theorem flatMap_slots (l : List (Bool × Directive)) :
    ((l.filter (·.1)).map (·.2)).flatMap (fun d => chComma :: d.text []) =
      l.flatMap fun s => if s.1 then chComma :: s.2.text [] else [] := by
  induction l with
  | nil => rfl
  | cons s l ih =>
    obtain ⟨b, d⟩ := s
    cases b with
    | false => exact ih
    | true => exact congrArg ((chComma :: d.text []) ++ ·) ih

/-- The fields as `Build` writes them. -/
theorem buildFields_eq (sA : List Byte) (hname : sA.all isTokenChar = true ∧ sA ≠ [] ∧
    (sA.getLast? == some chAsterisk) = false) {nBit : Nat} {get : Header → List (List Byte)}
    {set : Header → List (List Byte) → Header}
    (takes : ∀ h nHasItem szValueW, takeDirective h nHasItem sA szValueW =
      once h nHasItem nBit (takeFields (get h) szValueW (set h))) (l : List (List Byte))
    (hfields : ∀ szFieldA ∈ l, IsField szFieldA) :
    sA ++ buildFields l = (fields sA hname nBit get set takes l hfields).text [] := by
  cases l with
  | nil => rfl
  | cons szFieldA l =>
    have hstr : ∀ szFieldA' ∈ szFieldA :: l, szStr szFieldA' = szFieldA' := fun f hf =>
      szStr_token (hfields f hf).2
    have hmore : (l.flatMap fun szFieldA => ascii "," ++ szStr szFieldA) =
        l.flatMap fun szFieldA => chComma :: szFieldA :=
      List.flatMap_congr fun f hf => congrArg (chComma :: ·) (hstr f (List.mem_cons_of_mem _ hf))
    have htext : buildFields (szFieldA :: l) =
        chEquals :: (chQuote :: (fieldsText (szFieldA :: l) ++ [chQuote])) := by
      rw [buildFields, hstr szFieldA List.mem_cons_self, hmore, List.append_assoc,
        List.append_assoc, fieldsText, List.append_assoc]
      rfl
    rw [htext]
    change _ = sA ++ chEquals :: ((chQuote :: ((plainChars _ _).flatMap QuotedChar.text ++
      [chQuote])) ++ [])
    rw [text_plainChars, List.append_nil]

/-- **What `Build` writes is the text of the directives.** -/
theorem build_directives (hext : h.aExtensionsList = []) (hne : h.build ≠ []) :
    directives h hprivate hnoCache ≠ [] ∧
      h.build = directivesText (directives h hprivate hnoCache) := by
  have hprivateText : ascii ",private" ++ buildFields h.cPrivateFieldsList =
      chComma :: (privateDirective h.cPrivateFieldsList hprivate).text [] :=
    congrArg (chComma :: ·) (buildFields_eq (ascii "private") (by decide) _ _ hprivate)
  have hnoCacheText : ascii ",no-cache" ++ buildFields h.cNoCacheFieldsList =
      chComma :: (noCacheDirective h.cNoCacheFieldsList hnoCache).text [] :=
    congrArg (chComma :: ·) (buildFields_eq (ascii "no-cache") (by decide) _ _ hnoCache)
  have hmaxAgeText : ascii ",max-age=" ++ decimal h.nMaxAge.toNat =
      chComma :: (maxAgeDirective h.nMaxAge).text [] :=
    congrArg (ascii ",max-age=" ++ ·) (List.append_nil _).symm
  have hsMaxAgeText : ascii ",s-maxage=" ++ decimal h.nSMaxAge.toNat =
      chComma :: (sMaxAgeDirective h.nSMaxAge).text [] :=
    congrArg (ascii ",s-maxage=" ++ ·) (List.append_nil _).symm
  have hbuild : h.build =
      let cStrDestA := (directives h hprivate hnoCache).flatMap fun d => chComma :: d.text []
      if isEmptyStr cStrDestA then cStrDestA else deleteStr cStrDestA 0 1 := by
    rw [Header.build, hprivateText, hnoCacheText, hmaxAgeText, hsMaxAgeText, hext, directives,
      flatMap_slots, slots]
    simp only [List.flatMap_cons, List.flatMap_nil, List.append_assoc, List.append_nil,
      decide_eq_true_eq]
    rfl
  have hnonempty : directives h hprivate hnoCache ≠ [] := by
    intro hnil
    rw [hnil] at hbuild
    exact hne hbuild
  refine ⟨hnonempty, ?_⟩
  rw [hbuild, flatMap_directives hnonempty]
  rfl

end Directives

/-! ### Headers that setters made -/

theorem isField_of_addField {cFieldsList cFieldsList' : List (List Byte)} {szFieldA : List Byte}
    (h : addField cFieldsList szFieldA = .ok cFieldsList') :
    cFieldsList' = cFieldsList ++ [szFieldA] ∧ IsField szFieldA := by
  rw [addField] at h
  by_cases hbad : (szFieldA = [] || (getToken szFieldA).2 != []) = true
  · rw [if_pos hbad] at h
    cases h
  · rw [if_neg hbad] at h
    obtain rfl := Except.ok.inj h
    rw [Bool.or_eq_true, not_or, decide_eq_true_iff, bne_iff_ne, not_not] at hbad
    exact ⟨rfl, hbad.1, List.all_eq_true.mpr (List.dropWhile_eq_nil_iff.mp hbad.2)⟩

/-- The fields of a header are tokens. -/
def Header.FieldsOk (h : Header) : Prop :=
  (∀ szFieldA ∈ h.cPrivateFieldsList, IsField szFieldA) ∧
    ∀ szFieldA ∈ h.cNoCacheFieldsList, IsField szFieldA

/-- A field that a setter adds. -/
theorem isField_append {cFieldsList cFieldsList' : List (List Byte)} {szFieldA : List Byte}
    (h : addField cFieldsList szFieldA = .ok cFieldsList')
    (hfields : ∀ f ∈ cFieldsList, IsField f) : ∀ f ∈ cFieldsList', IsField f := by
  obtain ⟨rfl, hfield⟩ := isField_of_addField h
  intro f hf
  rcases List.mem_append.mp hf with hf | hf
  · exact hfields f hf
  · rwa [List.mem_singleton.mp hf]

/-- A setter adds tokens only. -/
theorem fieldsOk_set {h : Header} (hok : h.FieldsOk) (s : Setter) : (h.set s).FieldsOk := by
  cases s with
  | addPrivateField szFieldA =>
    rw [Header.set]
    cases hadd : addField h.cPrivateFieldsList (szStr szFieldA) with
    | error _ => exact hok
    | ok cPrivateFieldsList => exact ⟨isField_append hadd hok.1, hok.2⟩
  | addNoCacheField szFieldA =>
    rw [Header.set]
    cases hadd : addField h.cNoCacheFieldsList (szStr szFieldA) with
    | error _ => exact hok
    | ok cNoCacheFieldsList => exact ⟨hok.1, isField_append hadd hok.2⟩
  | addExtension szNameA szValueW =>
    rw [Header.set]
    split
    · exact hok
    · exact hok
  | _ => exact hok

/-- **A run of setters leaves tokens only.** -/
theorem fieldsOk_make (l : List Setter) : (Header.make l).FieldsOk := by
  have hrun : ∀ h : Header, h.FieldsOk → (l.foldl Header.set h).FieldsOk := by
    induction l with
    | nil => exact fun _ hok => hok
    | cons s l ih => exact fun h hok => ih (h.set s) (fieldsOk_set hok s)
  exact hrun .create ⟨fun _ hf => (by cases hf), fun _ hf => (by cases hf)⟩

/-- **Cache-Control round trip**: what `Build` writes of a header that setters made is read
back by `Parse`, all of it, if there are no extensions and there is a directive at least. -/
theorem respCacheControlRoundTrip (l : List Setter)
    (hext : (Header.make l).aExtensionsList = [])
    (hprivate : (Header.make l).bPrivate = false → (Header.make l).cPrivateFieldsList = [])
    (hnoCache : (Header.make l).bNoCache = false → (Header.make l).cNoCacheFieldsList = [])
    (hne : (Header.make l).build ≠ []) :
    ∃ n, ∀ fuel ≥ n,
      parse fuel .create (Header.make l).build = some (.sOk, Header.make l) := by
  obtain ⟨hprivateFields, hnoCacheFields⟩ := fieldsOk_make l
  obtain ⟨hnonempty, hbuild⟩ := build_directives _ hprivateFields hnoCacheFields hext hne
  obtain ⟨hbits, hpos⟩ := directives_bits (Header.make l) hprivateFields hnoCacheFields
  have happly := applyAll_directives _ hprivateFields hnoCacheFields hext hprivate hnoCache
  have hlen := length_directives (Header.make l) hprivateFields hnoCacheFields
  refine ⟨(Header.make l).build.length + 9, fun fuel hfuel => ?_⟩
  rw [hbuild] at hfuel ⊢
  have hfits : (directivesText (directives (Header.make l) hprivateFields hnoCacheFields)).length <
      fuel := by omega
  obtain ⟨m, hm, hrun⟩ := run_directives _ .create 0 fuel hnonempty hbits hpos
    (fun d _ => Nat.zero_and _) (by omega) hfits
  rw [parse, hrun, happly]
  change some (if m = 0 then _ else _) = _
  rw [if_neg hm]

/-- A header with fields and an age of 64 bits. -/
def privateSetters : List Setter :=
  [.setPrivate true, .addPrivateField (ascii "set-cookie"), .addPrivateField (ascii "age"),
    .setNoStore true, .setMaxAge 0xFFFFFFFFFFFFFFFE]

theorem respCacheControlRoundTrip_private : ∃ n, ∀ fuel ≥ n,
    parse fuel .create (Header.make privateSetters).build =
      some (.sOk, Header.make privateSetters) :=
  respCacheControlRoundTrip privateSetters rfl (by decide) (by decide) (by decide)

end MxLib.Http.RespCacheControl
