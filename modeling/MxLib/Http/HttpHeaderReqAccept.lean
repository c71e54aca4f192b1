import MxLib.Http.HttpHeaderEntContentType
import MxLib.Http.HttpHeaderGenSecWebSocketExtensions

/-!
# Accept

`acceptClass` has what `CHttpHeaderReqAccept` does for one type; its `parse` and `build`
are `Parse` and `Build`.  A `double` is a rational number here, and the two functions that
read and write one are parameters.

The three headers with parameters are alike in what `Build` does not do: it writes values
without the quotes they need (`parameterisedRoundTrip_iff`).
-/

namespace MxLib.Http

open MxLib.Library

/-- `CType` -/
structure AcceptType where
  cStrTypeA : List Byte
  q : Rat
  aParamsList : ParamsList
deriving DecidableEq

/-- What `SetType` steps over on a side of the slash. -/
def skipTypePart (szTypeA : List Byte) : List Byte :=
  if charAt szTypeA 0 == chAsterisk then szTypeA.drop 1 else (getToken szTypeA).2

/-- The check of `SetType`. -/
def isAcceptType (szTypeA : List Byte) : Bool :=
  match skipTypePart szTypeA with
  | [] => false
  | ch :: szSubtypeA => ch == chSlash && szSubtypeA != [] && skipTypePart szSubtypeA == []

/-- `SetType`, for a new type. -/
def AcceptType.create (szTypeA : List Byte) : Except HResult AcceptType :=
  if szTypeA = [] then .error .mxInvalidData
  else if !isAcceptType szTypeA then .error .mxInvalidData
  else .ok ⟨szTypeA, 1, []⟩

/-- `SetQ` -/
def AcceptType.setQ (t : AcceptType) (q : Rat) : Except HResult AcceptType :=
  if q < -1 / 1000000 ∨ q > 1000001 / 1000000 then .error .eInvalidArg
  else .ok { t with q := if q > 1 / 1000000 then (if q < 99999 / 100000 then q else 1) else 0 }

/-- `AddParam` -/
def AcceptType.addParam (t : AcceptType) (szNameA : List Byte) (szValueW : List WChar) :
    Except HResult AcceptType :=
  (Http.addParam t.aParamsList szNameA szValueW).map fun aParamsList => { t with aParamsList }

/-- `RemoveTrailingZeroDecimals`, on the reversed text. -/
def removeTrailingZeros : List Byte → List Byte
  | ch :: ch' :: rest =>
    if ch != 0x30 || ch' == 0x2E then ch :: ch' :: rest else removeTrailingZeros (ch' :: rest)
  | sA => sA

section Accept

variable (strToDoubleW : List WChar → Except Fault Rat) (formatDouble : Rat → List Byte)

/-- What `Parse` does with a parameter. -/
def AcceptType.takeParam (t : AcceptType) (p : ParamResult) : Except HResult AcceptType :=
  if strCompareA p.cStrTokenA (ascii "q") true then
    if !isEmptyStr p.cStrValueW then
      match strToDoubleW (szStr p.cStrValueW) with
      | .error fault => .error fault.hRes
      | .ok nDbl => t.setQ nDbl
    else .error .mxInvalidData
  else t.addParam p.cStrTokenA p.cStrValueW

/-- What `Build` writes for a type. -/
def AcceptType.write (cStrDestA : List Byte) (t : AcceptType) : List Byte :=
  let cStrDestA := cStrDestA ++ szStr t.cStrTypeA
  let cStrDestA :=
    if t.q < 1 - 1 / 100000000 then
      (removeTrailingZeros (cStrDestA ++ ascii ";q=" ++ formatDouble t.q).reverse).reverse
    else cStrDestA
  cStrDestA ++ t.aParamsList.flatMap buildItemParam

def acceptClass : ItemClass AcceptType where
  create := AcceptType.create
  getName := AcceptType.cStrTypeA
  addParam := AcceptType.addParam
  takeParam := AcceptType.takeParam strToDoubleW
  write := AcceptType.write formatDouble

theorem skipTypePart_suffix (szTypeA : List Byte) : ∃ t : List Byte,
    t.all isTokenChar = true ∧ szTypeA = t ++ skipTypePart szTypeA := by
  rw [skipTypePart]
  split
  next hstar =>
    cases szTypeA with
    | nil => exact ⟨[], rfl, rfl⟩
    | cons ch rest =>
      obtain rfl : ch = chAsterisk := by simpa using hstar
      exact ⟨[chAsterisk], by decide, rfl⟩
  · exact ⟨(getToken szTypeA).1, List.all_takeWhile, List.takeWhile_append_dropWhile.symm⟩

/-- The characters of a type are those of tokens, and a slash. -/
theorem isWord_of_isAcceptType {szTypeA : List Byte} (h : isAcceptType szTypeA = true) :
    szTypeA ≠ [] ∧ szTypeA.all isWordChar = true := by
  obtain ⟨t, ht, htype⟩ := skipTypePart_suffix szTypeA
  rw [isAcceptType] at h
  split at h
  · cases h
  next ch szSubtypeA hrest =>
    simp only [Bool.and_eq_true, beq_iff_eq] at h
    obtain ⟨⟨rfl, -⟩, hend⟩ := h
    obtain ⟨t', ht', hsubtype⟩ := skipTypePart_suffix szSubtypeA
    rw [hend, List.append_nil] at hsubtype
    rw [hrest, hsubtype] at htype
    rw [htype, List.all_append, List.all_cons, all_isWordChar ht, all_isWordChar ht']
    exact ⟨by simp, rfl⟩

/-- A type with its name and parameters, and with `q` equal to 1. -/
def acceptModel : ItemModel AcceptType where
  toItemClass := acceptClass strToDoubleW formatDouble
  IsName szNameA := isAcceptType szNameA = true
  IsParam szNameA := strCompareA szNameA (ascii "q") true = false
  item szNameA l := ⟨szNameA, 1, l⟩
  params := AcceptType.aParamsList
  isWord_of_isName := isWord_of_isAcceptType
  create_name h := by
    simp only [acceptClass, AcceptType.create]
    rw [if_neg (isWord_of_isAcceptType h).1, h]
    rfl
  getName_item _ _ := rfl
  params_item _ _ := rfl
  addParam_item _ _ _ _ := rfl
  takeParam_item _ _ _ _ _ h := by
    simp only [acceptClass, AcceptType.takeParam, h, Bool.false_eq_true, if_false]
    rfl
  write_item {szNameA} h cStrDestA l := by
    have hname : szStr szNameA = szNameA := szStr_of_ne_zero fun ch hch =>
      (isWordChar_facts (List.all_eq_true.mp (isWord_of_isAcceptType h).2 ch hch)).1
    have hq : ¬ (1 : Rat) < 1 - 1 / 100000000 := by decide +kernel
    simp only [acceptClass, AcceptType.write, hname, if_neg hq, flatMap_buildItemParam,
      List.append_assoc]
  failed_create h := by
    simp only [acceptClass, AcceptType.create] at h
    split at h
    · cases h
      rfl
    · split at h
      · cases h
        rfl
      · cases h
  failed_takeParam h := by
    simp only [acceptClass, AcceptType.takeParam] at h
    split at h
    · split at h
      · split at h
        next fault _ =>
          cases h
          exact fault.failed
        · rw [AcceptType.setQ] at h
          split at h
          · cases h
            rfl
          · cases h
      · cases h
        rfl
    · exact failed_addParam (eq_error_of_map h)
  params_create h := by
    simp only [acceptClass, AcceptType.create] at h
    split at h
    · cases h
    · split at h
      · cases h
      · cases h
        rfl
  params_takeParam h := by
    simp only [acceptClass, AcceptType.takeParam] at h
    split at h
    · split at h
      · split at h
        · cases h
        · rw [AcceptType.setQ] at h
          split at h
          · cases h
          · cases h
            exact Or.inl rfl
      · cases h
    · obtain ⟨l, hadd, rfl⟩ := exists_of_map_ok h
      exact Or.inr (addParam_ok hadd)

/-- **The three headers with parameters are read back from what `Build` writes exactly
when no value needs quotes**; a list of items must have one. -/
theorem parameterisedRoundTrip_iff (type : TypeName) (l : List BareParam)
    (extensions : List (ItemText extensionModel)) (hextensions : DistinctNames extensions)
    (types : List (ItemText (acceptModel strToDoubleW formatDouble)))
    (htypes : DistinctNames types) :
    (ContentTypeRoundTrip type.text (l.map BareParam.entry) ↔ ∀ p ∈ l, p.IsToken) ∧
      (extensionClass.RoundTrip (extensions.map ItemText.entry) ↔
        extensions ≠ [] ∧ ∀ i ∈ extensions, ∀ p ∈ i.params, p.IsToken) ∧
      ((acceptClass strToDoubleW formatDouble).RoundTrip (types.map ItemText.entry) ↔
        types ≠ [] ∧ ∀ i ∈ types, ∀ p ∈ i.params, p.IsToken) :=
  ⟨contentTypeRoundTrip_iff type l, itemsRoundTrip_iff hextensions, itemsRoundTrip_iff htypes⟩

end Accept

/-- The type `text/plain`. -/
def plainType : TypeName := ⟨ascii "text/plain", by decide⟩

/-- The parameter `level=1`. -/
def levelParam : BareParam where
  name :=
    { text := ascii "level", isToken := by decide, notEmpty := by decide, notExtended := by decide }
  value := ascii "1"
  notEmpty := by decide
  isPrintable := by decide

/-- The extension `deflate;level=1`. -/
def deflateItem : ItemText extensionModel where
  name := ascii "deflate"
  isName := by simp only [extensionModel]; decide
  params := [levelParam]
  isParam := fun _ _ => trivial

/-- The type `text/plain;level=1`, where no number is read or written. -/
def plainItem : ItemText (acceptModel (fun _ => .error ⟨.mxInvalidData, rfl⟩) fun _ => []) where
  name := ascii "text/plain"
  isName := by simp only [acceptModel]; decide
  params := [levelParam]
  isParam := by
    intro p hp
    obtain rfl := List.mem_singleton.mp hp
    simp only [acceptModel]
    decide

theorem parameterisedRoundTrip_level :
    (ContentTypeRoundTrip (ascii "text/plain") [(ascii "level", wide "1")] ↔
        ∀ p ∈ [levelParam], p.IsToken) ∧
      (extensionClass.RoundTrip [(ascii "deflate", [(ascii "level", wide "1")])] ↔
        [deflateItem] ≠ [] ∧ ∀ i ∈ [deflateItem], ∀ p ∈ i.params, p.IsToken) ∧
      ((acceptClass (fun _ => .error ⟨.mxInvalidData, rfl⟩) fun _ => []).RoundTrip
          [(ascii "text/plain", [(ascii "level", wide "1")])] ↔
        [plainItem] ≠ [] ∧ ∀ i ∈ [plainItem], ∀ p ∈ i.params, p.IsToken) :=
  parameterisedRoundTrip_iff _ _ plainType [levelParam]
    [deflateItem] (List.pairwise_singleton _ _) [plainItem] (List.pairwise_singleton _ _)

/-- The parameter `title` with the value `a b`. -/
def titleParam : BareParam where
  name :=
    { text := ascii "title", isToken := by decide, notEmpty := by decide, notExtended := by decide }
  value := ascii "a b"
  notEmpty := by decide
  isPrintable := by decide

/-- A value with a blank is written without quotes, and refused. -/
theorem contentType_title :
    ContentType.build ⟨ascii "text/plain", [(ascii "title", wide "a b")]⟩ =
        ascii "text/plain; title=a b" ∧
      ContentType.parse 30 .create (ascii "text/plain; title=a b") =
        some (.mxInvalidData, ⟨ascii "text/plain", [(ascii "title", wide "a")]⟩) ∧
      ¬ ContentTypeRoundTrip (ascii "text/plain") [(ascii "title", wide "a b")] := by
  refine ⟨by decide, by decide, fun hkept => ?_⟩
  have hall := (contentTypeRoundTrip_iff plainType [titleParam]).mp hkept
  exact absurd (hall titleParam List.mem_cons_self) (by decide)

end MxLib.Http
