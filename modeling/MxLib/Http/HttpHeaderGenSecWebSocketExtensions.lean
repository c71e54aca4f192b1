import MxLib.Http.HeaderItemList

/-!
# Sec-WebSocket-Extensions

`extensionClass` has what `CHttpHeaderGenSecWebSocketExtensions` does for one extension;
its `parse` and `build` are `Parse` and `Build`.
-/

namespace MxLib.Http

open MxLib.Library

/-- `CExtension` -/
structure Extension where
  cStrExtensionA : List Byte
  aParamsList : ParamsList
deriving DecidableEq

/-- `SetExtension`, for a new extension. -/
def Extension.create (szExtensionA : List Byte) : Except HResult Extension :=
  if szExtensionA = [] then .error .mxInvalidData
  else if (getToken szExtensionA).2 ≠ [] then .error .mxInvalidData
  else .ok ⟨szExtensionA, []⟩

/-- `AddParam` -/
def Extension.addParam (e : Extension) (szNameA : List Byte) (szValueW : List WChar) :
    Except HResult Extension :=
  (Http.addParam e.aParamsList szNameA szValueW).map fun aParamsList => { e with aParamsList }

/-- What `Build` writes for an extension. -/
def Extension.write (cStrDestA : List Byte) (e : Extension) : List Byte :=
  cStrDestA ++ szStr e.cStrExtensionA ++ e.aParamsList.flatMap buildItemParam

def extensionClass : ItemClass Extension where
  create := Extension.create
  getName := Extension.cStrExtensionA
  addParam := Extension.addParam
  takeParam e p := e.addParam p.cStrTokenA p.cStrValueW
  write := Extension.write

/-- The text of the parameters of an item. -/
theorem flatMap_buildItemParam (l : List BareParam) :
    (l.map BareParam.entry).flatMap buildItemParam = l.flatMap fun p => chSemicolon :: p.written := by
  rw [List.flatMap_map]
  simp only [buildItemParam_entry]

/-- An extension with its name and parameters. -/
def extensionModel : ItemModel Extension where
  toItemClass := extensionClass
  IsName szNameA := szNameA ≠ [] ∧ szNameA.all isTokenChar = true
  IsParam _ := True
  item := Extension.mk
  params := Extension.aParamsList
  isWord_of_isName h := ⟨h.1, all_isWordChar h.2⟩
  create_name h := by
    simp only [extensionClass, Extension.create, getToken_self h.2]
    rw [if_neg h.1]
    rfl
  getName_item _ _ := rfl
  params_item _ _ := rfl
  addParam_item _ _ _ _ := rfl
  takeParam_item _ _ _ _ _ _ := rfl
  write_item h cStrDestA l := by
    have hname := szStr_token h.2
    simp only [extensionClass, Extension.write, hname, flatMap_buildItemParam, List.append_assoc]
  failed_create h := by
    simp only [extensionClass, Extension.create] at h
    split at h
    · cases h
      rfl
    · split at h
      · cases h
        rfl
      · cases h
  failed_takeParam h := failed_addParam (eq_error_of_map h)
  params_create h := by
    simp only [extensionClass, Extension.create] at h
    split at h
    · cases h
    · split at h
      · cases h
      · cases h
        rfl
  params_takeParam h := by
    obtain ⟨l, hadd, rfl⟩ := exists_of_map_ok h
    exact Or.inr (addParam_ok hadd)

end MxLib.Http
