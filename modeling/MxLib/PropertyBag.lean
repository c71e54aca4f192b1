import MxLib.ArrayList
import MxLib.Strings.Utf8Compare

/-!
# Property bags

`CPropertyBag`, with the kinds of values that a session keeps.  The properties are in a sorted
array; a name is looked for, without regard to capitals, with its binary search.  A `double` is the
64 bits it is stored in.
-/

namespace MxLib.PropertyBag

open MxLib.Compare (compareLens minLen)

/-- The values of the kinds `Null`, `Double` and `AnsiString`. -/
inductive Value
  | null
  | double (dblValue : UInt64)
  | ansiString (szValueA : List Byte)
deriving DecidableEq, Repr

/-- `PROPERTY` -/
structure Property where
  szNameA : List Byte
  value : Value
deriving DecidableEq, Repr

/-- `CPropertyBag`, that is `cPropertiesList`. -/
abbrev Bag := ArrayList Property 32

/-- The properties grow by 32. -/
local instance neZeroGranularity : NeZero 32 := ⟨by decide⟩

/-- `MX_E_NotFound` -/
def mxNotFound : HResult := .other 0x80070490

/-! ### Comparing names -/

/-- `_strnicmp`: the difference of the first characters that differ, as small letters. -/
def strnicmp : Nat → List Byte → List Byte → Int
  | 0, _, _ => 0
  | nLen + 1, szSrcA1, szSrcA2 =>
    let chA1 := lowerA (charAt szSrcA1 0)
    let chA2 := lowerA (charAt szSrcA2 0)
    if chA1 ≠ chA2 then (chA1.toNat : Int) - chA2.toNat
    else if chA1 = 0 then 0
    else strnicmp nLen (szSrcA1.drop 1) (szSrcA2.drop 1)

/-- `StrCompareA(szSrcA1, szSrcA2, TRUE)` -/
def strCompareA (szSrcA1 szSrcA2 : List Byte) : Int :=
  let nLen0 := (szStr szSrcA1).length
  let nLen1 := (szStr szSrcA2).length
  compareLens (strnicmp (minLen nLen0 nLen1) szSrcA1 szSrcA2) nLen0 nLen1

/-- `InsertCompareFunc` -/
def insertCompareFunc (lpItem1 lpItem2 : Property) : Int :=
  strCompareA lpItem1.szNameA lpItem2.szNameA

/-- `SearchCompareFunc` -/
def searchCompareFunc (lpKey : List Byte) (lpItem : Property) : Int :=
  strCompareA lpKey lpItem.szNameA

/-! ### Finding and storing -/

/-- Whether the allocations of a call succeed: that of the property, and that of a longer list. -/
structure Memory where
  bProperty : Bool
  bList : Bool

/-- `Find` -/
def find (bag : Bag) (szNameA : List Byte) : Option Nat :=
  (bag.binarySearch szNameA searchCompareFunc).get
    (bag.binarySearch_isSome szNameA searchCompareFunc)

/-- `Insert` -/
def insert (bag : Bag) (lpNewProp : Property) (bAlloc : Bool) : Bool × Bag :=
  match find bag lpNewProp.szNameA with
  | some nIndex =>
    (true, { bag with
      lpItems := bag.lpItems.set nIndex lpNewProp
      fits := by rw [List.length_set]; exact bag.fits })
  | none =>
    let r := (bag.sortedInsert lpNewProp insertCompareFunc false bAlloc).get
      (bag.sortedInsert_isSome lpNewProp insertCompareFunc bAlloc)
    (r.1, r.2.2)

/-- `Clear` -/
def clear (bag : Bag) (szNameA : List Byte) : HResult × Bag :=
  if charAt szNameA 0 = 0 then (.eInvalidArg, bag)
  else
    match find bag szNameA with
    | none => (mxNotFound, bag)
    | some nIndex => (.sOk, (bag.removeElementAt nIndex 1).2)

/-- What `SetNull`, `SetDouble` and `SetString` have in common. -/
def store (bag : Bag) (lpNewProp : Property) (mem : Memory) : HResult × Bag :=
  if charAt lpNewProp.szNameA 0 = 0 then (.eInvalidArg, bag)
  else if mem.bProperty = false then (.eOutOfMemory, bag)
  else
    match insert bag lpNewProp mem.bList with
    | (false, bag) => (.eOutOfMemory, bag)
    | (true, bag) => (.sOk, bag)

/-- `SetNull` -/
def setNull (bag : Bag) (szNameA : List Byte) (mem : Memory) : HResult × Bag :=
  store bag ⟨szNameA, .null⟩ mem

/-- `SetDouble` -/
def setDouble (bag : Bag) (szNameA : List Byte) (nValue : UInt64) (mem : Memory) :
    HResult × Bag := store bag ⟨szNameA, .double nValue⟩ mem

/-- `SetString` -/
def setString (bag : Bag) (szNameA szValueA : List Byte) (mem : Memory) : HResult × Bag :=
  store bag ⟨szNameA, .ansiString szValueA⟩ mem

/-! ### What a call changes -/

variable {bag : Bag} {szNameA : List Byte} {lpNewProp : Property} {mem : Memory}

theorem find_lt {nIndex : Nat} (h : find bag szNameA = some nIndex) :
    nIndex < bag.lpItems.length := by
  obtain ⟨r, hr, hlt⟩ := bag.binarySearch_lt szNameA searchCompareFunc
  apply hlt
  rw [← h]
  simp [find, hr]

/-- A name that cannot be cleared leaves the bag alone. -/
theorem clear_of_failed (h : (clear bag szNameA).1.failed = true) :
    (clear bag szNameA).2 = bag := by
  unfold clear at h ⊢
  by_cases hempty : charAt szNameA 0 = 0
  · rw [if_pos hempty]
  · rw [if_neg hempty] at h ⊢
    cases hfind : find bag szNameA with
    | none => rfl
    | some nIndex => simp [hfind] at h

/-- The call puts something into the bag that has not been there. -/
def Stores (bag : Bag) (lpNewProp : Property) (mem : Memory) : Prop :=
  charAt lpNewProp.szNameA 0 ≠ 0 ∧ mem.bProperty = true ∧
    match find bag lpNewProp.szNameA with
    | some nIndex => bag.lpItems[nIndex]? ≠ some lpNewProp
    | none => bag.nCount < bag.nSize ∨ mem.bList = true

theorem set_eq_self_iff {α : Type*} {l : List α} {i : Nat} (hi : i < l.length) (a : α) :
    l.set i a = l ↔ l[i]? = some a := by
  constructor
  · intro h
    rw [← h, List.getElem?_set_self hi]
  · intro h
    obtain ⟨hlt, rfl⟩ := List.getElem?_eq_some_iff.mp h
    exact List.set_getElem_self hlt

/-- A property that cannot be put in leaves the bag alone. -/
theorem insert_of_false {bAlloc : Bool} (h : (insert bag lpNewProp bAlloc).1 = false) :
    (insert bag lpNewProp bAlloc).2 = bag := by
  unfold insert at h ⊢
  cases hfind : find bag lpNewProp.szNameA with
  | some nIndex => simp [hfind] at h
  | none =>
      obtain ⟨nLow, hsorted⟩ := bag.sortedInsert_false lpNewProp insertCompareFunc bAlloc
      rcases bag.insertElementAt_cases lpNewProp nLow bAlloc with ⟨-, bag', hput, -⟩ | ⟨-, hput⟩
      · simp [hfind, hsorted, hput] at h
      · simp [hsorted, hput]

theorem insert_changes_iff (bAlloc : Bool) :
    (insert bag lpNewProp bAlloc).2.lpItems ≠ bag.lpItems ↔
      match find bag lpNewProp.szNameA with
      | some nIndex => bag.lpItems[nIndex]? ≠ some lpNewProp
      | none => bag.nCount < bag.nSize ∨ bAlloc = true := by
  unfold insert
  cases hfind : find bag lpNewProp.szNameA with
  | some nIndex => exact not_congr (set_eq_self_iff (find_lt hfind) lpNewProp)
  | none =>
      obtain ⟨nLow, hsorted⟩ := bag.sortedInsert_false lpNewProp insertCompareFunc bAlloc
      rcases bag.insertElementAt_cases lpNewProp nLow bAlloc with
        ⟨hroom, bag', hput, hlen⟩ | ⟨hroom, hput⟩
      · have hne : bag'.lpItems ≠ bag.lpItems := by
          intro he
          rw [he] at hlen
          omega
        simp [hsorted, hput, hne, hroom]
      · simp [hsorted, hput, hroom]

theorem store_of_failed (h : (store bag lpNewProp mem).1.failed = true) :
    (store bag lpNewProp mem).2 = bag := by
  unfold store at h ⊢
  by_cases hempty : charAt lpNewProp.szNameA 0 = 0
  · rw [if_pos hempty]
  by_cases hmem : mem.bProperty = false
  · rw [if_neg hempty, if_pos hmem]
  rw [if_neg hempty, if_neg hmem] at h ⊢
  have hkeep := @insert_of_false bag lpNewProp mem.bList
  revert h hkeep
  cases insert bag lpNewProp mem.bList with
  | mk bRet bag' =>
      cases bRet with
      | false => intro _ hkeep; exact hkeep rfl
      | true => intro h _; cases h

/-- A call changes the bag just when it stores something new. -/
theorem store_changes_iff :
    (store bag lpNewProp mem).2.lpItems ≠ bag.lpItems ↔ Stores bag lpNewProp mem := by
  unfold store Stores
  by_cases hempty : charAt lpNewProp.szNameA 0 = 0
  · simp [hempty]
  by_cases hmem : mem.bProperty = false
  · simp [hempty, hmem]
  rw [if_neg hempty, if_neg hmem, ← insert_changes_iff mem.bList]
  cases hput : insert bag lpNewProp mem.bList with
  | mk bRet bag' => cases bRet <;> simp [hempty, hmem]

end MxLib.PropertyBag
