import Mathlib.Data.List.Basic
import Mathlib.Data.List.Pairwise
import MxLib.Defines

/-!
# Sorted arrays

`TArrayList`, as far as it keeps a sorted array: `SortedInsert` and `BinarySearch` halve the array
in two different ways, one between two ends and the other over a first item and a length.  A read
of an item that the array does not have gives `none`.

The array is the list of its items with the number of items there is room for.  A call has with it
whether the allocation that it may need succeeds.
-/

namespace MxLib

variable {α κ : Type*} {nGranularity : Nat}

/-- `TArrayList<TType, nGranularity>` -/
structure ArrayList (α : Type*) (nGranularity : Nat) where
  lpItems : List α
  nSize : Nat
  fits : lpItems.length ≤ nSize

namespace ArrayList

/-- An array without items. -/
def empty : ArrayList α nGranularity := ⟨[], 0, Nat.le_refl 0⟩

def nCount (s : ArrayList α nGranularity) : Nat := s.lpItems.length

/-! ### Room for items -/

/-- The next multiple of the granularity. -/
def granulate (nGranularity n : Nat) : Nat := (n + nGranularity - 1) / nGranularity * nGranularity

variable [NeZero nGranularity]

theorem le_granulate (n : Nat) : n ≤ granulate nGranularity n := by
  have hpos := Nat.pos_of_ne_zero (NeZero.ne nGranularity)
  have hdiv := Nat.div_add_mod' (n + nGranularity - 1) nGranularity
  have hmod := Nat.mod_lt (n + nGranularity - 1) hpos
  unfold granulate
  omega

/-- The size that `SetSize` allocates. -/
def grownSize (s : ArrayList α nGranularity) (nNewSize : Nat) : Nat :=
  if s.nSize > 0 then granulate nGranularity nNewSize else nNewSize

theorem le_grownSize (s : ArrayList α nGranularity) (nNewSize : Nat) :
    nNewSize ≤ s.grownSize nNewSize := by
  unfold grownSize
  split
  · exact le_granulate nNewSize
  · exact Nat.le_refl _

/-- `SetSize(_nSize)`: whether there is room, and the array then. -/
def setSize (s : ArrayList α nGranularity) (nNewSize : Nat) (bAlloc : Bool) :
    Bool × ArrayList α nGranularity :=
  if h : nNewSize > s.nSize then
    if bAlloc then
      (true, { s with
        nSize := s.grownSize nNewSize
        fits := Nat.le_trans s.fits (Nat.le_trans (Nat.le_of_lt h) (s.le_grownSize nNewSize)) })
    else (false, s)
  else (true, s)

@[simp] theorem setSize_lpItems (s : ArrayList α nGranularity) (nNewSize : Nat) (bAlloc : Bool) :
    (s.setSize nNewSize bAlloc).2.lpItems = s.lpItems := by
  unfold setSize
  split
  · split <;> rfl
  · rfl

theorem setSize_fits {s : ArrayList α nGranularity} {nNewSize : Nat} {bAlloc : Bool}
    (h : (s.setSize nNewSize bAlloc).1 = true) : nNewSize ≤ (s.setSize nNewSize bAlloc).2.nSize := by
  unfold setSize at h ⊢
  by_cases hgrow : nNewSize > s.nSize
  · rw [dif_pos hgrow] at h ⊢
    cases bAlloc with
    | false => cases h
    | true => exact s.le_grownSize nNewSize
  · rw [dif_neg hgrow]
    exact Nat.not_lt.mp hgrow

theorem setSize_false {s : ArrayList α nGranularity} {nNewSize : Nat} {bAlloc : Bool}
    (h : (s.setSize nNewSize bAlloc).1 = false) : bAlloc = false := by
  unfold setSize at h
  split at h
  · cases bAlloc with
    | false => rfl
    | true => cases h
  · cases h

/-! ### Insertion and removal -/

/-- `InsertElementAt` -/
def insertElementAt (s : ArrayList α nGranularity) (elem : α) (nIndex : Nat) (bAlloc : Bool) :
    Bool × ArrayList α nGranularity :=
  let nIndex := if nIndex ≥ s.nCount then s.nCount else nIndex
  if h : (s.setSize (s.nCount + 1) bAlloc).1 = true then
    (true, {
      lpItems := s.lpItems.take nIndex ++ elem :: s.lpItems.drop nIndex
      nSize := (s.setSize (s.nCount + 1) bAlloc).2.nSize
      fits := by
        have hroom : s.lpItems.length + 1 ≤ (s.setSize (s.nCount + 1) bAlloc).2.nSize :=
          setSize_fits h
        rw [List.length_append, List.length_cons, List.length_take, List.length_drop]
        omega })
  else (false, s)

/-- The loop of `SortedInsert`: `nLow` at its end. -/
def lowFrom (comp : α → Int) (lpItems : List α) : Nat → Nat → Nat → Option Nat
  | 0, nLow, _ => some nLow
  | fuel + 1, nLow, nHigh =>
    if nLow < nHigh then
      match lpItems[nLow + ((nHigh - nLow) >>> 1)]? with
      | none => none
      | some item =>
        if comp item > 0 then lowFrom comp lpItems fuel (nLow + ((nHigh - nLow) >>> 1) + 1) nHigh
        else lowFrom comp lpItems fuel nLow (nLow + ((nHigh - nLow) >>> 1))
    else some nLow

/-- `SortedInsert`: its result, `*lpbAlreadyOnList` and the array. -/
def sortedInsert (s : ArrayList α nGranularity) (elem : α) (lpCompareFunc : α → α → Int)
    (bDontInsertDuplicates bAlloc : Bool) : Option (Bool × Bool × ArrayList α nGranularity) :=
  match lowFrom (lpCompareFunc elem) s.lpItems s.nCount 0 s.nCount with
  | none => none
  | some nLow =>
    let found := match s.lpItems[nLow]? with
      | none => false
      | some item => lpCompareFunc elem item == 0
    if bDontInsertDuplicates && found then some (true, true, s)
    else
      let (bRet, s') := s.insertElementAt elem nLow bAlloc
      some (bRet, false, s')

/-- `RemoveElementAt` -/
def removeElementAt (s : ArrayList α nGranularity) (nIndex nItemsCount : Nat) :
    Bool × ArrayList α nGranularity :=
  if nIndex ≥ s.nCount ∨ nItemsCount = 0 ∨ (nIndex + nItemsCount) % 2 ^ 64 < nIndex then (false, s)
  else
    let nItemsCount := if nIndex + nItemsCount > s.nCount then s.nCount - nIndex else nItemsCount
    (true, { s with
      lpItems := s.lpItems.take nIndex ++ s.lpItems.drop (nIndex + nItemsCount)
      fits := by
        have hfits := s.fits
        rw [List.length_append, List.length_take, List.length_drop]
        omega })

/-- The loop of `BinarySearch`: the index, or `none` for `(SIZE_T)-1`. -/
def searchFrom (comp : α → Int) (lpItems : List α) : Nat → Nat → Nat → Option (Option Nat)
  | 0, _, _ => some none
  | fuel + 1, nBase, n =>
    if n > 0 then
      match lpItems[nBase + (n >>> 1)]? with
      | none => none
      | some item =>
        if comp item = 0 then some (some (nBase + (n >>> 1)))
        else if comp item > 0 then
          searchFrom comp lpItems fuel (nBase + (n >>> 1) + 1) ((n - 1) >>> 1)
        else searchFrom comp lpItems fuel nBase (n >>> 1)
    else some none

/-- `BinarySearch(_key, lpSearchFunc)` -/
def binarySearch (s : ArrayList α nGranularity) (key : κ) (lpSearchFunc : κ → α → Int) :
    Option (Option Nat) :=
  searchFrom (lpSearchFunc key) s.lpItems s.nCount 0 s.nCount

/-! ### Reads stay inside -/

theorem lowFrom_isSome {comp : α → Int} {lpItems : List α} {fuel : Nat} :
    ∀ {nLow nHigh : Nat}, nHigh ≤ lpItems.length →
      (lowFrom comp lpItems fuel nLow nHigh).isSome = true := by
  induction fuel with
  | zero => intro nLow nHigh _; rfl
  | succ fuel ih =>
    intro nLow nHigh hend
    rw [lowFrom]
    by_cases hlt : nLow < nHigh
    · have hshift : (nHigh - nLow) >>> 1 = (nHigh - nLow) / 2 := Nat.shiftRight_eq_div_pow _ 1
      have hmid : nLow + (nHigh - nLow) >>> 1 < lpItems.length := by omega
      rw [if_pos hlt, List.getElem?_eq_getElem hmid]
      simp only
      split
      · exact ih hend
      · exact ih (Nat.le_of_lt hmid)
    · rw [if_neg hlt]
      rfl

/-- An item that is found is one of the items. -/
theorem searchFrom_lt {comp : α → Int} {lpItems : List α} {fuel : Nat} :
    ∀ {nBase n : Nat}, nBase + n ≤ lpItems.length →
      ∃ r, searchFrom comp lpItems fuel nBase n = some r ∧
        ∀ i, r = some i → i < lpItems.length := by
  induction fuel with
  | zero => intro nBase n _; exact ⟨none, rfl, nofun⟩
  | succ fuel ih =>
    intro nBase n hend
    rw [searchFrom]
    by_cases hpos : n > 0
    · have hshift : n >>> 1 = n / 2 := Nat.shiftRight_eq_div_pow n 1
      have hhalf : (n - 1) >>> 1 = (n - 1) / 2 := Nat.shiftRight_eq_div_pow _ 1
      have hmid : nBase + n >>> 1 < lpItems.length := by omega
      rw [if_pos hpos, List.getElem?_eq_getElem hmid]
      simp only
      split
      · exact ⟨_, rfl, fun i hi => Option.some.inj hi ▸ hmid⟩
      · split
        · exact ih (by omega)
        · exact ih (by omega)
    · rw [if_neg hpos]
      exact ⟨none, rfl, nofun⟩

omit [NeZero nGranularity] in
theorem binarySearch_lt (s : ArrayList α nGranularity) (key : κ) (lpSearchFunc : κ → α → Int) :
    ∃ r, s.binarySearch key lpSearchFunc = some r ∧ ∀ i, r = some i → i < s.lpItems.length :=
  searchFrom_lt (Nat.le_of_eq (Nat.zero_add _))

omit [NeZero nGranularity] in
theorem binarySearch_isSome (s : ArrayList α nGranularity) (key : κ)
    (lpSearchFunc : κ → α → Int) : (s.binarySearch key lpSearchFunc).isSome = true := by
  obtain ⟨r, hr, -⟩ := s.binarySearch_lt key lpSearchFunc
  rw [hr]
  rfl

/-- Where duplicates may be put in, an element always is. -/
theorem sortedInsert_false (s : ArrayList α nGranularity) (elem : α)
    (lpCompareFunc : α → α → Int) (bAlloc : Bool) :
    ∃ nLow, s.sortedInsert elem lpCompareFunc false bAlloc =
      some ((s.insertElementAt elem nLow bAlloc).1, false,
        (s.insertElementAt elem nLow bAlloc).2) := by
  obtain ⟨nLow, hlow⟩ := Option.isSome_iff_exists.mp
    (@lowFrom_isSome _ (lpCompareFunc elem) s.lpItems s.nCount 0 _
      (Nat.le_refl s.lpItems.length))
  refine ⟨nLow, ?_⟩
  unfold sortedInsert
  rw [show lowFrom (lpCompareFunc elem) s.lpItems s.nCount 0 s.nCount = some nLow from hlow]
  rfl

theorem sortedInsert_isSome (s : ArrayList α nGranularity) (elem : α)
    (lpCompareFunc : α → α → Int) (bAlloc : Bool) :
    (s.sortedInsert elem lpCompareFunc false bAlloc).isSome = true := by
  obtain ⟨nLow, hinsert⟩ := s.sortedInsert_false elem lpCompareFunc bAlloc
  rw [hinsert]
  rfl

theorem setSize_iff (s : ArrayList α nGranularity) (nNewSize : Nat) (bAlloc : Bool) :
    (s.setSize nNewSize bAlloc).1 = true ↔ nNewSize ≤ s.nSize ∨ bAlloc = true := by
  unfold setSize
  by_cases hgrow : nNewSize > s.nSize
  · rw [dif_pos hgrow]
    cases bAlloc with
    | false => simpa using hgrow
    | true => simp
  · rw [dif_neg hgrow]
    simp
    omega

/-- An element is put in when there is room for it or memory for more. -/
theorem insertElementAt_cases (s : ArrayList α nGranularity) (elem : α) (nIndex : Nat)
    (bAlloc : Bool) :
    ((s.nCount < s.nSize ∨ bAlloc = true) ∧
      ∃ s', s.insertElementAt elem nIndex bAlloc = (true, s') ∧
        s'.lpItems.length = s.lpItems.length + 1) ∨
    (¬ (s.nCount < s.nSize ∨ bAlloc = true) ∧
      s.insertElementAt elem nIndex bAlloc = (false, s)) := by
  unfold insertElementAt
  by_cases hsize : (s.setSize (s.nCount + 1) bAlloc).1 = true
  · refine .inl ⟨(s.setSize_iff _ _).mp hsize, _, dif_pos hsize, ?_⟩
    simp only [List.length_append, List.length_take, List.length_cons, List.length_drop]
    omega
  · exact .inr ⟨fun hroom => hsize ((s.setSize_iff _ _).mpr hroom), dif_neg hsize⟩

/-! ### Comparators -/

/-- The comparator is a total preorder: its sign says which of two items comes first. -/
structure TotalPreorder (cmp : α → α → Int) : Prop where
  swap : ∀ x y, 0 < cmp x y ↔ cmp y x < 0
  trans : ∀ x y z, cmp x y ≤ 0 → cmp y z ≤ 0 → cmp x z ≤ 0

/-- A search function that goes with the comparator: along the order the key comes after the items,
then it is equal to them, then it comes before them. -/
structure GoesWith (cmp : α → α → Int) (comp : α → Int) : Prop where
  after : ∀ x y, cmp x y ≤ 0 → 0 < comp y → 0 < comp x
  before : ∀ x y, cmp x y ≤ 0 → comp x < 0 → comp y < 0

/-- The comparator with an item in front goes with itself. -/
theorem TotalPreorder.goesWith {cmp : α → α → Int} (h : TotalPreorder cmp) (elem : α) :
    GoesWith cmp (cmp elem) where
  after := by
    intro x y hxy hy
    by_contra hx
    exact absurd (h.trans elem x y (Int.not_lt.mp hx) hxy) (Int.not_le.mpr hy)
  before := by
    intro x y hxy hx
    by_contra hy
    have hyx : cmp y elem ≤ 0 := by
      by_contra hlt
      exact hy ((h.swap y elem).mp (Int.not_le.mp hlt))
    exact absurd (h.trans x y elem hxy hyx) (Int.not_le.mpr ((h.swap x elem).mpr hx))

/-- Every item comes before those behind it, or is equal to them. -/
def Sorted (cmp : α → α → Int) (lpItems : List α) : Prop := lpItems.Pairwise fun x y => cmp x y ≤ 0

/-! ### The loop of the insertion -/

/-- The key comes after the items in front of the place, and not after the others. -/
def Splits (comp : α → Int) (lpItems : List α) (nLow nHigh : Nat) : Prop :=
  (∀ i x, i < nLow → lpItems[i]? = some x → 0 < comp x) ∧
    ∀ i x, nHigh ≤ i → lpItems[i]? = some x → comp x ≤ 0

variable {cmp : α → α → Int} {comp : α → Int} {lpItems : List α}

theorem Sorted.le (h : Sorted cmp lpItems) {i j : Nat} {x y : α} (hij : i < j)
    (hx : lpItems[i]? = some x) (hy : lpItems[j]? = some y) : cmp x y ≤ 0 := by
  obtain ⟨hi, rfl⟩ := List.getElem?_eq_some_iff.mp hx
  obtain ⟨hj, rfl⟩ := List.getElem?_eq_some_iff.mp hy
  exact List.pairwise_iff_getElem.mp h i j hi hj hij

/-- **The halving between two ends finds the place**, and reads no item behind the last one. -/
theorem lowFrom_spec (hsorted : Sorted cmp lpItems) (hcomp : GoesWith cmp comp)
    {fuel nLow nHigh : Nat} (hle : nLow ≤ nHigh) (hend : nHigh ≤ lpItems.length)
    (hfuel : nHigh - nLow ≤ fuel) (hsplit : Splits comp lpItems nLow nHigh) :
    ∃ k, lowFrom comp lpItems fuel nLow nHigh = some k ∧ k ≤ lpItems.length ∧
      Splits comp lpItems k k := by
  induction fuel generalizing nLow nHigh with
  | zero =>
    obtain rfl : nLow = nHigh := by omega
    exact ⟨nLow, rfl, hend, hsplit⟩
  | succ fuel ih =>
    rw [lowFrom]
    split
    case isFalse hdone =>
      obtain rfl : nLow = nHigh := by omega
      exact ⟨nLow, rfl, hend, hsplit⟩
    case isTrue hlt =>
      have hshift : (nHigh - nLow) >>> 1 = (nHigh - nLow) / 2 := Nat.shiftRight_eq_div_pow _ 1
      have hmid : nLow + (nHigh - nLow) >>> 1 < lpItems.length := by omega
      obtain ⟨x, hx⟩ : ∃ x, lpItems[nLow + (nHigh - nLow) >>> 1]? = some x :=
        ⟨_, List.getElem?_eq_getElem hmid⟩
      rw [hx]
      simp only
      split
      case isTrue hpos =>
        refine ih (by omega) hend (by omega) ⟨fun i y hi hy => ?_, hsplit.2⟩
        rcases Nat.lt_or_eq_of_le (Nat.le_of_lt_succ hi) with hi | rfl
        · exact hcomp.after y x (hsorted.le hi hy hx) hpos
        · obtain rfl := Option.some.inj (hx.symm.trans hy)
          exact hpos
      case isFalse hpos =>
        refine ih (by omega) (by omega) (by omega) ⟨hsplit.1, fun i y hi hy => ?_⟩
        rcases Nat.lt_or_eq_of_le hi with hi | rfl
        · by_contra hlt'
          exact hpos (hcomp.after x y (hsorted.le hi hx hy) (Int.not_le.mp hlt'))
        · obtain rfl := Option.some.inj (hx.symm.trans hy)
          exact Int.not_lt.mp hpos

theorem Splits.take {k : Nat} (h : Splits comp lpItems k k) : ∀ x ∈ lpItems.take k, 0 < comp x := by
  intro x hx
  obtain ⟨i, hi⟩ := List.mem_iff_getElem?.mp hx
  rw [List.getElem?_take] at hi
  split at hi
  · exact h.1 i x ‹_› hi
  · cases hi

theorem Splits.drop {k : Nat} (h : Splits comp lpItems k k) : ∀ x ∈ lpItems.drop k, comp x ≤ 0 := by
  intro x hx
  obtain ⟨i, hi⟩ := List.mem_iff_getElem?.mp hx
  rw [List.getElem?_drop] at hi
  exact h.2 (k + i) x (Nat.le_add_right k i) hi

/-- The item at the place is equal to the key if any is. -/
theorem Splits.found {k : Nat} (hsorted : Sorted cmp lpItems) (hcomp : GoesWith cmp comp)
    (h : Splits comp lpItems k k) :
    (∃ x, lpItems[k]? = some x ∧ comp x = 0) ↔ ∃ x ∈ lpItems, comp x = 0 := by
  constructor
  · rintro ⟨x, hx, hzero⟩
    exact ⟨x, List.mem_of_getElem? hx, hzero⟩
  · rintro ⟨y, hy, hzero⟩
    obtain ⟨j, hj⟩ := List.mem_iff_getElem?.mp hy
    rcases Nat.lt_trichotomy j k with hlt | rfl | hgt
    · have hpos := h.1 j y hlt hj
      omega
    · exact ⟨y, hj, hzero⟩
    · have hk : k < lpItems.length :=
        Nat.lt_trans hgt (List.getElem?_eq_some_iff.mp hj).1
      refine ⟨_, List.getElem?_eq_getElem hk, ?_⟩
      have hle := h.2 k _ (Nat.le_refl k) (List.getElem?_eq_getElem hk)
      by_contra hne
      have hneg := hcomp.before _ y (hsorted.le hgt (List.getElem?_eq_getElem hk) hj) (by omega)
      omega

/-! ### What the calls do -/

/-- **What `SortedInsert` does to a sorted array**: with duplicates refused it leaves the array as
it is if an equal item is there, and reports it; else the element is put in before the items equal
to it, unless the allocation fails. -/
def InsertsInOrder (cmp : α → α → Int) (s : ArrayList α nGranularity) : Prop :=
  ∀ elem bDontInsertDuplicates bAlloc, ∃ bRet bAlreadyOnList s',
    s.sortedInsert elem cmp bDontInsertDuplicates bAlloc = some (bRet, bAlreadyOnList, s') ∧
      (bAlreadyOnList = true ↔ bDontInsertDuplicates = true ∧ ∃ x ∈ s.lpItems, cmp elem x = 0) ∧
      (bAlreadyOnList = true → bRet = true ∧ s' = s) ∧
      (bAlreadyOnList = false → bRet = true → ∃ l r, s.lpItems = l ++ r ∧
        s'.lpItems = l ++ elem :: r ∧ (∀ x ∈ l, 0 < cmp elem x) ∧ ∀ x ∈ r, cmp elem x ≤ 0) ∧
      (bRet = false → bAlloc = false ∧ s' = s)

/-- **What `BinarySearch` gives on a sorted array**: the index of an item equal to the key, if
there is one. -/
def SearchesInOrder (cmp : α → α → Int) (s : ArrayList α nGranularity) : Prop :=
  ∀ {κ : Type} (key : κ) (lpSearchFunc : κ → α → Int), GoesWith cmp (lpSearchFunc key) →
    ∃ r, s.binarySearch key lpSearchFunc = some r ∧
      (∀ i, r = some i → ∃ x, s.lpItems[i]? = some x ∧ lpSearchFunc key x = 0) ∧
      (r = none → ∀ x ∈ s.lpItems, lpSearchFunc key x ≠ 0)

theorem insertElementAt_spec (s : ArrayList α nGranularity) (elem : α) {k : Nat}
    (hk : k ≤ s.lpItems.length) (bAlloc : Bool) :
    (∃ s', s.insertElementAt elem k bAlloc = (true, s') ∧
      s'.lpItems = s.lpItems.take k ++ elem :: s.lpItems.drop k) ∨
    (s.insertElementAt elem k bAlloc = (false, s) ∧ bAlloc = false) := by
  have hindex : (if k ≥ s.nCount then s.nCount else k) = k := by
    unfold nCount
    split <;> omega
  unfold insertElementAt
  simp only [hindex]
  split
  case isTrue h => exact .inl ⟨_, rfl, rfl⟩
  case isFalse h => exact .inr ⟨rfl, setSize_false (by simpa using h)⟩

theorem insertsInOrder (hcmp : TotalPreorder cmp) {s : ArrayList α nGranularity}
    (hsorted : Sorted cmp s.lpItems) : InsertsInOrder cmp s := by
  intro elem bDont bAlloc
  have hnil : Splits (cmp elem) s.lpItems 0 s.nCount := by
    refine ⟨fun i x hi => absurd hi (Nat.not_lt_zero i), fun i x hi hx => ?_⟩
    rw [List.getElem?_eq_none hi] at hx
    cases hx
  obtain ⟨k, hlow, hk, hsplit⟩ : ∃ k, lowFrom (cmp elem) s.lpItems s.nCount 0 s.nCount = some k ∧
      k ≤ s.lpItems.length ∧ Splits (cmp elem) s.lpItems k k :=
    lowFrom_spec hsorted (hcmp.goesWith elem) (Nat.zero_le _) (Nat.le_refl _) (Nat.le_refl _) hnil
  have hfound := hsplit.found hsorted (hcmp.goesWith elem)
  unfold sortedInsert
  rw [hlow]
  simp only
  by_cases hexists : ∃ x ∈ s.lpItems, cmp elem x = 0
  · obtain ⟨x, hx, hzero⟩ := hfound.mpr hexists
    rw [hx]
    simp only [hzero, beq_self_eq_true, Bool.and_true]
    cases bDont with
    | true =>
      exact ⟨true, true, s, rfl, ⟨fun _ => ⟨rfl, hexists⟩, fun _ => rfl⟩, fun _ => ⟨rfl, rfl⟩, nofun,
        nofun⟩
    | false =>
      rcases insertElementAt_spec s elem hk bAlloc with ⟨s', hput, hitems⟩ | ⟨hfail, halloc⟩
      · exact ⟨true, false, s', by rw [hput]; rfl, ⟨nofun, fun h => nomatch h.1⟩, nofun,
          fun _ _ => ⟨_, _, (List.take_append_drop k _).symm, hitems, hsplit.take, hsplit.drop⟩,
          nofun⟩
      · exact ⟨false, false, s, by rw [hfail]; rfl, ⟨nofun, fun h => nomatch h.1⟩, nofun, nofun,
          fun _ => ⟨halloc, rfl⟩⟩
  · have hmiss : (match s.lpItems[k]? with
        | none => false
        | some item => cmp elem item == 0) = false := by
      cases hx : s.lpItems[k]? with
      | none => rfl
      | some x =>
        refine beq_eq_false_iff_ne.mpr fun hzero => ?_
        exact hexists (hfound.mp ⟨x, hx, hzero⟩)
    rw [hmiss, Bool.and_false, if_neg (by decide)]
    rcases insertElementAt_spec s elem hk bAlloc with ⟨s', hput, hitems⟩ | ⟨hfail, halloc⟩
    · exact ⟨true, false, s', by rw [hput], ⟨nofun, fun h => absurd h.2 hexists⟩, nofun,
        fun _ _ => ⟨_, _, (List.take_append_drop k _).symm, hitems, hsplit.take, hsplit.drop⟩,
        nofun⟩
    · exact ⟨false, false, s, by rw [hfail], ⟨nofun, fun h => absurd h.2 hexists⟩, nofun, nofun,
        fun _ => ⟨halloc, rfl⟩⟩

/-- **The halving of a length finds an item that is equal to the key**, if it is among those that
are left; no item behind the last one is read. -/
theorem searchFrom_spec (hsorted : Sorted cmp lpItems) (hcomp : GoesWith cmp comp)
    {fuel nBase n : Nat} (hend : nBase + n ≤ lpItems.length) (hfuel : n ≤ fuel) :
    ∃ r, searchFrom comp lpItems fuel nBase n = some r ∧
      (∀ i, r = some i → ∃ x, lpItems[i]? = some x ∧ comp x = 0) ∧
      (r = none → ∀ i x, nBase ≤ i → i < nBase + n → lpItems[i]? = some x → comp x ≠ 0) := by
  induction fuel generalizing nBase n with
  | zero => exact ⟨none, rfl, nofun, fun _ i x hlo hhi => by omega⟩
  | succ fuel ih =>
    rw [searchFrom]
    split
    case isFalse hdone => exact ⟨none, rfl, nofun, fun _ i x hlo hhi => by omega⟩
    case isTrue hpos =>
      have hshift : n >>> 1 = n / 2 := Nat.shiftRight_eq_div_pow n 1
      have hhalf : (n - 1) >>> 1 = (n - 1) / 2 := Nat.shiftRight_eq_div_pow _ 1
      have hmid : nBase + n >>> 1 < lpItems.length := by omega
      obtain ⟨x, hx⟩ : ∃ x, lpItems[nBase + n >>> 1]? = some x :=
        ⟨_, List.getElem?_eq_getElem hmid⟩
      rw [hx]
      simp only
      split
      case isTrue hzero =>
        refine ⟨_, rfl, ?_, nofun⟩
        intro i hi
        obtain rfl := Option.some.inj hi
        exact ⟨x, hx, hzero⟩
      case isFalse hne =>
        split
        case isTrue hgt =>
          obtain ⟨r, hr, hfound, hmissing⟩ :=
            @ih (nBase + n >>> 1 + 1) ((n - 1) >>> 1) (by omega) (by omega)
          refine ⟨r, hr, hfound, fun hnone i y hlo hhi hy => ?_⟩
          rcases Nat.lt_trichotomy i (nBase + n >>> 1) with hi | rfl | hi
          · have hy' := hcomp.after y x (hsorted.le hi hy hx) hgt
            omega
          · obtain rfl := Option.some.inj (hx.symm.trans hy)
            exact hne
          · exact hmissing hnone i y hi (by omega) hy
        case isFalse hlt =>
          obtain ⟨r, hr, hfound, hmissing⟩ := @ih nBase (n >>> 1) (by omega) (by omega)
          refine ⟨r, hr, hfound, fun hnone i y hlo hhi hy => ?_⟩
          rcases Nat.lt_trichotomy i (nBase + n >>> 1) with hi | rfl | hi
          · exact hmissing hnone i y hlo hi hy
          · obtain rfl := Option.some.inj (hx.symm.trans hy)
            exact hne
          · have hy' := hcomp.before x y (hsorted.le hi hx hy) (by omega)
            omega

omit [NeZero nGranularity] in
theorem searchesInOrder {s : ArrayList α nGranularity} (hsorted : Sorted cmp s.lpItems) :
    SearchesInOrder cmp s := by
  intro κ key lpSearchFunc hcomp
  obtain ⟨r, hr, hfound, hmissing⟩ :=
    @searchFrom_spec _ cmp _ s.lpItems hsorted hcomp s.nCount 0 s.nCount
      (Nat.le_of_eq (Nat.zero_add _)) (Nat.le_refl _)
  refine ⟨r, hr, hfound, fun hnone x hx => ?_⟩
  obtain ⟨i, hi⟩ := List.mem_iff_getElem?.mp hx
  refine hmissing hnone i x (Nat.zero_le i) ?_ hi
  rw [Nat.zero_add]
  exact (List.getElem?_eq_some_iff.mp hi).1

/-! ### Runs -/

/-- The calls that keep an array sorted. -/
inductive Call (α : Type*)
  | sortedInsert (elem : α) (bDontInsertDuplicates bAlloc : Bool)
  | removeElementAt (nIndex nItemsCount : Nat)

/-- A call; `none` stands for a read outside the array. -/
def call (cmp : α → α → Int) (s : ArrayList α nGranularity) :
    Call α → Option (ArrayList α nGranularity)
  | .sortedInsert elem bDontInsertDuplicates bAlloc =>
    (s.sortedInsert elem cmp bDontInsertDuplicates bAlloc).map fun r => r.2.2
  | .removeElementAt nIndex nItemsCount => some (s.removeElementAt nIndex nItemsCount).2

/-- The calls one after the other, from an empty array. -/
def run (cmp : α → α → Int) (calls : List (Call α)) : Option (ArrayList α nGranularity) :=
  calls.foldlM (call cmp) empty

theorem Sorted.insert (hcmp : TotalPreorder cmp) {elem : α} {l r : List α} (h : Sorted cmp (l ++ r))
    (hl : ∀ x ∈ l, 0 < cmp elem x) (hr : ∀ x ∈ r, cmp elem x ≤ 0) : Sorted cmp (l ++ elem :: r) := by
  obtain ⟨hsortedL, hsortedR, hcross⟩ := List.pairwise_append.mp h
  refine List.pairwise_append.mpr ⟨hsortedL, List.pairwise_cons.mpr ⟨hr, hsortedR⟩, ?_⟩
  intro x hx y hy
  rcases List.mem_cons.mp hy with rfl | hy
  · exact Int.le_of_lt ((hcmp.swap y x).mp (hl x hx))
  · exact hcross x hx y hy

omit [NeZero nGranularity] in
theorem removeElementAt_sublist (s : ArrayList α nGranularity) (nIndex nItemsCount : Nat) :
    (s.removeElementAt nIndex nItemsCount).2.lpItems.Sublist s.lpItems := by
  unfold removeElementAt
  split
  · exact List.Sublist.refl _
  · have hdrop : ∀ n, (s.lpItems.take nIndex ++ s.lpItems.drop (nIndex + n)).Sublist s.lpItems := by
      intro n
      have hsub := (List.drop_sublist_drop_left s.lpItems (Nat.le_add_right nIndex n)).append_left
        (s.lpItems.take nIndex)
      rwa [List.take_append_drop] at hsub
    exact hdrop _

/-- A call on a sorted array reads its items only, and leaves it sorted. -/
theorem call_sorted (hcmp : TotalPreorder cmp) {s : ArrayList α nGranularity}
    (hsorted : Sorted cmp s.lpItems) (c : Call α) :
    ∃ s', call cmp s c = some s' ∧ Sorted cmp s'.lpItems := by
  cases c with
  | sortedInsert elem bDont bAlloc =>
    obtain ⟨bRet, bAlready, s', hcall, -, hthere, hput, hfail⟩ :=
      insertsInOrder hcmp hsorted elem bDont bAlloc
    refine ⟨s', by rw [call, hcall]; rfl, ?_⟩
    cases bAlready with
    | true =>
      rw [(hthere rfl).2]
      exact hsorted
    | false =>
      cases bRet with
      | false =>
        rw [(hfail rfl).2]
        exact hsorted
      | true =>
        obtain ⟨l, r, hitems, hitems', hl, hr⟩ := hput rfl rfl
        rw [hitems] at hsorted
        rw [hitems']
        exact hsorted.insert hcmp hl hr
  | removeElementAt nIndex nItemsCount =>
    exact ⟨_, rfl, List.Pairwise.sublist (removeElementAt_sublist s nIndex nItemsCount) hsorted⟩

/-- **Sorted arrays stay sorted**: after any calls the array is sorted, an insertion puts the
element where it belongs, and a search finds what is there. -/
theorem run_sorted (hcmp : TotalPreorder cmp) (calls : List (Call α)) :
    ∃ s : ArrayList α nGranularity, run cmp calls = some s ∧ Sorted cmp s.lpItems ∧
      InsertsInOrder cmp s ∧ SearchesInOrder cmp s := by
  have hrun : ∀ s : ArrayList α nGranularity, Sorted cmp s.lpItems →
      ∃ s', calls.foldlM (call cmp) s = some s' ∧ Sorted cmp s'.lpItems := by
    induction calls with
    | nil => exact fun s hs => ⟨s, rfl, hs⟩
    | cons c calls ih =>
      intro s hs
      obtain ⟨s₁, hcall, hs₁⟩ := call_sorted hcmp hs c
      obtain ⟨s', hcalls, hs'⟩ := ih s₁ hs₁
      refine ⟨s', ?_, hs'⟩
      rw [List.foldlM_cons, hcall]
      exact hcalls
  obtain ⟨s, hs, hsorted⟩ := hrun empty List.Pairwise.nil
  exact ⟨s, hs, hsorted, insertsInOrder hcmp hsorted, searchesInOrder hsorted⟩

/-- Three numbers are put in and one is taken out. -/
theorem run_sorted_numbers :
    TotalPreorder (fun x y : Int => x - y) ∧
    ∃ s : ArrayList Int 32, run (fun x y => x - y)
        [.sortedInsert 3 false true, .sortedInsert 1 false true, .sortedInsert 3 true true,
          .removeElementAt 0 1] = some s ∧
      Sorted (fun x y => x - y) s.lpItems ∧ InsertsInOrder (fun x y => x - y) s ∧
        SearchesInOrder (fun x y => x - y) s := by
  have hcmp : TotalPreorder (fun x y : Int => x - y) :=
    ⟨fun x y => by omega, fun x y z => by omega⟩
  exact ⟨hcmp, run_sorted hcmp _⟩

end ArrayList

end MxLib
