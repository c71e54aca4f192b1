import MxLib.Http.HttpHeaderReqAccept
import MxLib.Http.HttpHeaderRespCacheControl
import MxLib.Library.KeyedLists

/-!
# Merging headers

`Merge` puts the items of a header over those of another one.  Where both have an item, the
parameters should be put over each other too.  An old parameter is removed at the index of the
item, though, and not at its own: what is merged is right just where the two are the same
(`mergesRight_iff`).

The extensions of Cache-Control have values, not parameters.  The old one is removed and the new one
added, and the count of the old list goes up all the same, so that the next one is looked for behind
the end, if the list does not have it (`mergesExtensions_iff`).

An extension is what the getters read of its record here.  A header has records of its own, so what
is read of the record that is made of an extension is a function of it, `stored`.

Names are compared without their case, by their `foldName`.
-/

namespace MxLib.Http.Merge

open MxLib.Library.KeyedLists

/-! ### The loops -/

/-- The loop that looks for an element among the first `nCount`; `none` stands for a read behind the
end of the list. -/
def searchFor {α : Type} (isMatch : α → Bool) : Nat → List α → Option (Option Nat)
  | 0, _ => some none
  | _ + 1, [] => none
  | nCount + 1, x :: l =>
    if isMatch x then some (some 0) else (searchFor isMatch nCount l).map (·.map (· + 1))

/-- The loop over the parameters of an item: what it does with one of them.  The count is the one
from before the loop. -/
def mergeParam (nThisIndex nThisParamsCount : Nat) (aParamsList : ParamsList)
    (lpParam : List Byte × List WChar) : Option ParamsList :=
  (searchFor (fun lpThisParam => strCompareA lpParam.1 lpThisParam.1 true) nThisParamsCount
    aParamsList).map fun nThisParamsIndex =>
      (if nThisParamsIndex.isSome then aParamsList.eraseIdx nThisIndex else aParamsList) ++
        [lpParam]

/-- The parameters of an item, put over those of the item at `nThisIndex`. -/
def mergeParams (nThisIndex : Nat) (aThisParamsList aParamsList : ParamsList) :
    Option ParamsList :=
  aParamsList.foldlM (mergeParam nThisIndex aThisParamsList.length) aThisParamsList

/-- What `Merge` of a class has to do with its items. -/
structure MergeClass (I : Type) where
  szNameA : I → List Byte
  aParamsList : I → ParamsList
  setParams : I → ParamsList → I
  takeMatch : I → I → I
  aParamsList_setParams : ∀ i l, aParamsList (setParams i l) = l
  szNameA_setParams : ∀ i l, szNameA (setParams i l) = szNameA i
  szNameA_takeMatch : ∀ i j, szNameA (takeMatch i j) = szNameA i

/-- The types of `CHttpHeaderReqAccept`; a match takes the weight of the other type. -/
def acceptMerge : MergeClass AcceptType where
  szNameA := AcceptType.cStrTypeA
  aParamsList := AcceptType.aParamsList
  setParams t aParamsList := { t with aParamsList }
  takeMatch lpThisType lpType := { lpThisType with q := lpType.q }
  aParamsList_setParams _ _ := rfl
  szNameA_setParams _ _ := rfl
  szNameA_takeMatch _ _ := rfl

/-- The extensions of `CHttpHeaderGenSecWebSocketExtensions`. -/
def extensionMerge : MergeClass Extension where
  szNameA := Extension.cStrExtensionA
  aParamsList := Extension.aParamsList
  setParams e aParamsList := { e with aParamsList }
  takeMatch lpThisExtension _ := lpThisExtension
  aParamsList_setParams _ _ := rfl
  szNameA_setParams _ _ := rfl
  szNameA_takeMatch _ _ := rfl

section Items

variable {I : Type} (C : MergeClass I)

/-- The loop over the items: what it does with one of them. -/
def mergeItem (s : List I × Nat) (lpItem : I) : Option (List I × Nat) :=
  match searchFor (fun lpThisItem => strCompareA (C.szNameA lpItem) (C.szNameA lpThisItem) true)
      s.2 s.1 with
  | none => none
  | some none => some (s.1 ++ [lpItem], s.2 + 1)
  | some (some nThisIndex) =>
    match s.1[nThisIndex]? with
    | none => none
    | some lpThisItem =>
      (mergeParams nThisIndex (C.aParamsList lpThisItem) (C.aParamsList lpItem)).map fun l =>
        (s.1.set nThisIndex (C.setParams (C.takeMatch lpThisItem lpItem) l), s.2)

/-- `Merge` of a class with parameters. -/
def mergeItems (aThisList aList : List I) : Option (List I) :=
  (aList.foldlM (mergeItem C) (aThisList, aThisList.length)).map (·.1)

end Items

/-- The loop over the fields of a directive: what it does with one of them. -/
def mergeField (s : List (List Byte) × Nat) (szFieldA : List Byte) :
    Option (List (List Byte) × Nat) :=
  (searchFor (fun szThisFieldA => strCompareA szFieldA szThisFieldA true) s.2 s.1).map
    fun nThisIndex => if nThisIndex.isSome then s else (s.1 ++ [szFieldA], s.2 + 1)

/-- The fields of a directive, if the other header has the directive. -/
def mergeFields (bMerge : Bool) (cThisFieldsList cFieldsList : List (List Byte)) :
    Option (List (List Byte)) :=
  if bMerge then
    (cFieldsList.foldlM mergeField (cThisFieldsList, cThisFieldsList.length)).map (·.1)
  else some cThisFieldsList

section CacheControl

-- what the getters read of the record that is made of an extension
variable (stored : List Byte × List WChar → List Byte × List WChar)

/-- The loop over the extensions of Cache-Control: what it does with one of them. -/
def mergeExtension (s : List (List Byte × List WChar) × Nat)
    (lpExtension : List Byte × List WChar) : Option (List (List Byte × List WChar) × Nat) :=
  (searchFor (fun lpThisExtension => strCompareA lpExtension.1 lpThisExtension.1 true) s.2 s.1).map
    fun nThisIndex =>
      ((match nThisIndex with
        | some nThisIndex => s.1.eraseIdx nThisIndex
        | none => s.1) ++ [stored lpExtension], s.2 + 1)

/-- The extensions of Cache-Control. -/
def mergeExtensions (aThisExtensionsList aExtensionsList : List (List Byte × List WChar)) :
    Option (List (List Byte × List WChar)) :=
  (aExtensionsList.foldlM (mergeExtension stored)
    (aThisExtensionsList, aThisExtensionsList.length)).map (·.1)

/-- `CHttpHeaderRespCacheControl::Merge` -/
def mergeCacheControl (h lpHeader : RespCacheControl.Header) : Option RespCacheControl.Header := do
  let cPrivateFieldsList ←
    mergeFields lpHeader.bPrivate h.cPrivateFieldsList lpHeader.cPrivateFieldsList
  let cNoCacheFieldsList ←
    mergeFields lpHeader.bNoCache h.cNoCacheFieldsList lpHeader.cNoCacheFieldsList
  let aExtensionsList ← mergeExtensions stored h.aExtensionsList lpHeader.aExtensionsList
  return {
    bPublic := h.bPublic || lpHeader.bPublic
    bPrivate := h.bPrivate || lpHeader.bPrivate
    cPrivateFieldsList
    bNoCache := h.bNoCache || lpHeader.bNoCache
    cNoCacheFieldsList
    bNoStore := h.bNoStore || lpHeader.bNoStore
    bNoTransform := h.bNoTransform || lpHeader.bNoTransform
    bMustRevalidate := h.bMustRevalidate || lpHeader.bMustRevalidate
    bProxyRevalidate := h.bProxyRevalidate || lpHeader.bProxyRevalidate
    nMaxAge := if lpHeader.nMaxAge ≠ RespCacheControl.noAge then lpHeader.nMaxAge else h.nMaxAge
    nSMaxAge := if lpHeader.nSMaxAge ≠ RespCacheControl.noAge then lpHeader.nSMaxAge else h.nSMaxAge
    aExtensionsList }

end CacheControl

/-! ### What should be merged -/

/-- A name without its case. -/
def foldName (szNameA : List Byte) : List Byte := (szStr szNameA).map lowerA

/-- The key of a parameter and of an extension of Cache-Control. -/
def entryKey (p : List Byte × List WChar) : List Byte := foldName p.1

section Items

variable {I : Type} (C : MergeClass I)

/-- The key of an item. -/
def MergeClass.key (i : I) : List Byte := foldName (C.szNameA i)

/-- Items whose names are distinct, and the names of their parameters. -/
structure Items where
  list : List I
  names : NodupKeys C.key list
  params : ∀ i ∈ list, NodupKeys entryKey (C.aParamsList i)

/-- An item after its match, if there is one, was merged into it. -/
def HoldsMatch (aList : List I) (i i' : I) : Prop :=
  (∀ j ∈ aList, C.key j = C.key i → ∃ l, i' = C.setParams (C.takeMatch i j) l ∧
    l.Perm (override entryKey (C.aParamsList i) (C.aParamsList j))) ∧
  ((∀ j ∈ aList, C.key j ≠ C.key i) → i' = i)

/-- **What the merged items should be**: those of the one list with their matches in the other, and
those of the other that the one did not have. -/
def MergesRight (aThisList aList : List I) : Prop :=
  ∃ front, mergeItems C aThisList aList = some (front ++ without C.key aThisList aList) ∧
    List.Forall₂ (HoldsMatch C aList) aThisList front

/-- Old parameters that are removed from the place they are at: for a parameter that both items
have, the number of those in front of it that are still there is the index of the item. -/
def RemovesRight (nThisIndex : Nat) (aThisParamsList aParamsList : ParamsList) : Prop :=
  ∀ done p rest, aParamsList = done ++ p :: rest → ∀ pre q suf, aThisParamsList = pre ++ q :: suf →
    entryKey q = entryKey p → (without entryKey done pre).length = nThisIndex

end Items

section CacheControl

/-- Fields with those of another list that they did not have, each of them once. -/
def FieldsMerged (cThisFieldsList cFieldsList r : List (List Byte)) : Prop :=
  ∃ more, r = cThisFieldsList ++ more ∧ more.Sublist cFieldsList ∧ NodupKeys foldName more ∧
    (∀ k ∈ keys foldName more, k ∉ keys foldName cThisFieldsList) ∧
    keys foldName cFieldsList ⊆ keys foldName r

/-- **What a merged Cache-Control should be**: the directives of both headers, those of the other
one where both have an age or an extension. -/
structure CacheControlMerged (h lpHeader r : RespCacheControl.Header) : Prop where
  bPublic : r.bPublic = (h.bPublic || lpHeader.bPublic)
  bPrivate : r.bPrivate = (h.bPrivate || lpHeader.bPrivate)
  cPrivateFieldsList : if lpHeader.bPrivate then
      FieldsMerged h.cPrivateFieldsList lpHeader.cPrivateFieldsList r.cPrivateFieldsList
    else r.cPrivateFieldsList = h.cPrivateFieldsList
  bNoCache : r.bNoCache = (h.bNoCache || lpHeader.bNoCache)
  cNoCacheFieldsList : if lpHeader.bNoCache then
      FieldsMerged h.cNoCacheFieldsList lpHeader.cNoCacheFieldsList r.cNoCacheFieldsList
    else r.cNoCacheFieldsList = h.cNoCacheFieldsList
  bNoStore : r.bNoStore = (h.bNoStore || lpHeader.bNoStore)
  bNoTransform : r.bNoTransform = (h.bNoTransform || lpHeader.bNoTransform)
  bMustRevalidate : r.bMustRevalidate = (h.bMustRevalidate || lpHeader.bMustRevalidate)
  bProxyRevalidate : r.bProxyRevalidate = (h.bProxyRevalidate || lpHeader.bProxyRevalidate)
  nMaxAge : r.nMaxAge =
    if lpHeader.nMaxAge = RespCacheControl.noAge then h.nMaxAge else lpHeader.nMaxAge
  nSMaxAge : r.nSMaxAge =
    if lpHeader.nSMaxAge = RespCacheControl.noAge then h.nSMaxAge else lpHeader.nSMaxAge
  aExtensionsList : r.aExtensionsList =
    override entryKey h.aExtensionsList lpHeader.aExtensionsList

/-- A header whose extensions have distinct names. -/
structure Extensions where
  header : RespCacheControl.Header
  names : NodupKeys entryKey header.aExtensionsList

/-- A merge that gives what it should. -/
def MergesCacheControl (stored : List Byte × List WChar → List Byte × List WChar)
    (h lpHeader : RespCacheControl.Header) : Prop :=
  ∃ r, mergeCacheControl stored h lpHeader = some r ∧ CacheControlMerged h lpHeader r

/-- New extensions in front of those that replace others. -/
def NewFirst (aThisExtensionsList aExtensionsList : List (List Byte × List WChar)) : Prop :=
  ∀ done p rest, aExtensionsList = done ++ p :: rest →
    entryKey p ∉ keys entryKey aThisExtensionsList →
    ∀ k ∈ keys entryKey done, k ∉ keys entryKey aThisExtensionsList

end CacheControl

/-! ### Looking for a name -/

theorem strCompareA_iff {sA tA : List Byte} :
    strCompareA sA tA true = true ↔ foldName tA = foldName sA := by
  rw [strCompareA, beq_iff_eq, eq_comm]
  rfl

section Search

variable {α : Type} {isMatch : α → Bool}

/-- An element that is there is found, at its place. -/
theorem searchFor_split {pre suf : List α} {x : α} (hpre : ∀ y ∈ pre, isMatch y = false)
    (hx : isMatch x = true) {nCount : Nat} (hcount : pre.length < nCount) :
    searchFor isMatch nCount (pre ++ x :: suf) = some (some pre.length) := by
  induction pre generalizing nCount with
  | nil =>
    obtain ⟨nCount, rfl⟩ := Nat.exists_eq_add_one.mpr hcount
    rw [List.nil_append, searchFor, if_pos hx]
    rfl
  | cons y pre ih =>
    obtain ⟨nCount, rfl⟩ := Nat.exists_eq_add_one.mpr (Nat.zero_lt_of_lt hcount)
    have hy := hpre y List.mem_cons_self
    rw [List.cons_append, searchFor, hy, if_neg (by decide),
      ih (fun z hz => hpre z (List.mem_cons_of_mem _ hz)) (Nat.lt_of_succ_lt_succ hcount)]
    rfl

/-- One that is not there is not found, and the end is passed if the count is too large. -/
theorem searchFor_of_forall {l : List α} (h : ∀ y ∈ l, isMatch y = false) (nCount : Nat) :
    searchFor isMatch nCount l = if nCount ≤ l.length then some none else none := by
  induction l generalizing nCount with
  | nil =>
    cases nCount with
    | zero => rfl
    | succ nCount => rfl
  | cons y l ih =>
    cases nCount with
    | zero => rfl
    | succ nCount =>
      rw [searchFor, h y List.mem_cons_self, if_neg (by decide),
        ih (fun z hz => h z (List.mem_cons_of_mem _ hz)), List.length_cons]
      by_cases hle : nCount ≤ l.length
      · rw [if_pos hle, if_pos (Nat.succ_le_succ hle)]
        rfl
      · rw [if_neg hle, if_neg fun hle' => hle (Nat.le_of_succ_le_succ hle')]
        rfl

/-- The end is not passed within the list, and what is found is there. -/
theorem searchFor_cases {l : List α} {nCount : Nat} (hcount : nCount ≤ l.length) :
    ∃ r, searchFor isMatch nCount l = some r ∧ (r.isSome = true → ∃ x ∈ l, isMatch x = true) := by
  by_cases hexists : ∃ x ∈ l, isMatch x = true
  · have hsearch : ∃ r, searchFor isMatch nCount l = some r := by
      clear hexists
      induction l generalizing nCount with
      | nil =>
        obtain rfl : nCount = 0 := Nat.le_zero.mp hcount
        exact ⟨none, rfl⟩
      | cons y l ih =>
        cases nCount with
        | zero => exact ⟨none, rfl⟩
        | succ nCount =>
          obtain ⟨r, hr⟩ := ih (Nat.le_of_succ_le_succ hcount)
          rw [searchFor, hr]
          by_cases hy : isMatch y = true
          · exact ⟨_, if_pos hy⟩
          · exact ⟨_, if_neg hy⟩
    obtain ⟨r, hr⟩ := hsearch
    exact ⟨r, hr, fun _ => hexists⟩
  · refine ⟨none, ?_, nofun⟩
    rw [searchFor_of_forall (fun y hy => ?_), if_pos hcount]
    exact Bool.eq_false_iff.mpr fun hy' => hexists ⟨y, hy, hy'⟩

/-- **A name that is in the list is found** where it is. -/
theorem searchFor_name {szNameA : List Byte} (name : α → List Byte) {pre suf : List α} {x : α}
    (hpre : foldName szNameA ∉ keys (fun y => foldName (name y)) pre)
    (hx : foldName (name x) = foldName szNameA) {nCount : Nat} (hcount : pre.length < nCount) :
    searchFor (fun y => strCompareA szNameA (name y) true) nCount (pre ++ x :: suf) =
      some (some pre.length) := by
  apply searchFor_split
  · intro y hy
    exact Bool.eq_false_iff.mpr fun hmatch =>
      hpre (mem_keys.mpr ⟨y, hy, strCompareA_iff.mp hmatch⟩)
  · exact strCompareA_iff.mpr hx
  · exact hcount

/-- A name that is not in the list is not found. -/
theorem searchFor_newName {szNameA : List Byte} (name : α → List Byte) {l : List α}
    (hl : foldName szNameA ∉ keys (fun y => foldName (name y)) l) (nCount : Nat) :
    searchFor (fun y => strCompareA szNameA (name y) true) nCount l =
      if nCount ≤ l.length then some none else none := by
  refine searchFor_of_forall (fun y hy => Bool.eq_false_iff.mpr fun hmatch => hl ?_) nCount
  exact mem_keys.mpr ⟨y, hy, strCompareA_iff.mp hmatch⟩

end Search

/-! ### Merging parameters -/

section Params

variable {nThisIndex n : Nat} {l : ParamsList} {p : List Byte × List WChar}

/-- **What one parameter does**: it is added, and an old one is removed where it is found. -/
theorem mergeParam_cases (hcount : n ≤ l.length) :
    ∃ l', mergeParam nThisIndex n l p = some (l' ++ [p]) ∧
      (l' = l ∨ (l' = l.eraseIdx nThisIndex ∧ entryKey p ∈ keys entryKey l)) := by
  obtain ⟨r, hr, hfound⟩ := @searchFor_cases _
    (fun lpThisParam : List Byte × List WChar => strCompareA p.1 lpThisParam.1 true) l n hcount
  rw [mergeParam, hr]
  cases r with
  | none => exact ⟨l, rfl, .inl rfl⟩
  | some k =>
    obtain ⟨x, hx, hmatch⟩ := hfound rfl
    exact ⟨l.eraseIdx nThisIndex, rfl, .inr ⟨rfl, mem_keys.mpr ⟨x, hx, strCompareA_iff.mp hmatch⟩⟩⟩

/-- **No parameter is looked for behind the end**, and each makes the list longer or was there. -/
theorem run_mergeParam (rest : ParamsList) : ∀ l : ParamsList, n ≤ l.length →
    NodupKeys entryKey rest → ∃ r, rest.foldlM (mergeParam nThisIndex n) l = some r ∧
      keys entryKey r ⊆ keys entryKey l ∪ keys entryKey rest ∧
      l.length + rest.length ≤ r.length + (keys entryKey l ∩ keys entryKey rest).card := by
  induction rest with
  | nil => exact fun l _ _ => ⟨l, rfl, Finset.subset_union_left, Nat.le_add_right _ _⟩
  | cons p rest ih =>
    intro l hcount hnodup
    obtain ⟨hp, hrest⟩ := nodupKeys_cons.mp hnodup
    have hcases : ∃ l', mergeParam nThisIndex n l p = some (l' ++ [p]) ∧
        (l' = l ∨ (l' = l.eraseIdx nThisIndex ∧ entryKey p ∈ keys entryKey l)) :=
      mergeParam_cases hcount
    obtain ⟨l', hstep, hl'⟩ := hcases
    have hsub : keys entryKey l' ⊆ keys entryKey l := by
      intro k hk
      obtain ⟨x, hx, rfl⟩ := mem_keys.mp hk
      rcases hl' with rfl | ⟨rfl, -⟩
      · exact hk
      · exact mem_keys_of_mem ((List.eraseIdx_sublist l nThisIndex).subset hx)
    have hlen : l.length ≤ (l' ++ [p]).length := by
      rw [List.length_append, List.length_singleton]
      rcases hl' with rfl | ⟨rfl, -⟩
      · omega
      · have herase : (l.eraseIdx nThisIndex).length =
            if nThisIndex < l.length then l.length - 1 else l.length := List.length_eraseIdx
        split at herase
        · omega
        · omega
    obtain ⟨r, hr, hkeys, hle⟩ := ih (l' ++ [p]) (Nat.le_trans hcount hlen) hrest
    rw [keys_append, keys_singleton] at hkeys hle
    have hinter : (keys entryKey l' ∪ {entryKey p}) ∩ keys entryKey rest ⊆
        keys entryKey l ∩ keys entryKey rest := by
      intro k hk
      obtain ⟨hk, hkrest⟩ := Finset.mem_inter.mp hk
      rcases Finset.mem_union.mp hk with hk | hk
      · exact Finset.mem_inter.mpr ⟨hsub hk, hkrest⟩
      · exact absurd (Finset.mem_singleton.mp hk ▸ hkrest) hp
    have hcard := Finset.card_le_card hinter
    refine ⟨r, ?_, fun k hk => ?_, ?_⟩
    · rw [List.foldlM_cons, hstep]
      exact hr
    · rw [keys_cons]
      rcases Finset.mem_union.mp (hkeys hk) with hk | hk
      · rcases Finset.mem_union.mp hk with hk | hk
        · exact Finset.mem_union_left _ (hsub hk)
        · exact Finset.mem_union_right _ (Finset.mem_insert.mpr (.inl (Finset.mem_singleton.mp hk)))
      · exact Finset.mem_union_right _ (Finset.mem_insert_of_mem hk)
    · rw [keys_cons, List.length_cons]
      rw [List.length_append, List.length_singleton] at hle hlen
      rcases hl' with rfl | ⟨rfl, hmem⟩
      · -- the list is longer by one
        have hmono : (keys entryKey l' ∩ keys entryKey rest).card ≤
            (keys entryKey l' ∩ insert (entryKey p) (keys entryKey rest)).card :=
          Finset.card_le_card (Finset.inter_subset_inter_left (Finset.subset_insert _ _))
        omega
      · -- the old one is among those that are named
        rw [Finset.inter_insert_of_mem hmem, Finset.card_insert_of_notMem fun h =>
          hp (Finset.mem_inter.mp h).2]
        omega

/-- An element that was erased has left its key. -/
theorem key_not_mem_eraseIdx (hnodup : NodupKeys entryKey l) {k : Nat} (hk : k < l.length) :
    entryKey l[k] ∉ keys entryKey (l.eraseIdx k) := by
  have hsplit : l = l.take k ++ l[k] :: l.drop (k + 1) := by
    rw [← List.drop_eq_getElem_cons hk, List.take_append_drop]
  rw [List.eraseIdx_eq_take_drop_succ, keys_append, Finset.mem_union, not_or]
  generalize l[k] = x at hsplit ⊢
  rw [hsplit] at hnodup
  obtain ⟨-, hcons, hdisjoint⟩ := nodupKeys_append.mp hnodup
  exact ⟨fun hmem => hdisjoint _ hmem (mem_keys_of_mem List.mem_cons_self),
    (nodupKeys_cons.mp hcons).1⟩

/-- **A parameter that is removed from a wrong place** is missing in the end, or the other one is
there twice. -/
theorem not_covers_of_wrong {rest pre suf r : ParamsList} {q : List Byte × List WChar}
    (hnodup : NodupKeys entryKey l) (hrest : NodupKeys entryKey (p :: rest))
    (hl : l = pre ++ q :: suf) (hkey : entryKey q = entryKey p) (hwrong : pre.length ≠ nThisIndex)
    (hcount : n ≤ l.length)
    (hr : rest.foldlM (mergeParam nThisIndex n) (l.eraseIdx nThisIndex ++ [p]) = some r) :
    ¬ Covers entryKey l (p :: rest) r := by
  rintro ⟨hkeys, hlen⟩
  obtain ⟨hp, hrest⟩ := nodupKeys_cons.mp hrest
  have hpl : entryKey p ∈ keys entryKey l := by
    rw [← hkey, hl]
    exact mem_keys_of_mem (List.mem_append_right _ List.mem_cons_self)
  have herase : (l.eraseIdx nThisIndex).length =
      if nThisIndex < l.length then l.length - 1 else l.length := List.length_eraseIdx
  have hsub : keys entryKey (l.eraseIdx nThisIndex) ⊆ keys entryKey l := by
    intro k hk
    obtain ⟨x, hx, rfl⟩ := mem_keys.mp hk
    exact mem_keys_of_mem ((List.eraseIdx_sublist l nThisIndex).subset hx)
  have hbound : n ≤ (l.eraseIdx nThisIndex ++ [p]).length := by
    rw [List.length_append, List.length_singleton, herase]
    split
    · omega
    · omega
  obtain ⟨r', hr', hsubset, hle⟩ := run_mergeParam rest _ hbound hrest
  obtain rfl := Option.some.inj (hr'.symm.trans hr)
  rw [keys_append, keys_singleton] at hsubset hle
  rw [List.length_append, List.length_singleton, herase] at hle
  -- in the end there are as many parameters as names
  have hunion : keys entryKey l ∪ keys entryKey (p :: rest) =
      keys entryKey l ∪ keys entryKey rest := by
    rw [keys_cons, Finset.union_insert, Finset.insert_eq_of_mem (Finset.mem_union_left _ hpl)]
  have hcards := Finset.card_union_add_card_inter (keys entryKey l) (keys entryKey rest)
  rw [hnodup.card, hrest.card] at hcards
  rw [hunion] at hkeys hlen
  have hinter : (keys entryKey (l.eraseIdx nThisIndex) ∪ {entryKey p}) ∩ keys entryKey rest ⊆
      keys entryKey (l.eraseIdx nThisIndex) ∩ keys entryKey rest := by
    intro k hk
    obtain ⟨hk, hkrest⟩ := Finset.mem_inter.mp hk
    rcases Finset.mem_union.mp hk with hk | hk
    · exact Finset.mem_inter.mpr ⟨hk, hkrest⟩
    · exact absurd (Finset.mem_singleton.mp hk ▸ hkrest) hp
  have hinterLe := Finset.card_le_card hinter
  by_cases hinside : nThisIndex < l.length
  · -- another one was removed
    have hgone := key_not_mem_eraseIdx hnodup hinside
    have hother : entryKey l[nThisIndex] ≠ entryKey p := by
      intro heq
      have hq : l[pre.length]? = some q := by
        rw [hl, List.getElem?_append_right (Nat.le_refl _), Nat.sub_self]
        rfl
      exact hwrong (hnodup.index_eq hq (List.getElem?_eq_getElem hinside)
        (hkey.trans heq.symm))
    rw [if_pos hinside] at hle
    by_cases hnext : entryKey l[nThisIndex] ∈ keys entryKey rest
    · have hlt : (keys entryKey (l.eraseIdx nThisIndex) ∩ keys entryKey rest).card <
          (keys entryKey l ∩ keys entryKey rest).card := by
        refine Finset.card_lt_card ((Finset.ssubset_iff_of_subset
          (Finset.inter_subset_inter_right hsub)).mpr ⟨entryKey l[nThisIndex], ?_, ?_⟩)
        · exact Finset.mem_inter.mpr ⟨mem_keys_of_mem (List.getElem_mem hinside), hnext⟩
        · exact fun hmem => hgone (Finset.mem_inter.mp hmem).1
      omega
    · have hmem : entryKey l[nThisIndex] ∈ keys entryKey r' := by
        rw [hkeys]
        exact Finset.mem_union_left _ (mem_keys_of_mem (List.getElem_mem hinside))
      rcases Finset.mem_union.mp (hsubset hmem) with hmem | hmem
      · rcases Finset.mem_union.mp hmem with hmem | hmem
        · exact hgone hmem
        · exact hother (Finset.mem_singleton.mp hmem)
      · exact hnext hmem
  · -- none was removed
    rw [if_neg hinside] at hle
    have hmono : (keys entryKey (l.eraseIdx nThisIndex) ∩ keys entryKey rest).card ≤
        (keys entryKey l ∩ keys entryKey rest).card :=
      Finset.card_le_card (Finset.inter_subset_inter_right hsub)
    omega

/-- Parameters are merged, right or wrong. -/
theorem exists_mergeParams (nThisIndex : Nat) (aThisParamsList : ParamsList)
    {aParamsList : ParamsList} (hnodup : NodupKeys entryKey aParamsList) :
    ∃ r, mergeParams nThisIndex aThisParamsList aParamsList = some r := by
  obtain ⟨r, hr, -, -⟩ := run_mergeParam aParamsList aThisParamsList (Nat.le_refl _) hnodup
  exact ⟨r, hr⟩

/-! ### Where it is right -/

/-- A parameter that the list has is found, if the count reaches to it. -/
theorem mergeParam_found {pre suf : ParamsList} {q : List Byte × List WChar}
    (hpre : entryKey p ∉ keys entryKey pre) (hkey : entryKey q = entryKey p)
    (hcount : pre.length < n) :
    mergeParam nThisIndex n (pre ++ q :: suf) p =
      some ((pre ++ q :: suf).eraseIdx nThisIndex ++ [p]) := by
  rw [mergeParam, searchFor_name Prod.fst hpre hkey hcount]
  rfl

/-- A new parameter is added. -/
theorem mergeParam_new (hp : entryKey p ∉ keys entryKey l) (hcount : n ≤ l.length) :
    mergeParam nThisIndex n l p = some (l ++ [p]) := by
  rw [mergeParam, searchFor_newName Prod.fst hp, if_pos hcount]
  rfl

/-- The index at which a parameter is to be removed for `p`. -/
def StepRight (nThisIndex : Nat) (aThisParamsList done : ParamsList)
    (p : List Byte × List WChar) : Prop :=
  ∀ pre q suf, aThisParamsList = pre ++ q :: suf → entryKey q = entryKey p →
    (without entryKey done pre).length = nThisIndex

section Run

variable (nThisIndex) {aThisParamsList : ParamsList}
  (hthis : NodupKeys entryKey aThisParamsList)

include hthis

/-- **A step from a list that is right so far**: it is right again, or will never be. -/
theorem mergeParam_step {done rest : ParamsList} (hnodup : NodupKeys entryKey (done ++ p :: rest)) :
    (StepRight nThisIndex aThisParamsList done p →
      mergeParam nThisIndex aThisParamsList.length (override entryKey aThisParamsList done) p =
        some (override entryKey aThisParamsList (done ++ [p]))) ∧
    (¬ StepRight nThisIndex aThisParamsList done p → ∀ r,
      (p :: rest).foldlM (mergeParam nThisIndex aThisParamsList.length)
        (override entryKey aThisParamsList done) = some r →
      ¬ Covers entryKey aThisParamsList (done ++ p :: rest) r) := by
  obtain ⟨hdone, hrest, hdisjoint⟩ := nodupKeys_append.mp hnodup
  have hp : entryKey p ∉ keys entryKey done := fun hmem =>
    hdisjoint _ hmem (mem_keys_of_mem List.mem_cons_self)
  by_cases hold : entryKey p ∈ keys entryKey aThisParamsList
  · obtain ⟨pre, q, suf, hsplit, hkey, hpre, hsuf⟩ := exists_split hthis hold
    -- where the old parameter is, when its turn comes
    have hl : override entryKey aThisParamsList done =
        without entryKey done pre ++ q :: (without entryKey done suf ++ done) := by
      rw [override, hsplit, without_append_right, without_cons_of_not_mem (hkey ▸ hp),
        List.append_assoc, List.cons_append]
    have hpre' : entryKey p ∉ keys entryKey (without entryKey done pre) := by
      rw [keys_without]
      exact fun hmem => hpre (Finset.mem_sdiff.mp hmem).1
    have hsuf' : entryKey p ∉ keys entryKey (without entryKey done suf ++ done) := by
      rw [keys_append, keys_without]
      exact fun hmem => (Finset.mem_union.mp hmem).elim (fun h => hsuf (Finset.mem_sdiff.mp h).1) hp
    have hshort : (without entryKey done pre).length < aThisParamsList.length := by
      have hle : (without entryKey done pre).length ≤ pre.length := List.length_filter_le _ _
      rw [hsplit, List.length_append, List.length_cons]
      omega
    have hright : StepRight nThisIndex aThisParamsList done p ↔
        (without entryKey done pre).length = nThisIndex := by
      refine ⟨fun h => h pre q suf hsplit hkey, fun h pre' q' suf' hsplit' hkey' => ?_⟩
      have hat : ∀ (pre suf : ParamsList) (q : List Byte × List WChar),
          aThisParamsList = pre ++ q :: suf → aThisParamsList[pre.length]? = some q := by
        intro pre suf q hsplit
        rw [hsplit, List.getElem?_append_right (Nat.le_refl _), Nat.sub_self]
        rfl
      have hindex := hthis.index_eq (hat pre suf q hsplit) (hat pre' suf' q' hsplit')
        (hkey.trans hkey'.symm)
      rw [← List.append_inj_left (hsplit.symm.trans hsplit') hindex]
      exact h
    rw [hright]
    refine ⟨fun hindex => ?_, fun hwrong r hr => ?_⟩
    · rw [override_concat hp, hl, without_split hkey hpre' hsuf',
        mergeParam_found hpre' hkey hshort, ← hindex,
        List.eraseIdx_append_of_length_le (Nat.le_refl _), Nat.sub_self, List.eraseIdx_cons_zero]
    · rw [List.foldlM_cons, hl, mergeParam_found hpre' hkey hshort, ← hl] at hr
      rw [← covers_override]
      exact not_covers_of_wrong (hthis.override hdone) hrest hl hkey hwrong
        (length_le_override hthis hdone) hr
  · have hnew : entryKey p ∉ keys entryKey (override entryKey aThisParamsList done) := by
      rw [keys_override]
      exact fun hmem => (Finset.mem_union.mp hmem).elim hold hp
    refine ⟨fun _ => ?_, fun hwrong => absurd (fun pre q suf hsplit hkey => ?_) hwrong⟩
    · rw [mergeParam_new hnew (length_le_override hthis hdone), override_concat hp,
        without_eq_self fun k hk hmem => hnew ?_]
      rw [keys_singleton, Finset.mem_singleton] at hmem
      exact hmem ▸ hk
    · refine absurd ?_ hold
      rw [← hkey, hsplit]
      exact mem_keys_of_mem (List.mem_append_right _ List.mem_cons_self)

/-- **A run over parameters**: they are put over the old ones, if each old one is removed from its
place, and never else. -/
theorem run_mergeParam_iff (rest : ParamsList) : ∀ done : ParamsList,
    NodupKeys entryKey (done ++ rest) →
    ((∀ d p r, rest = d ++ p :: r → StepRight nThisIndex aThisParamsList (done ++ d) p) →
      rest.foldlM (mergeParam nThisIndex aThisParamsList.length)
        (override entryKey aThisParamsList done) =
          some (override entryKey aThisParamsList (done ++ rest))) ∧
    (∀ r, rest.foldlM (mergeParam nThisIndex aThisParamsList.length)
        (override entryKey aThisParamsList done) = some r →
      Covers entryKey aThisParamsList (done ++ rest) r →
      ∀ d p r, rest = d ++ p :: r → StepRight nThisIndex aThisParamsList (done ++ d) p) := by
  induction rest with
  | nil =>
    intro done _
    refine ⟨fun _ => by rw [List.append_nil]; rfl, fun _ _ _ d p r hnil => ?_⟩
    exact absurd hnil.symm (List.append_ne_nil_of_right_ne_nil _ (List.cons_ne_nil _ _))
  | cons p rest ih =>
    intro done hnodup
    obtain ⟨hstep, hwrong⟩ := mergeParam_step nThisIndex hthis hnodup
    have hassoc : done ++ p :: rest = done ++ [p] ++ rest := by
      rw [List.append_assoc]
      rfl
    obtain ⟨hgo, hback⟩ := ih (done ++ [p]) (hassoc ▸ hnodup)
    refine ⟨fun hall => ?_, fun r hr hcovers => ?_⟩
    · have hp := hstep (by simpa using hall [] p rest rfl)
      rw [List.foldlM_cons, hp, hassoc]
      refine hgo fun d q r hrest => ?_
      rw [List.append_assoc]
      exact hall (p :: d) q r (congrArg (p :: ·) hrest)
    · have hp : StepRight nThisIndex aThisParamsList done p := by
        by_contra hnot
        exact hwrong hnot r hr hcovers
      rw [List.foldlM_cons, hstep hp] at hr
      have hnext := hback r hr (hassoc ▸ hcovers)
      intro d q r' hrest
      cases d with
      | nil =>
        obtain ⟨rfl, -⟩ := List.cons.inj hrest
        rwa [List.append_nil]
      | cons d₀ d =>
        obtain ⟨rfl, htail⟩ := List.cons.inj hrest
        have hq := hnext d q r' htail
        rwa [List.append_assoc] at hq

/-- **The parameters of a match are right** just where each old one is at the place it is removed
from. -/
theorem mergeParams_iff {aParamsList : ParamsList}
    (hnodup : NodupKeys entryKey aParamsList) :
    (∃ r, mergeParams nThisIndex aThisParamsList aParamsList = some r ∧
      r.Perm (override entryKey aThisParamsList aParamsList)) ↔
    RemovesRight nThisIndex aThisParamsList aParamsList := by
  obtain ⟨hgo, hback⟩ := run_mergeParam_iff nThisIndex hthis aParamsList [] hnodup
  rw [override_nil] at hgo hback
  constructor
  · rintro ⟨r, hr, hperm⟩
    exact hback r hr (covers_of_perm hthis hnodup hperm)
  · exact fun hright => ⟨_, hgo hright, List.Perm.refl _⟩

end Run

end Params

/-! ### Merging items -/

section Items

variable {I : Type} (C : MergeClass I)

/-- The item at an index after its match, if there is one, was merged into it. -/
def mergedItem (aList : List I) (nThisIndex : Nat) (i : I) : I :=
  match aList.find? fun j => decide (C.key j = C.key i) with
  | none => i
  | some j => C.setParams (C.takeMatch i j)
      ((mergeParams nThisIndex (C.aParamsList i) (C.aParamsList j)).getD [])

/-- The items from an index on after their matches were merged into them. -/
def mergedList (aList : List I) : Nat → List I → List I
  | _, [] => []
  | k, i :: l => mergedItem C aList k i :: mergedList aList (k + 1) l

/-- The items after some of the others were merged. -/
def itemsAfter (aThisList done : List I) : List I :=
  mergedList C done 0 aThisList ++ without C.key aThisList done

variable {C}

theorem key_mergedItem (aList : List I) (k : Nat) (i : I) :
    C.key (mergedItem C aList k i) = C.key i := by
  rw [mergedItem]
  cases aList.find? fun j => decide (C.key j = C.key i) with
  | none => rfl
  | some j => simp only [MergeClass.key, C.szNameA_setParams, C.szNameA_takeMatch]

/-- An item that has no match stays as it is. -/
theorem mergedItem_of_not_mem {aList : List I} {i : I} (h : C.key i ∉ keys C.key aList) (k : Nat) :
    mergedItem C aList k i = i := by
  have hnone : (aList.find? fun j => decide (C.key j = C.key i)) = none := by
    rw [List.find?_eq_none]
    intro j hj hkey
    exact h (mem_keys.mpr ⟨j, hj, of_decide_eq_true hkey⟩)
  rw [mergedItem, hnone]

/-- An item and its only match. -/
theorem mergedItem_of_mem {aList : List I} (hnodup : NodupKeys C.key aList) {i j : I}
    (hj : j ∈ aList) (hkey : C.key j = C.key i) (k : Nat) :
    mergedItem C aList k i = C.setParams (C.takeMatch i j)
      ((mergeParams k (C.aParamsList i) (C.aParamsList j)).getD []) := by
  have hsome : (aList.find? fun j => decide (C.key j = C.key i)) = some j := by
    obtain ⟨pre, suf, rfl⟩ := List.append_of_mem hj
    have hhead : (j :: suf).find? (fun j => decide (C.key j = C.key i)) = some j :=
      List.find?_cons_of_pos (by simpa using hkey)
    have hpre : pre.find? (fun j => decide (C.key j = C.key i)) = none := by
      rw [List.find?_eq_none]
      intro j' hj' hkey'
      obtain ⟨-, -, hdisjoint⟩ := nodupKeys_append.mp hnodup
      refine hdisjoint _ (mem_keys_of_mem hj') ?_
      rw [(of_decide_eq_true hkey').trans hkey.symm]
      exact mem_keys_of_mem List.mem_cons_self
    rw [List.find?_append, hpre, hhead, Option.none_or]
  rw [mergedItem, hsome]

theorem mergedItem_concat {aList : List I} {i j : I} (hne : C.key j ≠ C.key i) (k : Nat) :
    mergedItem C (aList ++ [j]) k i = mergedItem C aList k i := by
  rw [mergedItem, mergedItem, List.find?_append,
    List.find?_cons_of_neg (by simpa using hne), List.find?_nil, Option.or_none]

@[simp] theorem length_mergedList (aList l : List I) (k : Nat) :
    (mergedList C aList k l).length = l.length := by
  induction l generalizing k with
  | nil => rfl
  | cons i l ih => rw [mergedList, List.length_cons, List.length_cons, ih]

theorem mergedList_append (aList l l' : List I) (k : Nat) :
    mergedList C aList k (l ++ l') =
      mergedList C aList k l ++ mergedList C aList (k + l.length) l' := by
  induction l generalizing k with
  | nil => rfl
  | cons i l ih =>
    rw [List.cons_append, mergedList, mergedList, ih, List.length_cons, List.cons_append,
      Nat.add_assoc k 1, Nat.add_comm 1]

theorem keys_mergedList (aList l : List I) (k : Nat) :
    keys C.key (mergedList C aList k l) = keys C.key l := by
  induction l generalizing k with
  | nil => rfl
  | cons i l ih => rw [mergedList, keys_cons, keys_cons, key_mergedItem, ih]

/-- Nothing is merged into items that have no match. -/
theorem mergedList_concat {aList l : List I} {j : I} (h : C.key j ∉ keys C.key l) (k : Nat) :
    mergedList C (aList ++ [j]) k l = mergedList C aList k l := by
  induction l generalizing k with
  | nil => rfl
  | cons i l ih =>
    rw [keys_cons, Finset.mem_insert, not_or] at h
    rw [mergedList, mergedList, mergedItem_concat h.1, ih h.2]

@[simp] theorem mergedList_nil (l : List I) (k : Nat) : mergedList C [] k l = l := by
  induction l generalizing k with
  | nil => rfl
  | cons i l ih => rw [mergedList, ih, mergedItem_of_not_mem (by simp [keys])]

/-- The items around one that is there. -/
theorem itemsAfter_split {pre suf : List I} (done : List I) (i : I) :
    itemsAfter C (pre ++ i :: suf) done =
      mergedList C done 0 pre ++ mergedItem C done pre.length i ::
        (mergedList C done (pre.length + 1) suf ++ without C.key (pre ++ i :: suf) done) := by
  rw [itemsAfter, mergedList_append, mergedList, Nat.zero_add, List.append_assoc, List.cons_append]

/-- **One item is merged**: into its match, or it is added. -/
theorem mergeItem_itemsAfter {aThisList done : List I} {j : I}
    (hthis : NodupKeys C.key aThisList) (hnodup : NodupKeys C.key (done ++ [j]))
    (hparams : NodupKeys entryKey (C.aParamsList j)) :
    mergeItem C (itemsAfter C aThisList done, (itemsAfter C aThisList done).length) j =
      some (itemsAfter C aThisList (done ++ [j]),
        (itemsAfter C aThisList (done ++ [j])).length) := by
  have hj : C.key j ∉ keys C.key done := fun hmem =>
    (nodupKeys_append.mp hnodup).2.2 _ hmem (mem_keys_of_mem List.mem_cons_self)
  by_cases hold : C.key j ∈ keys C.key aThisList
  · obtain ⟨pre, i, suf, rfl, hkey, hpre, hsuf⟩ := exists_split hthis hold
    have hi : mergedItem C done pre.length i = i := mergedItem_of_not_mem (hkey ▸ hj) _
    have hpre' : C.key j ∉ keys C.key (mergedList C done 0 pre) := by
      rw [keys_mergedList]
      exact hpre
    have hafter : itemsAfter C (pre ++ i :: suf) (done ++ [j]) =
        mergedList C done 0 pre ++ mergedItem C (done ++ [j]) pre.length i ::
          (mergedList C done (pre.length + 1) suf ++ without C.key (pre ++ i :: suf) done) := by
      rw [itemsAfter_split, mergedList_concat hpre, mergedList_concat hsuf, without_append_right,
        without_cons_of_mem hold]
      rw [show without C.key (pre ++ i :: suf) [] = [] from rfl, List.append_nil]
    obtain ⟨r, hr⟩ := exists_mergeParams pre.length (C.aParamsList i) hparams
    have hmerged : mergedItem C (done ++ [j]) pre.length i =
        C.setParams (C.takeMatch i j) r := by
      rw [mergedItem_of_mem hnodup (List.mem_append_right _ List.mem_cons_self) hkey.symm, hr,
        Option.getD_some]
    rw [mergeItem, itemsAfter_split, hi, searchFor_name C.szNameA hpre' hkey (by simp)]
    dsimp only
    rw [List.getElem?_append_right (Nat.le_refl _), Nat.sub_self, List.getElem?_cons_zero]
    dsimp only
    rw [length_mergedList, hr, Option.map_some, hafter, hmerged,
      List.set_append_right _ _ (by simp)]
    simp
  · have hnew : C.key j ∉ keys C.key (itemsAfter C aThisList done) := by
      rw [itemsAfter, keys_append, keys_mergedList, keys_without]
      exact fun hmem => (Finset.mem_union.mp hmem).elim hold fun h => hj (Finset.mem_sdiff.mp h).1
    have hafter : itemsAfter C aThisList (done ++ [j]) = itemsAfter C aThisList done ++ [j] := by
      rw [itemsAfter, itemsAfter, mergedList_concat hold, without_append_right,
        without_cons_of_not_mem hold, List.append_assoc]
      rfl
    rw [mergeItem, searchFor_newName C.szNameA hnew, if_pos (Nat.le_refl _), hafter,
      List.length_append]
    rfl

/-- **A run over items** merges all of them, and never looks behind the end of the list. -/
theorem run_mergeItem {aThisList : List I} (hthis : NodupKeys C.key aThisList) (rest : List I) :
    ∀ done : List I, NodupKeys C.key (done ++ rest) →
      (∀ j ∈ rest, NodupKeys entryKey (C.aParamsList j)) →
      rest.foldlM (mergeItem C) (itemsAfter C aThisList done,
          (itemsAfter C aThisList done).length) =
        some (itemsAfter C aThisList (done ++ rest),
          (itemsAfter C aThisList (done ++ rest)).length) := by
  induction rest with
  | nil =>
    intro done _ _
    rw [List.append_nil]
    rfl
  | cons j rest ih =>
    intro done hnodup hparams
    have hassoc : done ++ j :: rest = done ++ [j] ++ rest := by
      rw [List.append_assoc]
      rfl
    rw [hassoc] at hnodup ⊢
    have hstep := mergeItem_itemsAfter hthis (nodupKeys_append.mp hnodup).1
      (hparams j List.mem_cons_self)
    rw [List.foldlM_cons, hstep]
    exact ih (done ++ [j]) hnodup fun j' hj' => hparams j' (List.mem_cons_of_mem _ hj')

/-- What `Merge` gives. -/
theorem mergeItems_eq {aThisList aList : List I} (hthis : NodupKeys C.key aThisList)
    (hnodup : NodupKeys C.key aList) (hparams : ∀ j ∈ aList, NodupKeys entryKey (C.aParamsList j)) :
    mergeItems C aThisList aList =
      some (mergedList C aList 0 aThisList ++ without C.key aThisList aList) := by
  have hrun := run_mergeItem hthis aList [] hnodup hparams
  have hstart : itemsAfter C aThisList [] = aThisList := by
    rw [itemsAfter, mergedList_nil]
    exact List.append_nil _
  rw [hstart] at hrun
  rw [mergeItems, hrun]
  rfl

/-- Where an item is merged as it should be. -/
theorem holdsMatch_iff {aList : List I} (hnodup : NodupKeys C.key aList)
    (hparams : ∀ j ∈ aList, NodupKeys entryKey (C.aParamsList j)) {i : I}
    (hi : NodupKeys entryKey (C.aParamsList i)) (k : Nat) :
    HoldsMatch C aList i (mergedItem C aList k i) ↔
      ∀ j ∈ aList, C.key j = C.key i → RemovesRight k (C.aParamsList i) (C.aParamsList j) := by
  by_cases hmatch : C.key i ∈ keys C.key aList
  · obtain ⟨j, hj, hkey⟩ := mem_keys.mp hmatch
    obtain ⟨r, hr⟩ := exists_mergeParams k (C.aParamsList i) (hparams j hj)
    have hright := mergeParams_iff k hi (hparams j hj)
    have honly : ∀ j' ∈ aList, C.key j' = C.key i → j' = j := by
      intro j' hj' hkey'
      obtain ⟨m, hm⟩ := List.mem_iff_getElem?.mp hj'
      obtain ⟨m', hm'⟩ := List.mem_iff_getElem?.mp hj
      obtain rfl := hnodup.index_eq hm hm' (hkey'.trans hkey.symm)
      exact Option.some.inj (hm.symm.trans hm')
    have hmerged : mergedItem C aList k i = C.setParams (C.takeMatch i j) r := by
      rw [mergedItem_of_mem hnodup hj hkey, hr, Option.getD_some]
    rw [hmerged]
    constructor
    · rintro ⟨hholds, -⟩ j' hj' hkey'
      obtain rfl := honly j' hj' hkey'
      obtain ⟨l, hl, hperm⟩ := hholds j' hj' hkey'
      have hparamsEq := congrArg C.aParamsList hl
      rw [C.aParamsList_setParams, C.aParamsList_setParams] at hparamsEq
      exact hright.mp ⟨r, hr, hparamsEq ▸ hperm⟩
    · intro hall
      refine ⟨fun j' hj' hkey' => ?_, fun hnone => absurd hkey (hnone j hj)⟩
      obtain rfl := honly j' hj' hkey'
      obtain ⟨r', hr', hperm⟩ := hright.mpr (hall j' hj' hkey')
      obtain rfl := Option.some.inj (hr.symm.trans hr')
      exact ⟨r, rfl, hperm⟩
  · rw [mergedItem_of_not_mem hmatch]
    have hnone : ∀ j ∈ aList, C.key j ≠ C.key i := fun j hj hkey =>
      hmatch (mem_keys.mpr ⟨j, hj, hkey⟩)
    exact iff_of_true ⟨fun j hj hkey => absurd hkey (hnone j hj), fun _ => rfl⟩
      fun j hj hkey => absurd hkey (hnone j hj)

/-- The items one by one. -/
theorem forall₂_mergedList {aList : List I} (l : List I) : ∀ k,
    List.Forall₂ (HoldsMatch C aList) l (mergedList C aList k l) ↔
      ∀ n i, l[n]? = some i → HoldsMatch C aList i (mergedItem C aList (k + n) i) := by
  induction l with
  | nil => exact fun k => iff_of_true .nil fun n i h => by cases h
  | cons i l ih =>
    intro k
    rw [mergedList, List.forall₂_cons, ih]
    constructor
    · rintro ⟨hfirst, hrest⟩ n i' hi'
      cases n with
      | zero =>
        obtain rfl := Option.some.inj hi'
        exact hfirst
      | succ n =>
        have hholds := hrest n i' hi'
        rwa [Nat.add_assoc, Nat.add_comm 1] at hholds
    · intro hall
      refine ⟨hall 0 i rfl, fun n i' hi' => ?_⟩
      have hholds := hall (n + 1) i' hi'
      rwa [Nat.add_comm n 1, ← Nat.add_assoc] at hholds

/-- **When items are merged right**: for each parameter that both have, the number of those in front
of it that are still there is the index of the item. -/
theorem mergesRight_iff (this other : Items C) :
    MergesRight C this.list other.list ↔
      ∀ k i j, this.list[k]? = some i → j ∈ other.list → C.key j = C.key i →
        RemovesRight k (C.aParamsList i) (C.aParamsList j) := by
  have hmerged := mergeItems_eq this.names other.names other.params
  have hfront : MergesRight C this.list other.list ↔ List.Forall₂ (HoldsMatch C other.list)
      this.list (mergedList C other.list 0 this.list) := by
    constructor
    · rintro ⟨front, hfront, hholds⟩
      have heq := Option.some.inj (hmerged.symm.trans hfront)
      rwa [List.append_cancel_right heq]
    · exact fun hholds => ⟨_, hmerged, hholds⟩
  rw [hfront, forall₂_mergedList]
  constructor
  · intro hall k i j hi hj hkey
    have hholds := hall k i hi
    rw [Nat.zero_add] at hholds
    exact (holdsMatch_iff other.names other.params
      (this.params i (List.mem_of_getElem? hi)) k).mp hholds j hj hkey
  · intro hall k i hi
    rw [Nat.zero_add]
    exact (holdsMatch_iff other.names other.params
      (this.params i (List.mem_of_getElem? hi)) k).mpr fun j hj hkey => hall k i j hi hj hkey

end Items

/-! ### Merging Cache-Control -/

section CacheControl

/-- **A run over fields** adds those that are new. -/
theorem run_mergeField (rest : List (List Byte)) : ∀ (l : List (List Byte)),
    ∃ r, rest.foldlM mergeField (l, l.length) = some (r, r.length) ∧ FieldsMerged l rest r := by
  induction rest with
  | nil =>
    intro l
    exact ⟨l, rfl, [], (List.append_nil l).symm, .slnil, List.nodup_nil, by simp [keys],
      by simp [keys]⟩
  | cons f rest ih =>
    intro l
    by_cases hold : foldName f ∈ keys foldName l
    · obtain ⟨r, hr, more, rfl, hsub, hnodup, hnew, hkeys⟩ := ih l
      obtain ⟨pre, f', suf, hsplit, hkey, hpre⟩ := exists_first hold
      have hsearch : searchFor (fun f' => strCompareA f f' true) l.length l =
          some (some pre.length) := by
        rw [hsplit]
        exact searchFor_name id hpre hkey (by simp)
      have hstep : mergeField (l, l.length) f = some (l, l.length) := by
        rw [mergeField]
        dsimp only
        rw [hsearch]
        rfl
      refine ⟨l ++ more, ?_, more, rfl, hsub.cons f, hnodup, hnew, ?_⟩
      · rw [List.foldlM_cons, hstep]
        exact hr
      · rw [keys_cons, Finset.insert_subset_iff]
        refine ⟨?_, hkeys⟩
        rw [keys_append]
        exact Finset.mem_union_left _ hold
    · obtain ⟨r, hr, more, rfl, hsub, hnodup, hnew, hkeys⟩ := ih (l ++ [f])
      have hstep : mergeField (l, l.length) f = some (l ++ [f], (l ++ [f]).length) := by
        have hsearch : searchFor (fun f' => strCompareA f f' true) l.length l = some none :=
          (searchFor_newName id hold _).trans (if_pos (Nat.le_refl _))
        rw [mergeField]
        dsimp only
        rw [hsearch, List.length_append]
        rfl
      rw [keys_append, keys_singleton] at hnew
      have hf : foldName f ∉ keys foldName more := fun hmem =>
        hnew _ hmem (Finset.mem_union_right _ (Finset.mem_singleton_self _))
      refine ⟨l ++ [f] ++ more, ?_, f :: more, List.append_assoc _ _ _, hsub.cons_cons f,
        nodupKeys_cons.mpr ⟨hf, hnodup⟩, fun k hk => ?_, ?_⟩
      · rw [List.foldlM_cons, hstep]
        exact hr
      · rw [keys_cons, Finset.mem_insert] at hk
        rcases hk with rfl | hk
        · exact hold
        · exact fun hmem => hnew k hk (Finset.mem_union_left _ hmem)
      · rw [keys_cons, Finset.insert_subset_iff]
        refine ⟨?_, hkeys⟩
        rw [keys_append, keys_append]
        exact Finset.mem_union_left _ (Finset.mem_union_right _ (Finset.mem_singleton_self _))

section Extensions

variable {stored : List Byte × List WChar → List Byte × List WChar}

/-- What is behind the old elements after a run was added by it. -/
theorem run_mergeExtension_append (rest : List (List Byte × List WChar)) : ∀ {l r} {c c' : Nat},
    rest.foldlM (mergeExtension stored) (l, c) = some (r, c') →
    ∃ s t, r = s ++ t ∧ s.Sublist l ∧ t.length ≤ rest.length := by
  induction rest with
  | nil =>
    intro l r c c' h
    obtain ⟨rfl, -⟩ := Prod.mk.inj (Option.some.inj h)
    exact ⟨l, [], (List.append_nil l).symm, List.Sublist.refl l, Nat.le_refl 0⟩
  | cons p rest ih =>
    intro l r c c' h
    rw [List.foldlM_cons] at h
    obtain ⟨⟨l', c₁⟩, hstep, hrun⟩ := Option.bind_eq_some_iff.mp h
    obtain ⟨s, t, rfl, hs, ht⟩ := ih hrun
    obtain ⟨k, -, hl'⟩ := Option.map_eq_some_iff.mp hstep
    have herased : ∃ e, l' = e ++ [stored p] ∧ e.Sublist l := by
      obtain ⟨hl', -⟩ := Prod.mk.inj hl'
      cases k with
      | none => exact ⟨l, hl'.symm, List.Sublist.refl l⟩
      | some k => exact ⟨_, hl'.symm, List.eraseIdx_sublist l k⟩
    obtain ⟨e, rfl, he⟩ := herased
    obtain ⟨s₁, s₂, rfl, hs₁, hs₂⟩ := List.sublist_append_iff.mp hs
    refine ⟨s₁, s₂ ++ t, List.append_assoc _ _ _, hs₁.trans he, ?_⟩
    have hle := hs₂.length_le
    rw [List.length_singleton] at hle
    rw [List.length_append, List.length_cons]
    omega

/-- An extension is taken if none that replaced another was there before. -/
def TakesNext (aThisExtensionsList done : List (List Byte × List WChar))
    (p : List Byte × List WChar) : Prop :=
  entryKey p ∉ keys entryKey aThisExtensionsList →
    ∀ k ∈ keys entryKey done, k ∉ keys entryKey aThisExtensionsList

section Run

variable (stored) {aThisExtensionsList : List (List Byte × List WChar)}
  (hthis : NodupKeys entryKey aThisExtensionsList)

include hthis

/-- The count is the one of the list, as long as nothing was replaced. -/
theorem count_le_iff {done : List (List Byte × List WChar)} :
    aThisExtensionsList.length + done.length ≤
        (override entryKey aThisExtensionsList done).length ↔
      ∀ k ∈ keys entryKey done, k ∉ keys entryKey aThisExtensionsList := by
  rw [override, List.length_append, Nat.add_le_add_iff_right,
    ← (hthis.without done).card, ← hthis.card, keys_without]
  constructor
  · intro hle k hk hmem
    have hlt : (keys entryKey aThisExtensionsList \ keys entryKey done).card <
        (keys entryKey aThisExtensionsList).card :=
      Finset.card_lt_card ((Finset.ssubset_iff_of_subset Finset.sdiff_subset).mpr
        ⟨k, hmem, fun hin => (Finset.mem_sdiff.mp hin).2 hk⟩)
    omega
  · intro hnone
    rw [Finset.sdiff_eq_self_of_disjoint]
    exact Finset.disjoint_left.mpr fun k hmem hk => hnone k hk hmem

/-- **One extension is merged**: it is added without the old one, or the end is passed. -/
theorem mergeExtension_step {done : List (List Byte × List WChar)} {p : List Byte × List WChar}
    (hnodup : NodupKeys entryKey (done ++ [p])) :
    (TakesNext aThisExtensionsList done p →
      mergeExtension stored (override entryKey aThisExtensionsList done,
          aThisExtensionsList.length + done.length) p =
        some (without entryKey [p] (override entryKey aThisExtensionsList done) ++ [stored p],
          aThisExtensionsList.length + (done ++ [p]).length)) ∧
    (¬ TakesNext aThisExtensionsList done p →
      mergeExtension stored (override entryKey aThisExtensionsList done,
        aThisExtensionsList.length + done.length) p = none) := by
  have hdone := (nodupKeys_append.mp hnodup).1
  have hp : entryKey p ∉ keys entryKey done := fun hmem =>
    (nodupKeys_append.mp hnodup).2.2 _ hmem (mem_keys_of_mem List.mem_cons_self)
  by_cases hold : entryKey p ∈ keys entryKey aThisExtensionsList
  · have hmem : entryKey p ∈ keys entryKey (override entryKey aThisExtensionsList done) := by
      rw [keys_override]
      exact Finset.mem_union_left _ hold
    obtain ⟨pre, q, suf, hsplit, hkey, hpre, hsuf⟩ := exists_split (hthis.override hdone) hmem
    have hcount : pre.length < aThisExtensionsList.length + done.length := by
      have hle : (override entryKey aThisExtensionsList done).length ≤
          aThisExtensionsList.length + done.length := by
        rw [override, List.length_append]
        exact Nat.add_le_add_right (List.length_filter_le _ _) _
      rw [hsplit, List.length_append, List.length_cons] at hle
      omega
    refine ⟨fun _ => ?_, fun hnot => absurd (fun hnew => absurd hold hnew) hnot⟩
    have hsearch : searchFor (fun q => strCompareA p.1 q.1 true)
        (aThisExtensionsList.length + done.length) (pre ++ q :: suf) = some (some pre.length) :=
      searchFor_name Prod.fst hpre hkey hcount
    rw [mergeExtension]
    dsimp only
    rw [hsplit, hsearch, without_split hkey hpre hsuf, List.length_append, Option.map_some]
    dsimp only
    rw [List.eraseIdx_append_of_length_le (Nat.le_refl _), Nat.sub_self, List.eraseIdx_cons_zero]
    rfl
  · have hnew : entryKey p ∉ keys entryKey (override entryKey aThisExtensionsList done) := by
      rw [keys_override]
      exact fun hmem => (Finset.mem_union.mp hmem).elim hold hp
    have hself : without entryKey [p] (override entryKey aThisExtensionsList done) =
        override entryKey aThisExtensionsList done := by
      refine without_eq_self fun k hk hmem => hnew ?_
      rw [keys_singleton, Finset.mem_singleton] at hmem
      exact hmem ▸ hk
    have htakes : TakesNext aThisExtensionsList done p ↔
        aThisExtensionsList.length + done.length ≤
          (override entryKey aThisExtensionsList done).length := by
      rw [count_le_iff hthis]
      exact ⟨fun h => h hold, fun h _ => h⟩
    have hsearch := searchFor_newName Prod.fst hnew (aThisExtensionsList.length + done.length)
    rw [htakes, hself, mergeExtension]
    dsimp only
    rw [hsearch]
    refine ⟨fun hle => ?_, fun hnot => ?_⟩
    · rw [if_pos hle, List.length_append]
      rfl
    · rw [if_neg hnot]
      rfl

/-- **A run over extensions**: they are put over the old ones, if each is stored as it is and taken,
and never else. -/
theorem run_mergeExtension_iff (rest : List (List Byte × List WChar)) :
    ∀ done : List (List Byte × List WChar), NodupKeys entryKey (done ++ rest) →
    ((∃ c, rest.foldlM (mergeExtension stored) (override entryKey aThisExtensionsList done,
        aThisExtensionsList.length + done.length) =
          some (override entryKey aThisExtensionsList (done ++ rest), c)) ↔
      ∀ d p r, rest = d ++ p :: r →
        stored p = p ∧ TakesNext aThisExtensionsList (done ++ d) p) := by
  induction rest with
  | nil =>
    intro done _
    refine iff_of_true ⟨_, by rw [List.append_nil]; rfl⟩ fun d p r hnil => ?_
    exact absurd hnil.symm (List.append_ne_nil_of_right_ne_nil _ (List.cons_ne_nil _ _))
  | cons p rest ih =>
    intro done hnodup
    have hassoc : done ++ p :: rest = done ++ [p] ++ rest := by
      rw [List.append_assoc]
      rfl
    rw [hassoc] at hnodup ⊢
    have hfirst := (nodupKeys_append.mp hnodup).1
    have hp : entryKey p ∉ keys entryKey done := fun hmem =>
      (nodupKeys_append.mp hfirst).2.2 _ hmem (mem_keys_of_mem List.mem_cons_self)
    obtain ⟨htakes, hnot⟩ := mergeExtension_step stored hthis hfirst
    have hnext := ih (done ++ [p]) hnodup
    rw [override_concat hp] at hnext
    constructor
    · rintro ⟨c, hrun⟩
      rw [List.foldlM_cons] at hrun
      have hp' : TakesNext aThisExtensionsList done p := by
        by_contra hwrong
        rw [hnot hwrong] at hrun
        cases hrun
      rw [htakes hp'] at hrun
      -- the place of the extension in the end is that of what was stored for it
      have hstored : stored p = p := by
        obtain ⟨s, t, heq, hs, ht⟩ := run_mergeExtension_append rest hrun
        have hplace : override entryKey aThisExtensionsList (done ++ [p] ++ rest) =
            (without entryKey (done ++ [p] ++ rest) aThisExtensionsList ++ done) ++ p :: rest := by
          rw [override, ← hassoc, List.append_assoc]
        have hlt : (without entryKey (done ++ [p] ++ rest) aThisExtensionsList ++ done).length <
            s.length := by
          have hlen := congrArg List.length (hplace.symm.trans heq)
          simp only [List.length_append, List.length_cons] at hlen ⊢
          omega
        have hget := congrArg (fun l : List (List Byte × List WChar) =>
          l[(without entryKey (done ++ [p] ++ rest) aThisExtensionsList ++ done).length]?)
          (hplace.symm.trans heq)
        rw [List.getElem?_append_right (Nat.le_refl _), Nat.sub_self, List.getElem?_cons_zero,
          List.getElem?_append_left hlt] at hget
        rcases List.mem_append.mp (hs.subset (List.mem_of_getElem? hget.symm)) with hmem | hmem
        · exact absurd (mem_keys_of_mem List.mem_cons_self) (mem_without.mp hmem).2
        · exact (List.mem_singleton.mp hmem).symm
      rw [hstored] at hrun
      have hall := hnext.mp ⟨c, hrun⟩
      intro d q r hrest
      cases d with
      | nil =>
        obtain ⟨rfl, -⟩ := List.cons.inj hrest
        rw [List.append_nil]
        exact ⟨hstored, hp'⟩
      | cons d₀ d =>
        obtain ⟨rfl, htail⟩ := List.cons.inj hrest
        have hq := hall d q r htail
        rwa [List.append_assoc] at hq
    · intro hall
      obtain ⟨hstored, hp'⟩ := hall [] p rest rfl
      rw [List.append_nil] at hp'
      rw [List.foldlM_cons, htakes hp', hstored]
      refine hnext.mpr fun d q r hrest => ?_
      rw [List.append_assoc]
      exact hall (p :: d) q r (congrArg (p :: ·) hrest)

/-- **When extensions are merged right**: each is stored as it is, and no new one comes behind one
that replaces another. -/
theorem mergesExtensions_iff {aExtensionsList : List (List Byte × List WChar)}
    (hnodup : NodupKeys entryKey aExtensionsList) :
    mergeExtensions stored aThisExtensionsList aExtensionsList =
        some (override entryKey aThisExtensionsList aExtensionsList) ↔
      (∀ p ∈ aExtensionsList, stored p = p) ∧ NewFirst aThisExtensionsList aExtensionsList := by
  have hrun := run_mergeExtension_iff stored hthis aExtensionsList [] hnodup
  rw [override_nil, List.length_nil, Nat.add_zero, List.nil_append] at hrun
  have hfirst : mergeExtensions stored aThisExtensionsList aExtensionsList =
      some (override entryKey aThisExtensionsList aExtensionsList) ↔
      ∃ c, aExtensionsList.foldlM (mergeExtension stored)
        (aThisExtensionsList, aThisExtensionsList.length) =
          some (override entryKey aThisExtensionsList aExtensionsList, c) := by
    rw [mergeExtensions, Option.map_eq_some_iff]
    constructor
    · rintro ⟨⟨r, c⟩, hr, rfl⟩
      exact ⟨c, hr⟩
    · rintro ⟨c, hr⟩
      exact ⟨_, hr, rfl⟩
  rw [hfirst, hrun]
  constructor
  · intro hall
    refine ⟨fun p hp => ?_, fun done p rest hsplit => (hall done p rest hsplit).2⟩
    obtain ⟨done, rest, hsplit⟩ := List.append_of_mem hp
    exact (hall done p rest hsplit).1
  · rintro ⟨hstored, hnewFirst⟩ done p rest hsplit
    refine ⟨hstored p ?_, hnewFirst done p rest hsplit⟩
    rw [hsplit]
    exact List.mem_append_right _ List.mem_cons_self

end Run

end Extensions

/-- The fields of a directive that there may be. -/
theorem mergeFields_spec (bMerge : Bool) (cThisFieldsList cFieldsList : List (List Byte)) :
    ∃ r, mergeFields bMerge cThisFieldsList cFieldsList = some r ∧
      if bMerge then FieldsMerged cThisFieldsList cFieldsList r else r = cThisFieldsList := by
  cases bMerge with
  | false => exact ⟨cThisFieldsList, rfl, rfl⟩
  | true =>
    obtain ⟨r, hr, hmerged⟩ := run_mergeField cFieldsList cThisFieldsList
    refine ⟨r, ?_, hmerged⟩
    rw [mergeFields, if_pos rfl, hr]
    rfl

/-- **When Cache-Control is merged right**: it is up to the extensions. -/
theorem mergesCacheControl_iff (stored : List Byte × List WChar → List Byte × List WChar)
    (this other : Extensions) :
    MergesCacheControl stored this.header other.header ↔
      (∀ p ∈ other.header.aExtensionsList, stored p = p) ∧
        NewFirst this.header.aExtensionsList other.header.aExtensionsList := by
  obtain ⟨cPrivate, hprivate, hprivateMerged⟩ := mergeFields_spec other.header.bPrivate
    this.header.cPrivateFieldsList other.header.cPrivateFieldsList
  obtain ⟨cNoCache, hnoCache, hnoCacheMerged⟩ := mergeFields_spec other.header.bNoCache
    this.header.cNoCacheFieldsList other.header.cNoCacheFieldsList
  rw [← mergesExtensions_iff stored this.names other.names]
  constructor
  · rintro ⟨r, hr, hmerged⟩
    rw [mergeCacheControl, hprivate, hnoCache] at hr
    simp only [Option.bind_eq_bind, Option.bind_some] at hr
    obtain ⟨aExtensionsList, hext, heq⟩ := Option.bind_eq_some_iff.mp hr
    rw [hext, ← hmerged.aExtensionsList, ← Option.some.inj heq]
  · intro hext
    refine ⟨_, by rw [mergeCacheControl, hprivate, hnoCache, hext]; rfl, ?_⟩
    exact {
      bPublic := rfl
      bPrivate := rfl
      cPrivateFieldsList := hprivateMerged
      bNoCache := rfl
      cNoCacheFieldsList := hnoCacheMerged
      bNoStore := rfl
      bNoTransform := rfl
      bMustRevalidate := rfl
      bProxyRevalidate := rfl
      nMaxAge := ite_not _ _ _
      nSMaxAge := ite_not _ _ _
      aExtensionsList := rfl }

end CacheControl

/-! ### The three headers -/

/-- **When `Merge` keeps what is not its own**: a parameter that two items have is at the index of
the item when its turn comes, and the new extensions of Cache-Control come first and are stored as
they are. -/
theorem merges_iff (types types' : Items acceptMerge)
    (extensions extensions' : Items extensionMerge)
    (stored : List Byte × List WChar → List Byte × List WChar) (cache cache' : Extensions) :
    (MergesRight acceptMerge types.list types'.list ↔
      ∀ k t t', types.list[k]? = some t → t' ∈ types'.list →
        foldName t'.cStrTypeA = foldName t.cStrTypeA →
          RemovesRight k t.aParamsList t'.aParamsList) ∧
    (MergesRight extensionMerge extensions.list extensions'.list ↔
      ∀ k e e', extensions.list[k]? = some e → e' ∈ extensions'.list →
        foldName e'.cStrExtensionA = foldName e.cStrExtensionA →
          RemovesRight k e.aParamsList e'.aParamsList) ∧
    (MergesCacheControl stored cache.header cache'.header ↔
      (∀ p ∈ cache'.header.aExtensionsList, stored p = p) ∧
        NewFirst cache.header.aExtensionsList cache'.header.aExtensionsList) :=
  ⟨mergesRight_iff types types', mergesRight_iff extensions extensions',
    mergesCacheControl_iff stored cache cache'⟩

/-- `text/html;charset=a;level=1`, the first type of a header. -/
def htmlTypes : Items acceptMerge where
  list := [⟨ascii "text/html", 1, [(ascii "charset", [0x61]), (ascii "level", [0x31])]⟩]
  names := by decide
  params := by
    rintro t ht
    rw [List.mem_singleton.mp ht]
    decide

/-- `text/html;level=2` -/
def levelTypes : Items acceptMerge where
  list := [⟨ascii "text/html", 1, [(ascii "level", [0x32])]⟩]
  names := by decide
  params := by
    rintro t ht
    rw [List.mem_singleton.mp ht]
    decide

/-- `a=1` and then `a=2, b=3` -/
def oldExtension : RespCacheControl.Header :=
  { RespCacheControl.Header.create with aExtensionsList := [(ascii "a", [0x31])] }

def newExtensions : RespCacheControl.Header :=
  { RespCacheControl.Header.create with
    aExtensionsList := [(ascii "a", [0x32]), (ascii "b", [0x33])] }

/-- The level of a type is put over, and its character set is lost; and `b` is looked for behind the
end of a list that has `a` only. -/
theorem not_merges : ¬ MergesRight acceptMerge htmlTypes.list levelTypes.list ∧
    mergeItems acceptMerge htmlTypes.list levelTypes.list =
      some [⟨ascii "text/html", 1, [(ascii "level", [0x31]), (ascii "level", [0x32])]⟩] ∧
    ¬ MergesCacheControl id oldExtension newExtensions ∧
    mergeCacheControl id oldExtension newExtensions = none := by
  have hnone : mergeCacheControl id oldExtension newExtensions = none := by decide
  refine ⟨fun hright => ?_, by decide, fun hmerges => ?_, hnone⟩
  · have hall := (mergesRight_iff htmlTypes levelTypes).mp hright 0 _ _ rfl List.mem_cons_self rfl
    have hindex := hall [] (ascii "level", [0x32]) [] rfl [(ascii "charset", [0x61])]
      (ascii "level", [0x31]) [] rfl rfl
    exact absurd hindex (by decide)
  · obtain ⟨r, hr, -⟩ := hmerges
    rw [hnone] at hr
    cases hr

end MxLib.Http.Merge
