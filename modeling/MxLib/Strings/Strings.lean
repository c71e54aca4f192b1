import MxLib.Defines

/-!
# Strings

A `CStringA` is the list of its bytes, a `CStringW` the list of its units; both
keep their length beside the text, so either may hold a zero.  Code that takes
the text as an `LPCSTR` sees it up to the first zero only, which is `szStr`.
-/

namespace MxLib

/-- The text a function sees that is given only the address: it ends at the first
zero. -/
def szStr {α : Type} [BEq α] [OfNat α 0] (cStr : List α) : List α := cStr.takeWhile (· != 0)

/-- `szStr[k]`, with the zero that ends every string. -/
def charAt {α : Type} [OfNat α 0] (cStr : List α) (k : Nat) : α := cStr.getD k 0

/-- `cStr.IsEmpty()`: the first character is the end of the string. -/
def isEmptyStr {α : Type} [BEq α] [OfNat α 0] (cStr : List α) : Bool := charAt cStr 0 == 0

/-- `cStr.Insert(src, k)` -/
def insertStr {α : Type} (cStr : List α) (k : Nat) (src : List α) : List α :=
  cStr.take k ++ src ++ cStr.drop k

/-- `cStr.Delete(k, n)` -/
def deleteStr {α : Type} (cStr : List α) (k n : Nat) : List α := cStr.take k ++ cStr.drop (k + n)

def lowerA (ch : Byte) : Byte := if 0x41 ≤ ch && ch ≤ 0x5A then ch + 0x20 else ch

def lowerW (ch : WChar) : WChar := if 0x41 ≤ ch && ch ≤ 0x5A then ch + 0x20 else ch

/-- `StrNCompareA(szSrcA1, szSrcA2, nLen, bCaseInsensitive) == 0` -/
def strNCompareA (szSrcA1 szSrcA2 : List Byte) (nLen : Nat) (bCaseInsensitive : Bool) : Bool :=
  let fold (sA : List Byte) := if bCaseInsensitive then sA.map lowerA else sA
  fold ((szStr szSrcA1).take nLen) == fold ((szStr szSrcA2).take nLen)

/-- `StrNCompareW(szSrcW1, szSrcW2, nLen, bCaseInsensitive) == 0` -/
def strNCompareW (szSrcW1 szSrcW2 : List WChar) (nLen : Nat) (bCaseInsensitive : Bool) : Bool :=
  let fold (sW : List WChar) := if bCaseInsensitive then sW.map lowerW else sW
  fold ((szStr szSrcW1).take nLen) == fold ((szStr szSrcW2).take nLen)

/-- `StrCompareA(szSrcA1, szSrcA2, bCaseInsensitive) == 0` -/
def strCompareA (szSrcA1 szSrcA2 : List Byte) (bCaseInsensitive : Bool) : Bool :=
  let fold (sA : List Byte) := if bCaseInsensitive then sA.map lowerA else sA
  fold (szStr szSrcA1) == fold (szStr szSrcA2)

/-- `StrCompareW(szSrcW1, szSrcW2, bCaseInsensitive) == 0` -/
def strCompareW (szSrcW1 szSrcW2 : List WChar) (bCaseInsensitive : Bool) : Bool :=
  let fold (sW : List WChar) := if bCaseInsensitive then sW.map lowerW else sW
  fold (szStr szSrcW1) == fold (szStr szSrcW2)

/-- `StrNFindA(szSrcA, szToFindA, nLen) != NULL`, for the `nLen` bytes of the list. -/
def strNFindA (szToFindA : List Byte) : List Byte → Bool
  | [] => false
  | ch :: rest =>
    if szToFindA.isEmpty || (ch :: rest).length < szToFindA.length || ch == 0 then false
    else strNCompareA (ch :: rest) szToFindA szToFindA.length false || strNFindA szToFindA rest

/-- Two letters become a small one. -/
theorem lowerA_eq_iff {ch chA : Byte} (h : 0x61 ≤ chA) (h' : chA ≤ 0x7A) :
    lowerA ch = chA ↔ ch = chA ∨ ch = chA - 0x20 := by
  rw [UInt8.le_iff_toNat_le] at h h'
  change 97 ≤ chA.toNat at h
  change chA.toNat ≤ 122 at h'
  have hch := ch.toNat_lt
  rw [lowerA, ← UInt8.toNat_inj, ← UInt8.toNat_inj, ← UInt8.toNat_inj, UInt8.toNat_sub]
  change (if (0x41 : UInt8) ≤ ch && ch ≤ 0x5A then ch + 0x20 else ch).toNat = _ ↔ _
  split
  · rename_i hupper
    rw [Bool.and_eq_true, decide_eq_true_iff, decide_eq_true_iff, UInt8.le_iff_toNat_le,
      UInt8.le_iff_toNat_le] at hupper
    change 65 ≤ ch.toNat ∧ ch.toNat ≤ 90 at hupper
    rw [UInt8.toNat_add]
    change (ch.toNat + 32) % 2 ^ 8 = _ ↔ _ ∨ _ = (2 ^ 8 - 32 + chA.toNat) % 2 ^ 8
    omega
  · rename_i hupper
    rw [Bool.and_eq_true, decide_eq_true_iff, decide_eq_true_iff, UInt8.le_iff_toNat_le,
      UInt8.le_iff_toNat_le] at hupper
    change ¬ (65 ≤ ch.toNat ∧ ch.toNat ≤ 90) at hupper
    change _ ↔ _ ∨ _ = (2 ^ 8 - 32 + chA.toNat) % 2 ^ 8
    omega

theorem lowerW_eq_iff {ch chW : WChar} (h : 0x61 ≤ chW) (h' : chW ≤ 0x7A) :
    lowerW ch = chW ↔ ch = chW ∨ ch = chW - 0x20 := by
  rw [UInt16.le_iff_toNat_le] at h h'
  change 97 ≤ chW.toNat at h
  change chW.toNat ≤ 122 at h'
  have hch := ch.toNat_lt
  rw [lowerW, ← UInt16.toNat_inj, ← UInt16.toNat_inj, ← UInt16.toNat_inj, UInt16.toNat_sub]
  change (if (0x41 : UInt16) ≤ ch && ch ≤ 0x5A then ch + 0x20 else ch).toNat = _ ↔ _
  split
  · rename_i hupper
    rw [Bool.and_eq_true, decide_eq_true_iff, decide_eq_true_iff, UInt16.le_iff_toNat_le,
      UInt16.le_iff_toNat_le] at hupper
    change 65 ≤ ch.toNat ∧ ch.toNat ≤ 90 at hupper
    rw [UInt16.toNat_add]
    change (ch.toNat + 32) % 2 ^ 16 = _ ↔ _ ∨ _ = (2 ^ 16 - 32 + chW.toNat) % 2 ^ 16
    omega
  · rename_i hupper
    rw [Bool.and_eq_true, decide_eq_true_iff, decide_eq_true_iff, UInt16.le_iff_toNat_le,
      UInt16.le_iff_toNat_le] at hupper
    change ¬ (65 ≤ ch.toNat ∧ ch.toNat ≤ 90) at hupper
    change _ ↔ _ ∨ _ = (2 ^ 16 - 32 + chW.toNat) % 2 ^ 16
    omega

@[simp] theorem szStr_nil {α : Type} [BEq α] [OfNat α 0] : szStr ([] : List α) = [] := rfl

@[simp] theorem charAt_nil {α : Type} [OfNat α 0] (k : Nat) : charAt ([] : List α) k = 0 := rfl

@[simp] theorem charAt_cons_zero {α : Type} [OfNat α 0] (ch : α) (rest : List α) :
    charAt (ch :: rest) 0 = ch := rfl

@[simp] theorem charAt_cons_succ {α : Type} [OfNat α 0] (ch : α) (rest : List α) (k : Nat) :
    charAt (ch :: rest) (k + 1) = charAt rest k := rfl

@[simp] theorem isEmptyStr_nil {α : Type} [BEq α] [ReflBEq α] [OfNat α 0] :
    isEmptyStr ([] : List α) = true := by
  simp [isEmptyStr]

theorem charAt_of_length_le {α : Type} [OfNat α 0] {cStr : List α} {k : Nat}
    (h : cStr.length ≤ k) : charAt cStr k = 0 :=
  by simp [charAt, List.getElem?_eq_none h]

theorem charAt_map {α β : Type} [OfNat α 0] [OfNat β 0] (f : α → β) (hzero : f 0 = 0) (cStr : List α)
    (k : Nat) : charAt (cStr.map f) k = f (charAt cStr k) := by
  rw [charAt, charAt, List.getD_eq_getElem?_getD, List.getD_eq_getElem?_getD, List.getElem?_map]
  cases cStr[k]? with
  | none => exact hzero.symm
  | some ch => rfl

/-- What follows a text that the index has passed. -/
theorem charAt_append_add {α : Type} [OfNat α 0] (pre suf : List α) (k : Nat) :
    charAt (pre ++ suf) (pre.length + k) = charAt suf k := by
  rw [charAt, charAt, List.getD_eq_getElem?_getD, List.getD_eq_getElem?_getD,
    List.getElem?_append_right (Nat.le_add_right _ _), Nat.add_sub_cancel_left]

theorem charAt_append_length {α : Type} [OfNat α 0] (pre suf : List α) :
    charAt (pre ++ suf) pre.length = charAt suf 0 :=
  charAt_append_add pre suf 0

theorem deleteStr_append {α : Type} (pre suf : List α) (n : Nat) :
    deleteStr (pre ++ suf) pre.length n = pre ++ suf.drop n := by
  rw [deleteStr, List.take_left, List.drop_append]
  simp

theorem insertStr_append {α : Type} (pre suf src : List α) :
    insertStr (pre ++ suf) pre.length src = pre ++ (src ++ suf) := by
  rw [insertStr, List.take_left, List.drop_left, List.append_assoc]

/-- The text behind a character that was found. -/
theorem drop_append_cons {α : Type} (l : List α) (ch : α) (r : List α) :
    (l ++ ch :: r).drop (l.length + 1) = r := by
  rw [List.append_cons, List.drop_left' (by rw [List.length_append, List.length_singleton])]

/-- The text ends before its zeros. -/
theorem szStr_append_of_charAt {α : Type} [BEq α] [LawfulBEq α] [OfNat α 0] {p t : List α}
    (hp : (0 : α) ∉ p) (ht : charAt t 0 = 0) : szStr (p ++ t) = p := by
  rw [szStr, List.takeWhile_append_of_pos]
  · cases t with
    | nil => simp
    | cons ch t =>
      rw [charAt_cons_zero] at ht
      simp [ht]
  · intro ch hch
    simp only [bne_iff_ne]
    rintro rfl
    exact hp hch

theorem szStr_of_ne_zero {α : Type} [BEq α] [LawfulBEq α] [OfNat α 0] {s : List α}
    (h : ∀ ch ∈ s, ch ≠ 0) : szStr s = s := by
  have happ := szStr_append_of_charAt (t := []) (fun hz => h 0 hz rfl) rfl
  rwa [List.append_nil] at happ

theorem isEmptyStr_of_ne_zero {α : Type} [BEq α] [LawfulBEq α] [OfNat α 0] {s : List α}
    (h : ∀ ch ∈ s, ch ≠ 0) (hne : s ≠ []) : isEmptyStr s = false := by
  obtain ⟨ch, tail, rfl⟩ := List.exists_cons_of_ne_nil hne
  exact beq_eq_false_iff_ne.mpr (h ch List.mem_cons_self)

/-- Every string is a text without zeros, and the rest that starts with one. -/
theorem exists_szStr_append {α : Type} [BEq α] [LawfulBEq α] [OfNat α 0] (cStr : List α) :
    ∃ t, cStr = szStr cStr ++ t ∧ (0 : α) ∉ szStr cStr ∧ charAt t 0 = 0 := by
  refine ⟨cStr.dropWhile (· != 0), List.takeWhile_append_dropWhile.symm, ?_, ?_⟩
  · intro h
    have hall := List.all_takeWhile (p := fun ch => ch != (0 : α)) (l := cStr)
    simpa using List.all_eq_true.mp hall 0 h
  · cases h : cStr.dropWhile (· != 0) with
    | nil => rfl
    | cons ch t =>
      have hch := List.head_dropWhile_not (· != (0 : α)) (l := cStr) (by simp [h])
      simpa [h] using hch

/-- A string without zeros that looks empty is empty. -/
theorem eq_nil_of_isEmptyStr {α : Type} [BEq α] [LawfulBEq α] [OfNat α 0] {cStr : List α}
    (hnz : (0 : α) ∉ cStr) (h : isEmptyStr cStr = true) : cStr = [] := by
  cases cStr with
  | nil => rfl
  | cons ch rest =>
    rw [isEmptyStr, charAt_cons_zero, beq_iff_eq] at h
    exact absurd (List.mem_cons.mpr (Or.inl h.symm)) hnz

end MxLib
