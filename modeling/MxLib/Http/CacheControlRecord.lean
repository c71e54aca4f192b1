import Mathlib.Data.Nat.Digits.Defs
import Mathlib.Order.CompletePartialOrder
import Mathlib.Order.Interval.Set.Basic
import MxLib.Http.HeaderBase
import MxLib.Memory

/-!
# The records of cache extensions

The two Cache-Control headers keep an extension in a block of its own: the address of the value,
the name and the value.  The value is put behind as many bytes as the name has, counted from the
start of the block; it should be counted from the start of the name.  So the value lies over the
end of the name, or over its own address if the name is short (`not_keepsExtension`).

A memory is a function from the address to the byte.  The address of the value has `nPointer`
bytes, 4 or 8.
-/

namespace MxLib.Http.CacheControl

/-- `sizeof(EXTENSION)`: an address, a character and what aligns them. -/
def sizeofExtension (nPointer : Nat) : Nat := nPointer + nPointer

/-- The bytes of an address, the lowest one first. -/
def pointerBytes (nPointer address : Nat) : List Byte :=
  (List.range nPointer).map fun k => UInt8.ofNat (address / 256 ^ k)

/-- The bytes of a wide text and of the zero that ends it. -/
def valueBytes (szValueW : List WChar) : List Byte :=
  szValueW.flatMap (fun chW : WChar => [chW.toUInt8, (chW >>> 8).toUInt8]) ++ [0, 0]

/-- `nValueLen` -/
def valueLen (szValueW : List WChar) : Nat := (szValueW.length + 1) * 2

section Record

variable (nPointer lpNew : Nat)

/-- The bytes that are asked for. -/
def allocated (szNameA : List Byte) (szValueW : List WChar) : Nat :=
  sizeofExtension nPointer + szNameA.length + valueLen szValueW

/-- A new record at `lpNew`: the memory after the name, its zero, the address of the value and the
value were stored. -/
def newExtension (mem : Nat → Byte) (szNameA : List Byte) (szValueW : List WChar) : Nat → Byte :=
  let nNameLen := szNameA.length
  let mem := memCopy mem (lpNew + nPointer) szNameA
  let mem := memCopy mem (lpNew + nPointer + nNameLen) [0]
  let mem := memCopy mem lpNew (pointerBytes nPointer (lpNew + nNameLen))
  memCopy mem (lpNew + nNameLen) (valueBytes szValueW)

/-- `AddExtension` of both headers: the memory with the new record. -/
def addExtension (mem : Nat → Byte) (szNameA : List Byte) (szValueW : List WChar) :
    Except HResult (Nat → Byte) :=
  if szNameA = [] || (getToken szNameA).2 != [] then .error .mxInvalidData
  else .ok (newExtension nPointer lpNew mem szNameA szValueW)

/-- The record that `Merge` of both headers makes of another. -/
def mergeExtension (mem : Nat → Byte) (szNameA : List Byte) (szValueW : List WChar) : Nat → Byte :=
  newExtension nPointer lpNew mem szNameA szValueW

/-! ### What is read of a record -/

/-- A narrow text that is read from an address on. -/
def ReadsA (mem : Nat → Byte) (address : Nat) (sA : List Byte) : Prop :=
  (∀ k < sA.length, mem (address + k) = charAt sA k ∧ charAt sA k ≠ 0) ∧
    mem (address + sA.length) = 0

/-- The unit at an address. -/
def unitAt (mem : Nat → Byte) (address : Nat) : WChar :=
  (mem address).toUInt16 ||| ((mem (address + 1)).toUInt16 <<< 8)

/-- A wide text that is read from an address on. -/
def ReadsW (mem : Nat → Byte) (address : Nat) (sW : List WChar) : Prop :=
  (∀ k < sW.length, unitAt mem (address + 2 * k) = charAt sW k ∧ charAt sW k ≠ 0) ∧
    unitAt mem (address + 2 * sW.length) = 0

/-- The address of the value, as it is read. -/
def loadPointer (mem : Nat → Byte) : Nat :=
  Nat.ofDigits 256 ((readBytes (fun k => mem (lpNew + k)) nPointer).map UInt8.toNat)

/-- The bytes of the address of the value. -/
def pointerRange : Set Nat := Set.Ico 0 nPointer

/-- The bytes of the name and of its zero. -/
def nameRange (szNameA : List Byte) : Set Nat :=
  Set.Ico nPointer (nPointer + szNameA.length + 1)

/-- The bytes of the value and of its zero. -/
def valueRange (szNameA : List Byte) (szValueW : List WChar) : Set Nat :=
  Set.Ico szNameA.length (szNameA.length + valueLen szValueW)

/-- A record that keeps a name and a value apart, and has them for the getters. -/
structure KeepsExtension (mem : Nat → Byte) (szNameA : List Byte) (szValueW : List WChar) :
    Prop where
  pointer_name : Disjoint (pointerRange nPointer) (nameRange nPointer szNameA)
  pointer_value : Disjoint (pointerRange nPointer) (valueRange szNameA szValueW)
  name_value : Disjoint (nameRange nPointer szNameA) (valueRange szNameA szValueW)
  inside : pointerRange nPointer ∪ nameRange nPointer szNameA ∪ valueRange szNameA szValueW ⊆
    Set.Ico 0 (allocated nPointer szNameA szValueW)
  name : ReadsA mem (lpNew + nPointer) szNameA
  value : ReadsW mem (loadPointer nPointer lpNew mem) szValueW

end Record

/-! ### The ranges -/

/-- **The first byte of the value** is one of the address, or one of the name. -/
theorem valueStart_taken (nPointer : Nat) (szNameA : List Byte) :
    szNameA.length ∈ pointerRange nPointer ∪ nameRange nPointer szNameA := by
  rcases Nat.lt_or_ge szNameA.length nPointer with hlt | hge
  · exact .inl ⟨Nat.zero_le _, hlt⟩
  · exact .inr ⟨hge, by omega⟩

theorem valueStart_mem (szNameA : List Byte) (szValueW : List WChar) :
    szNameA.length ∈ valueRange szNameA szValueW := by
  refine ⟨Nat.le_refl _, ?_⟩
  rw [valueLen]
  omega

/-- **No record keeps its extension apart.** -/
theorem not_keeps (nPointer lpNew : Nat) (mem : Nat → Byte) (szNameA : List Byte)
    (szValueW : List WChar) : ¬ KeepsExtension nPointer lpNew mem szNameA szValueW := by
  intro h
  have hvalue := valueStart_mem szNameA szValueW
  rcases valueStart_taken nPointer szNameA with hpointer | hname
  · exact Set.disjoint_left.mp h.pointer_value hpointer hvalue
  · exact Set.disjoint_left.mp h.name_value hname hvalue

/-- The rest is as it should be: all is inside the block, and the name is behind the address. -/
theorem ranges_inside {nPointer : Nat} (szNameA : List Byte) (szValueW : List WChar)
    (hpos : 0 < nPointer) :
    Disjoint (pointerRange nPointer) (nameRange nPointer szNameA) ∧
      pointerRange nPointer ∪ nameRange nPointer szNameA ∪ valueRange szNameA szValueW ⊆
        Set.Ico 0 (allocated nPointer szNameA szValueW) := by
  constructor
  · refine Set.disjoint_left.mpr fun k hpointer hname => ?_
    exact absurd hpointer.2 (Nat.not_lt.mpr hname.1)
  · rintro k ((hk | hk) | hk)
    all_goals
      refine ⟨Nat.zero_le _, ?_⟩
      have hlt := hk.2
      simp only [allocated, sizeofExtension, valueLen] at hlt ⊢
      omega

theorem length_valueBytes (szValueW : List WChar) :
    (valueBytes szValueW).length = valueLen szValueW := by
  induction szValueW with
  | nil => rfl
  | cons chW szValueW ih =>
    rw [valueBytes, List.length_append, valueLen] at ih
    rw [valueBytes, List.flatMap_cons, List.append_assoc, List.length_append, List.length_append,
      ih, valueLen, List.length_cons, List.length_cons, List.length_cons, List.length_nil]
    omega

/-- What was stored is read where it was stored. -/
theorem memCopy_inside {mem : Nat → Byte} {nOffset k : Nat} {data : List Byte}
    (hlo : nOffset ≤ k) (hhi : k < nOffset + data.length) :
    memCopy mem nOffset data k = data.getD (k - nOffset) 0 := by
  rw [memCopy, if_pos ⟨hlo, hhi⟩]

/-- The rest of the memory is as it was. -/
theorem memCopy_outside {mem : Nat → Byte} {nOffset k : Nat} {data : List Byte}
    (h : k < nOffset ∨ nOffset + data.length ≤ k) : memCopy mem nOffset data k = mem k := by
  rw [memCopy, if_neg (by omega)]

/-- **A record stays in its block**: no other byte is stored to. -/
theorem newExtension_outside {nPointer lpNew k : Nat} (mem : Nat → Byte) {szNameA : List Byte}
    {szValueW : List WChar} (hpos : 0 < nPointer)
    (h : k < lpNew ∨ lpNew + allocated nPointer szNameA szValueW ≤ k) :
    newExtension nPointer lpNew mem szNameA szValueW k = mem k := by
  have hvalue := length_valueBytes szValueW
  have hpointer : (pointerBytes nPointer (lpNew + szNameA.length)).length = nPointer := by
    rw [pointerBytes, List.length_map, List.length_range]
  simp only [allocated, sizeofExtension] at h
  rw [newExtension, memCopy_outside (by omega), memCopy_outside (by omega),
    memCopy_outside (by rw [List.length_singleton]; omega), memCopy_outside (by omega)]

/-! ### What becomes of the name -/

/-- **A name that is longer than an address is cut short** by the value, if its first unit is a
character of one byte, or the zero at its end. -/
theorem not_readsA_name {nPointer : Nat} (lpNew : Nat) (mem : Nat → Byte) {szNameA : List Byte}
    {szValueW : List WChar} (hpointer : 2 ≤ nPointer) (hlong : nPointer ≤ szNameA.length)
    (hvalue : (charAt szValueW 0).toNat < 0x100) :
    ¬ ReadsA (newExtension nPointer lpNew mem szNameA szValueW) (lpNew + nPointer) szNameA := by
  intro hreads
  -- the second byte of the value is a zero, and in the middle of the name
  have hzero : newExtension nPointer lpNew mem szNameA szValueW
      (lpNew + nPointer + (szNameA.length - nPointer + 1)) = 0 := by
    rw [newExtension, memCopy_inside (by omega) (by rw [length_valueBytes, valueLen]; omega),
      show lpNew + nPointer + (szNameA.length - nPointer + 1) - (lpNew + szNameA.length) = 1 by
        omega]
    cases szValueW with
    | nil => rfl
    | cons chW szValueW =>
      change (chW >>> 8).toUInt8 = 0
      rw [charAt_cons_zero] at hvalue
      refine UInt8.toNat_inj.mp ?_
      rw [UInt16.toNat_toUInt8, UInt16.toNat_shiftRight, Nat.shiftRight_eq_div_pow]
      have hdiv : chW.toNat / 2 ^ 8 = 0 := Nat.div_eq_of_lt hvalue
      change chW.toNat / 2 ^ 8 % 2 ^ 8 = 0
      rw [hdiv]
  obtain ⟨hsame, hne⟩ := hreads.1 (szNameA.length - nPointer + 1) (by omega)
  exact hne (hsame.symm.trans hzero)

/-- **No cache extension is kept apart**, added or merged. -/
theorem not_keepsExtension (nPointer lpNew : Nat) (mem : Nat → Byte) (szNameA : List Byte)
    (szValueW : List WChar) :
    (∀ mem', addExtension nPointer lpNew mem szNameA szValueW = .ok mem' →
      ¬ KeepsExtension nPointer lpNew mem' szNameA szValueW) ∧
    ¬ KeepsExtension nPointer lpNew (mergeExtension nPointer lpNew mem szNameA szValueW) szNameA
      szValueW :=
  ⟨fun _ _ => not_keeps _ _ _ _ _, not_keeps _ _ _ _ _⟩

/-- The extension `community="UCI"` is taken, and its name is not read again. -/
theorem not_keepsExtension_community :
    ∃ mem', addExtension 8 0x1000 (fun _ => 0) (ascii "community") [0x55, 0x43, 0x49] = .ok mem' ∧
      ¬ KeepsExtension 8 0x1000 mem' (ascii "community") [0x55, 0x43, 0x49] ∧
      ReadsA mem' 0x1008 (ascii "cU") := by
  refine ⟨_, rfl, fun hkeeps => ?_, ?_⟩
  · exact not_readsA_name 0x1000 _ (by decide) (by decide) (by decide) hkeeps.name
  · exact ⟨by decide, by decide⟩

end MxLib.Http.CacheControl
