import MxLib.Http.UrlFidelity
import MxLib.Http.UrlHostNames
import MxLib.Http.UrlWide

/-!
# Wide copies of narrow URLs

`widen` copies a narrow text character by character.  The functions of the wide parser do
with the copy what those of the narrow one do with the text, as long as nothing is decoded:
they find the same characters, so that the parts of the copy are the copies of the parts.
Characters of ASCII but the percent and the plus sign are decoded to themselves.
-/

namespace MxLib.Http

/-- The wide copy of a narrow text. -/
def widen (szStrA : List Byte) : List WChar := szStrA.map UInt8.toUInt16

@[simp] theorem widen_cons (ch : Byte) (szStrA : List Byte) :
    widen (ch :: szStrA) = ch.toUInt16 :: widen szStrA := rfl

@[simp] theorem widen_append (szStrA szStrA' : List Byte) :
    widen (szStrA ++ szStrA') = widen szStrA ++ widen szStrA' := List.map_append

@[simp] theorem length_widen (szStrA : List Byte) : (widen szStrA).length = szStrA.length :=
  List.length_map _

@[simp] theorem widen_take (szStrA : List Byte) (n : Nat) :
    (widen szStrA).take n = widen (szStrA.take n) := List.map_take.symm

@[simp] theorem widen_drop (szStrA : List Byte) (n : Nat) :
    (widen szStrA).drop n = widen (szStrA.drop n) := List.map_drop.symm

@[simp] theorem widen_eq_nil {szStrA : List Byte} : widen szStrA = [] ↔ szStrA = [] :=
  List.map_eq_nil_iff

theorem widen_inj {szStrA szStrA' : List Byte} : widen szStrA = widen szStrA' ↔ szStrA = szStrA' :=
  map_toUInt16_inj

theorem toUInt16_beq (ch ch' : Byte) : (ch.toUInt16 == ch'.toUInt16) = (ch == ch') := by
  rw [Bool.eq_iff_iff, beq_iff_eq, beq_iff_eq, toUInt16_inj]

theorem toUInt16_eq_zero {ch : Byte} : ch.toUInt16 = 0 ↔ ch = 0 := @toUInt16_inj ch 0

theorem mem_widen {szStrA : List Byte} {ch : Byte} : ch.toUInt16 ∈ widen szStrA ↔ ch ∈ szStrA := by
  constructor
  · intro h
    obtain ⟨ch', hch', heq⟩ := List.mem_map.mp h
    exact toUInt16_inj.mp heq ▸ hch'
  · intro h
    exact List.mem_map_of_mem h

theorem contains_widen (szStrA : List Byte) (ch : Byte) :
    (widen szStrA).contains ch.toUInt16 = szStrA.contains ch := by
  rw [Bool.eq_iff_iff, List.contains_iff_mem, List.contains_iff_mem, mem_widen]

theorem takeWhile_widen {p : Byte → Bool} {q : WChar → Bool} (h : ∀ ch, q ch.toUInt16 = p ch)
    (szStrA : List Byte) : (widen szStrA).takeWhile q = widen (szStrA.takeWhile p) := by
  rw [widen, List.takeWhile_map]
  exact congrArg (fun p => widen (szStrA.takeWhile p)) (funext h)

theorem szStr_widen (szStrA : List Byte) : szStr (widen szStrA) = widen (szStr szStrA) :=
  takeWhile_widen (fun ch => congrArg (! ·) (toUInt16_beq ch 0)) szStrA

theorem isEmptyStr_widen (szStrA : List Byte) : isEmptyStr (widen szStrA) = isEmptyStr szStrA := by
  rw [isEmptyStr, isEmptyStr, widen, charAt_widen]
  exact toUInt16_beq _ 0

/-! ### Parts -/

/-- **The wide search finds the copy of what the narrow one finds.** -/
theorem findCharW_widen (szToFindA szStopCharA szStrA : List Byte) :
    findCharW (widen szToFindA) (widen szStopCharA) (widen szStrA) =
      findChar szToFindA szStopCharA szStrA := by
  induction szStrA with
  | nil => rfl
  | cons ch szStrA ih =>
    have hzero : (ch.toUInt16 == 0) = (ch == 0) := toUInt16_beq ch 0
    rw [widen_cons, findCharW, findChar, hzero, contains_widen, contains_widen, ih]

theorem setSchemeW_widen (szSchemeA : List Byte) :
    setSchemeW (widen szSchemeA) = setScheme szSchemeA := by
  rw [setSchemeW, setScheme, szStr_widen]
  rfl

/-- The copies of the parts of a URL. -/
def UrlParts.widen (parts : UrlParts) : UrlPartsW :=
  ⟨parts.cStrSchemeW, Http.widen parts.cStrTempHostA, Http.widen parts.rest⟩

theorem parsePortW_widen (nPort : Nat) (szPortA : List Byte) :
    parsePortW nPort (widen szPortA) = parsePort nPort szPortA := by
  induction szPortA generalizing nPort with
  | nil => rfl
  | cons ch szPortA ih =>
    have hlo : (0x30 ≤ ch.toUInt16) = (0x30 ≤ ch) := by
      rw [UInt16.le_iff_toNat_le, UInt8.le_iff_toNat_le, UInt8.toNat_toUInt16]
      rfl
    have hhi : (ch.toUInt16 ≤ 0x39) = (ch ≤ 0x39) := by
      rw [UInt16.le_iff_toNat_le, UInt8.le_iff_toNat_le, UInt8.toNat_toUInt16]
      rfl
    have hzero : (ch.toUInt16 != 0) = (ch != 0) := congrArg (! ·) (toUInt16_beq ch 0)
    simp only [widen_cons, parsePortW, parsePort, hlo, hhi, hzero, UInt8.toNat_toUInt16, ih]

theorem splitHostW_widen (cStrTempHostA : List Byte) :
    splitHostW (widen cStrTempHostA) =
      (splitHost cStrTempHostA).map fun x => (widen x.1, widen x.2.1, x.2.2) := by
  have hat : ∀ sA, findCharW (wide "@") [] (widen sA) = findChar (ascii "@") [] sA := fun sA =>
    findCharW_widen (ascii "@") [] sA
  have hcolon : ∀ sA, findCharW (wide ":") [] (widen sA) = findChar (ascii ":") [] sA := fun sA =>
    findCharW_widen (ascii ":") [] sA
  rw [splitHostW, splitHost, isEmptyStr_widen]
  split
  · rfl
  · rw [hat]
    rcases findChar (ascii "@") [] cStrTempHostA with - | - | nPos
    rotate_left
    · rfl
    all_goals
      simp only [widen_take, widen_drop, Option.map_none, Option.map_some, Option.getD_none,
        Option.getD_some, hcolon]
      -- what a colon leaves of the host is its port
      rcases findChar (ascii ":") [] _ with - | - | nPos
      · rfl
      · rfl
      · simp only [parsePortW_widen]
        rcases parsePort 0 _ with hRes | nPort
        · rfl
        · rfl

end MxLib.Http
