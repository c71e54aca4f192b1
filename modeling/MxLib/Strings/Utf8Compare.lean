import Mathlib.Data.Int.Order.Basic
import MxLib.Memory
import MxLib.Strings.Utf8RoundTrip

/-!
# Comparing UTF-8 with UTF-16

`Utf8_StrLen` compares its bytes with `0x80` as the signed characters they are, so it counts all of
them as characters.  `Utf8_StrCompareW` then takes every UTF-8 text that is not ASCII for a longer
one than it is: an equal one comes after the UTF-16 text, and a block may be read past the end of
the text, where anything may be.

A text has no zero.  What is behind the zero that ends a UTF-8 text is a function from the index to
the byte.  The comparisons give a difference, of which only the sign is used.
-/

namespace MxLib.Compare

open MxLib.Library.Unicode

/-! ### UTF-16 texts -/

/-- A unit as it is compared. -/
def foldW (bCaseInsensitive : Bool) (chW : WChar) : WChar :=
  if bCaseInsensitive then lowerW chW else chW

/-- `wcsncmp` and `_wcsnicmp`: the difference of the first units that differ. -/
def wcsncmp (bCaseInsensitive : Bool) : Nat → List WChar → List WChar → Int
  | 0, _, _ => 0
  | nLen + 1, szSrcW1, szSrcW2 =>
    let chW1 := foldW bCaseInsensitive (charAt szSrcW1 0)
    let chW2 := foldW bCaseInsensitive (charAt szSrcW2 0)
    if chW1 ≠ chW2 then (chW1.toNat : Int) - chW2.toNat
    else if chW1 = 0 then 0
    else wcsncmp bCaseInsensitive nLen (szSrcW1.drop 1) (szSrcW2.drop 1)

/-- `StrNCompareW` -/
def strNCompareW (szSrcW1 szSrcW2 : List WChar) (nLen : Nat) (bCaseInsensitive : Bool) : Int :=
  if nLen = 0 then 0 else wcsncmp bCaseInsensitive nLen szSrcW1 szSrcW2

/-- `nLen1 ^ ((nLen0 ^ nLen1) & -(nLen0 < nLen1))`: a value `& -1` is the value, and `& 0` is 0. -/
def minLen (nLen0 nLen1 : Nat) : Nat :=
  nLen1 ^^^ (if nLen0 < nLen1 then nLen0 ^^^ nLen1 else 0)

/-- What `StrCompareW` and `Utf8_StrCompareW` do when the shorter text is the start of the other. -/
def compareLens (res : Int) (nLen0 nLen1 : Nat) : Int :=
  if res = 0 then
    if nLen0 < nLen1 then -1
    else if nLen0 > nLen1 then 1
    else res
  else res

/-- `StrCompareW` -/
def strCompareW (szSrcW1 szSrcW2 : List WChar) (bCaseInsensitive : Bool) : Int :=
  let nLen0 := szSrcW1.length
  let nLen1 := szSrcW2.length
  compareLens (strNCompareW szSrcW1 szSrcW2 (minLen nLen0 nLen1) bCaseInsensitive) nLen0 nLen1

/-! ### UTF-8 texts -/

/-- The loop of `Utf8_StrLen`. -/
def strLenFrom (nLen : Nat) : List Byte → Nat
  | [] => nLen
  | ch :: szSrcA =>
    if signedChar ch < 0x80 then strLenFrom (nLen + 1) szSrcA
    else if signedChar ch < 0xC2 ∨ signedChar ch > 0xF8 then 0
    else if signedChar ch ≤ 0xDF then
      match szSrcA with
      | _ :: szSrcA => strLenFrom (nLen + 1) szSrcA
      | _ => 0
    else if signedChar ch ≤ 0xEF then
      match szSrcA with
      | _ :: _ :: szSrcA => strLenFrom (nLen + 1) szSrcA
      | _ => 0
    else
      match szSrcA with
      | _ :: _ :: _ :: szSrcA => strLenFrom (nLen + 2) szSrcA
      | _ => 0

/-- `Utf8_StrLen` -/
def utf8StrLen (szSrcA : List Byte) : Nat := strLenFrom 0 szSrcA

/-- The text in memory, the zero that ends it and what is behind. -/
def textAt (szSrcUtf8 : List Byte) (lpBehind : Nat → Byte) (k : Nat) : Byte :=
  if k < szSrcUtf8.length then charAt szSrcUtf8 k
  else if k = szSrcUtf8.length then 0
  else lpBehind (k - szSrcUtf8.length - 1)

/-- `Utf8_DecodeChar` at a place in memory; it is given no length and reads four bytes at most. -/
def decodeAt (mem : Nat → Byte) (pos : Nat) : Option (WChar × WChar × Nat) :=
  utf8DecodeChar (readBytes (fun k => mem (pos + k)) 4)

/-- The inner loop of `Utf8_StrNCompareW`, with at most `fuel` characters left: `szTempBufW` and
the place behind what was read. -/
def fillBlock (mem : Nat → Byte) (nLen : Nat) : Nat → Nat → List WChar → Option (List WChar × Nat)
  | 0, pos, szTempBufW => some (szTempBufW, pos)
  | fuel + 1, pos, szTempBufW =>
    if szTempBufW.length < nLen ∧ szTempBufW.length < 63 then
      match decodeAt mem pos with
      | none => none
      | some (ch0, ch1, res) =>
        fillBlock mem nLen fuel (pos + res)
          (szTempBufW ++ if ch1 = 0 then [ch0] else [ch0, ch1])
    else some (szTempBufW, pos)

/-- The outer loop, with at most `fuel` blocks left. -/
def compareBlocks (mem : Nat → Byte) (bCaseInsensitive : Bool) :
    Nat → Nat → List WChar → Nat → Int
  | 0, _, _, _ => 0
  | fuel + 1, pos, szSrcW, nLen =>
    if nLen = 0 then 0
    else
      match fillBlock mem nLen 63 pos [] with
      | none => 1
      | some (szTempBufW, pos) =>
        let nTempBufLen := if szTempBufW.length > nLen then nLen else szTempBufW.length
        let res := strNCompareW szTempBufW szSrcW nTempBufLen bCaseInsensitive
        if res = 0 then
          compareBlocks mem bCaseInsensitive fuel pos (szSrcW.drop nTempBufLen) (nLen - nTempBufLen)
        else res

/-- `Utf8_StrNCompareW`: a block has at least one unit, so as many blocks as there are units are
enough. -/
def utf8StrNCompareW (mem : Nat → Byte) (szSrcW : List WChar) (nLen : Nat)
    (bCaseInsensitive : Bool) : Int :=
  compareBlocks mem bCaseInsensitive nLen 0 szSrcW nLen

/-- `Utf8_StrCompareW` -/
def utf8StrCompareW (szSrcUtf8 : List Byte) (lpBehind : Nat → Byte) (szSrcW : List WChar)
    (bCaseInsensitive : Bool) : Int :=
  let nLen0 := utf8StrLen szSrcUtf8
  let nLen1 := szSrcW.length
  compareLens (utf8StrNCompareW (textAt szSrcUtf8 lpBehind) szSrcW (minLen nLen0 nLen1)
    bCaseInsensitive) nLen0 nLen1

/-! ### The comparison unit by unit -/

section Units

variable (b : Bool)

theorem foldW_eq_zero {chW : WChar} : foldW b chW = 0 ↔ chW = 0 := by
  unfold foldW lowerW
  cases b with
  | false => rfl
  | true =>
    simp only [if_true]
    split
    case isTrue h =>
      simp only [Bool.and_eq_true, decide_eq_true_eq, UInt16.le_iff_toNat_le] at h
      simp only [← UInt16.toNat_inj, UInt16.toNat_add]
      simp only [UInt16.reduceToNat] at h ⊢
      omega
    case isFalse => rfl

theorem minLen_eq (nLen0 nLen1 : Nat) : minLen nLen0 nLen1 = min nLen0 nLen1 := by
  unfold minLen
  split
  case isTrue h =>
    rw [Nat.xor_comm nLen0, ← Nat.xor_assoc, Nat.xor_self, Nat.zero_xor]
    omega
  case isFalse h =>
    rw [Nat.xor_zero]
    omega

theorem charAt_drop {α : Type} [OfNat α 0] (s : List α) (i k : Nat) :
    charAt (s.drop i) k = charAt s (i + k) := by
  unfold charAt
  rw [List.getD_eq_getElem?_getD, List.getD_eq_getElem?_getD, List.getElem?_drop]

/-- The difference of the units at an index. -/
def unitDiff (s t : List WChar) (i : Nat) : Int :=
  ((foldW b (charAt s i)).toNat : Int) - (foldW b (charAt t i)).toNat

/-- The units are alike in front of the index, and the second text does not end there. -/
def AlikeTo (s t : List WChar) (i : Nat) : Prop :=
  ∀ k < i, foldW b (charAt s k) = foldW b (charAt t k) ∧ charAt t k ≠ 0

theorem charAt_append_left {α : Type} [OfNat α 0] {s t : List α} {k : Nat} (hk : k < s.length) :
    charAt (s ++ t) k = charAt s k := by
  unfold charAt
  rw [List.getD_eq_getElem?_getD, List.getD_eq_getElem?_getD, List.getElem?_append_left hk]

/-- Units that are alike are stepped over. -/
theorem wcsncmp_skip {s t : List WChar} {i : Nat} (nLen : Nat) (h : AlikeTo b s t i) :
    wcsncmp b (i + nLen) s t = wcsncmp b nLen (s.drop i) (t.drop i) := by
  induction i generalizing s t with
  | zero => rw [Nat.zero_add, List.drop_zero, List.drop_zero]
  | succ i ih =>
    obtain ⟨heq, hne⟩ := h 0 (Nat.succ_pos i)
    have hzero : ¬ foldW b (charAt s 0) = 0 := by
      rw [heq, foldW_eq_zero]
      exact hne
    rw [show i + 1 + nLen = i + nLen + 1 by omega, wcsncmp, if_neg (not_not.mpr heq), if_neg hzero,
      ih, List.drop_drop, List.drop_drop, Nat.add_comm 1 i]
    intro k hk
    rw [charAt_drop, charAt_drop, Nat.add_comm 1 k]
    exact h (k + 1) (Nat.succ_lt_succ hk)

variable {b}

theorem strNCompareW_alike {s t : List WChar} {n : Nat} (h : AlikeTo b s t n) :
    strNCompareW s t n b = 0 := by
  unfold strNCompareW
  split
  · rfl
  · exact (wcsncmp_skip b 0 h).trans rfl

/-- The first units that differ decide. -/
theorem strNCompareW_diff {s t : List WChar} {i n : Nat} (h : AlikeTo b s t i) (hlt : i < n)
    (hne : foldW b (charAt s i) ≠ foldW b (charAt t i)) :
    strNCompareW s t n b = unitDiff b s t i := by
  obtain ⟨d, rfl⟩ := Nat.exists_eq_add_of_lt hlt
  rw [strNCompareW, if_neg (by omega), show i + d + 1 = i + (d + 1) by omega, wcsncmp_skip b _ h,
    wcsncmp, charAt_drop, charAt_drop, Nat.add_zero, if_pos hne]
  rfl

theorem unitDiff_ne_zero {s t : List WChar} {i : Nat}
    (hne : foldW b (charAt s i) ≠ foldW b (charAt t i)) : unitDiff b s t i ≠ 0 := by
  intro h
  apply hne
  apply UInt16.toNat_inj.mp
  unfold unitDiff at h
  omega

variable (b)

/-- The number of units that are alike at the start of two texts. -/
def alikeLength : List WChar → List WChar → Nat
  | u :: s, v :: t => if foldW b u = foldW b v then alikeLength s t + 1 else 0
  | _, _ => 0

variable {b}

theorem alikeLength_le (s t : List WChar) :
    alikeLength b s t ≤ s.length ∧ alikeLength b s t ≤ t.length := by
  induction s generalizing t with
  | nil => exact ⟨Nat.zero_le _, Nat.zero_le _⟩
  | cons u s ih =>
    cases t with
    | nil => exact ⟨Nat.zero_le _, Nat.zero_le _⟩
    | cons v t =>
      rw [alikeLength]
      split
      · exact ⟨Nat.succ_le_succ (ih t).1, Nat.succ_le_succ (ih t).2⟩
      · exact ⟨Nat.zero_le _, Nat.zero_le _⟩

theorem alikeTo_alikeLength {s t : List WChar} (ht : (0 : WChar) ∉ t) :
    AlikeTo b s t (alikeLength b s t) := by
  induction s generalizing t with
  | nil => exact fun k hk => absurd hk (Nat.not_lt_zero k)
  | cons u s ih =>
    cases t with
    | nil => exact fun k hk => absurd hk (Nat.not_lt_zero k)
    | cons v t =>
      rw [alikeLength]
      split
      case isTrue heq =>
        intro k hk
        cases k with
        | zero => exact ⟨heq, fun hv => ht (hv ▸ List.mem_cons_self)⟩
        | succ k =>
          rw [charAt_cons_succ, charAt_cons_succ]
          exact ih (fun h => ht (List.mem_cons_of_mem _ h)) k (Nat.lt_of_succ_lt_succ hk)
      case isFalse => exact fun k hk => absurd hk (Nat.not_lt_zero k)

/-- Behind them is a difference, unless both texts end. -/
theorem alikeLength_diff {s t : List WChar} (hs : (0 : WChar) ∉ s) (ht : (0 : WChar) ∉ t) :
    foldW b (charAt s (alikeLength b s t)) ≠ foldW b (charAt t (alikeLength b s t)) ∨
      alikeLength b s t = s.length ∧ alikeLength b s t = t.length := by
  induction s generalizing t with
  | nil =>
    cases t with
    | nil => exact .inr ⟨rfl, rfl⟩
    | cons v t =>
      left
      intro h
      have hv : v = 0 := (foldW_eq_zero b).mp (h.symm.trans ((foldW_eq_zero b).mpr rfl))
      exact ht (hv ▸ List.mem_cons_self)
  | cons u s ih =>
    cases t with
    | nil =>
      left
      intro h
      have hu : u = 0 := (foldW_eq_zero b).mp (h.trans ((foldW_eq_zero b).mpr rfl))
      exact hs (hu ▸ List.mem_cons_self)
    | cons v t =>
      rw [alikeLength]
      split
      case isTrue heq =>
        rcases ih (fun h => hs (List.mem_cons_of_mem _ h)) (fun h => ht (List.mem_cons_of_mem _ h))
          with hne | ⟨hs', ht'⟩
        · exact .inl hne
        · exact .inr ⟨congrArg (· + 1) hs', congrArg (· + 1) ht'⟩
      case isFalse hne => exact .inl hne

end Units

/-! ### Reading the units of a text -/

theorem readBytes_add (f : Nat → Byte) (m n : Nat) :
    readBytes f (m + n) = readBytes f m ++ readBytes (fun k => f (m + k)) n := by
  rw [readBytes, readBytes, readBytes, List.range_add, List.map_append, List.map_map]
  rfl

/-- What begins with some bytes is read so. -/
theorem readBytes_prefix {f : Nat → Byte} {l : List Byte} {n : Nat} (hn : l.length ≤ n)
    (h : ∀ k < l.length, l[k]? = some (f k)) :
    readBytes f n = l ++ readBytes (fun k => f (l.length + k)) (n - l.length) := by
  have hl : readBytes f l.length = l := by
    apply List.ext_getElem?
    intro k
    by_cases hk : k < l.length
    · rw [getElem?_readBytes hk, h k hk]
    · rw [List.getElem?_eq_none (by simpa using hk), List.getElem?_eq_none (by simpa using hk)]
  rw [← Nat.add_sub_cancel' hn, readBytes_add, hl, Nat.add_sub_cancel_left]

theorem not_isHighSurrogate_of_isKept {u : WChar} (h : isKept u = true) :
    isHighSurrogate u = false := by
  have hu := (isKept_iff u).mp h
  rw [← Bool.not_eq_true, isHighSurrogate_iff]
  omega

theorem utf8Text_append {s : List WChar} (h : ∀ u ∈ s, isKept u = true) (s' : List WChar) :
    utf8Text (s ++ s') = utf8Text s ++ utf8Text s' := by
  induction s with
  | nil => rfl
  | cons u s ih =>
    obtain ⟨hu, hs⟩ := List.forall_mem_cons.mp h
    have hsingle := not_isHighSurrogate_of_isKept hu
    rw [List.cons_append, utf8Text_single hsingle, utf8Text_single hsingle, ih hs,
      List.append_assoc]

/-- Where the unit at an index begins; behind the text is the zero. -/
def unitPos (s : List WChar) (i : Nat) : Nat := (utf8Text (s.take i)).length + (i - s.length)

theorem unitPos_zero (s : List WChar) : unitPos s 0 = 0 := by
  rw [unitPos, Nat.zero_sub, List.take_zero]
  rfl

/-- **The units of a text are read one after the other**, and then the zero. -/
theorem decodeAt_unit {s : List WChar} (hs : ∀ u ∈ s, isKept u = true) (lpBehind : Nat → Byte)
    {i : Nat} (hi : i ≤ s.length) :
    ∃ res, decodeAt (textAt (utf8Text s) lpBehind) (unitPos s i) = some (charAt s i, 0, res) ∧
      unitPos s i + res = unitPos s (i + 1) := by
  rcases Nat.lt_or_eq_of_le hi with hlt | rfl
  · obtain ⟨u, hu⟩ : ∃ u, s[i]? = some u := ⟨_, List.getElem?_eq_getElem hlt⟩
    have hmem := List.mem_of_getElem? hu
    have htake : s.take (i + 1) = s.take i ++ [u] := by
      rw [List.take_add_one, hu]
      rfl
    have hfront : ∀ v ∈ s.take i, isKept v = true := fun v hv => hs v (List.mem_of_mem_take hv)
    have hfront' : ∀ v ∈ s.take (i + 1), isKept v = true := fun v hv => hs v (List.mem_of_mem_take hv)
    have hone : utf8Text [u] = utf8Bytes u.toNat := rfl
    have htext : utf8Text s = utf8Text (s.take i) ++ (utf8Bytes u.toNat ++
        utf8Text (s.drop (i + 1))) := by
      rw [← List.append_assoc, ← hone, ← utf8Text_append hfront, ← htake, ← utf8Text_append hfront',
        List.take_append_drop]
    have hpos : unitPos s i = (utf8Text (s.take i)).length := by
      rw [unitPos, Nat.sub_eq_zero_of_le hi, Nat.add_zero]
    have hbytes : ∀ k < (utf8Bytes u.toNat).length, (utf8Bytes u.toNat)[k]? =
        some (textAt (utf8Text s) lpBehind (unitPos s i + k)) := by
      intro k hk
      have hk' : unitPos s i + k < (utf8Text s).length := by
        rw [hpos, htext, List.length_append, List.length_append]
        omega
      have hat : (utf8Text s)[unitPos s i + k]? = (utf8Bytes u.toNat)[k]? := by
        rw [hpos, htext, List.getElem?_append_right (Nat.le_add_right _ _), Nat.add_sub_cancel_left,
          List.getElem?_append_left hk]
      rw [textAt, if_pos hk', charAt, List.getD_eq_getElem?_getD, hat, List.getElem?_eq_getElem hk]
      rfl
    refine ⟨(utf8Bytes u.toNat).length, ?_, ?_⟩
    · have hlen : (utf8Bytes u.toNat).length ≤ 4 :=
        Nat.le_trans (length_utf8Bytes_le u.toNat_lt) (by decide)
      have hchar : charAt s i = u := by
        rw [charAt, List.getD_eq_getElem?_getD, hu]
        rfl
      rw [decodeAt, readBytes_prefix hlen hbytes, utf8DecodeChar_single, if_pos (hs u hmem), hchar]
    · rw [hpos, unitPos, htake, utf8Text_append hfront, List.length_append, hone,
        Nat.sub_eq_zero_of_le hlt, Nat.add_zero]
  · have hpos : unitPos s s.length = (utf8Text s).length := by
      rw [unitPos, List.take_length, Nat.sub_self, Nat.add_zero]
    have hzero : ∀ k < [(0 : Byte)].length, [(0 : Byte)][k]? =
        some (textAt (utf8Text s) lpBehind (unitPos s s.length + k)) := by
      intro k hk
      obtain rfl : k = 0 := by simpa using hk
      rw [hpos, Nat.add_zero, textAt, if_neg (Nat.lt_irrefl _), if_pos rfl]
      rfl
    refine ⟨1, ?_, ?_⟩
    · rw [decodeAt, readBytes_prefix (by decide) hzero, List.singleton_append,
        utf8DecodeChar_ascii (by decide)]
      rw [show charAt s s.length = 0 from charAt_of_length_le (Nat.le_refl _)]
      rfl
    · rw [hpos, unitPos, List.take_of_length_le (Nat.le_succ _), Nat.add_sub_cancel_left]

/-- A byte behind the zero that begins no character is refused. -/
theorem decodeAt_behind (s : List WChar) :
    decodeAt (textAt (utf8Text s) fun _ => 0xFF) (unitPos s (s.length + 1)) = none := by
  have hpos : unitPos s (s.length + 1) = (utf8Text s).length + 1 := by
    rw [unitPos, List.take_of_length_le (Nat.le_succ _), Nat.add_sub_cancel_left]
  apply utf8DecodeChar_none
  right
  have hfirst : charAt (readBytes (fun k => textAt (utf8Text s) (fun _ => 0xFF)
      (unitPos s (s.length + 1) + k)) 4) 0 = 0xFF := by
    rw [charAt, List.getD_eq_getElem?_getD, getElem?_readBytes (by decide), hpos, Nat.add_zero,
      textAt, if_neg (by omega), if_neg (by omega)]
    rfl
  rw [hfirst]
  decide

/-- Whatever is decoded, it is one unit. -/
theorem utf8DecodeChar_one {sA : List Byte} {ch0 ch1 : WChar} {res : Nat}
    (h : utf8DecodeChar sA = some (ch0, ch1, res)) : ch1 = 0 := by
  by_cases h0 : (charAt sA 0).toNat < 0x80
  · have hascii : charAt sA 0 < 0x80 := by
      simpa only [UInt8.lt_iff_toNat_lt, UInt8.reduceToNat] using h0
    cases sA with
    | nil => cases h
    | cons ch rest =>
      rw [charAt_cons_zero] at hascii
      rw [utf8DecodeChar_ascii hascii] at h
      exact (Prod.mk.inj (Prod.mk.inj (Option.some.inj h)).2).1.symm
  by_cases h1 : (charAt sA 0).toNat < 0xC2 ∨ 0xF8 < (charAt sA 0).toNat
  · rw [utf8DecodeChar_none (by omega)] at h
    cases h
  by_cases h2 : (charAt sA 0).toNat ≤ 0xDF
  · rw [utf8DecodeChar_two (by omega) h2] at h
    split at h
    · exact (Prod.mk.inj (Prod.mk.inj (Option.some.inj h)).2).1.symm
    · cases h
  · rw [utf8DecodeChar_three (by omega) (by omega)] at h
    split at h
    · exact (Prod.mk.inj (Prod.mk.inj (Option.some.inj h)).2).1.symm
    · cases h

/-! ### The lengths -/

/-- The length that is counted is the number of bytes. -/
theorem utf8StrLen_eq (szSrcA : List Byte) : utf8StrLen szSrcA = szSrcA.length := by
  have hfrom : ∀ nLen, strLenFrom nLen szSrcA = nLen + szSrcA.length := by
    induction szSrcA with
    | nil => exact fun nLen => rfl
    | cons ch szSrcA ih =>
      intro nLen
      have hsigned : signedChar ch < 0x80 := by
        have hch := ch.toNat_lt
        unfold signedChar
        split
        case isTrue h =>
          rw [UInt8.lt_iff_toNat_lt] at h
          simp only [UInt8.reduceToNat] at h
          omega
        case isFalse => omega
      have hstep : strLenFrom nLen (ch :: szSrcA) = strLenFrom (nLen + 1) szSrcA := by
        rw [strLenFrom.eq_def nLen (ch :: szSrcA)]
        exact if_pos hsigned
      rw [hstep, ih, List.length_cons]
      omega
  rw [utf8StrLen, hfrom, Nat.zero_add]

theorem length_le_utf8Text {s : List WChar} (hs : ∀ u ∈ s, isKept u = true) :
    s.length ≤ (utf8Text s).length := by
  induction s with
  | nil => exact Nat.le_refl 0
  | cons u s ih =>
    obtain ⟨hu, hs⟩ := List.forall_mem_cons.mp hs
    have hpos := List.length_pos_of_ne_nil (utf8Bytes_ne_nil u.toNat)
    have ih := ih hs
    rw [utf8Text_single (not_isHighSurrogate_of_isKept hu), List.length_append, List.length_cons]
    omega

/-- The bytes are as many as the units exactly in ASCII text. -/
theorem length_utf8Text_eq_iff {s : List WChar} (hs : ∀ u ∈ s, isKept u = true) :
    (utf8Text s).length = s.length ↔ ∀ u ∈ s, u.toNat < 0x80 := by
  induction s with
  | nil => exact ⟨fun _ => List.forall_mem_nil _, fun _ => rfl⟩
  | cons u s ih =>
    obtain ⟨hu, hs⟩ := List.forall_mem_cons.mp hs
    have hle := length_le_utf8Text hs
    rw [utf8Text_single (not_isHighSurrogate_of_isKept hu), List.length_append, List.length_cons,
      List.forall_mem_cons, ← ih hs]
    by_cases hascii : u.toNat < 0x80
    · rw [length_utf8Bytes_ascii hascii]
      omega
    · have hlong := one_lt_length_utf8Bytes (Nat.not_lt.mp hascii)
      omega

/-! ### A block -/

section Blocks

variable {s : List WChar} {lpBehind : Nat → Byte}

/-- The units from an index on, with the zero behind the text. -/
def unitsFrom (s : List WChar) (i n : Nat) : List WChar := (List.range n).map fun k => charAt s (i + k)

@[simp] theorem length_unitsFrom (s : List WChar) (i n : Nat) : (unitsFrom s i n).length = n := by
  rw [unitsFrom, List.length_map, List.length_range]

theorem charAt_unitsFrom (s : List WChar) (i : Nat) {n k : Nat} (hk : k < n) :
    charAt (unitsFrom s i n) k = charAt s (i + k) := by
  rw [charAt, List.getD_eq_getElem?_getD, unitsFrom, List.getElem?_map, List.getElem?_range hk]
  rfl

theorem unitsFrom_succ (s : List WChar) (i n : Nat) :
    unitsFrom s i (n + 1) = unitsFrom s i n ++ [charAt s (i + n)] := by
  rw [unitsFrom, List.range_succ, List.map_append]
  rfl

/-- Units of the text are put into the block. -/
theorem fillBlock_units (hs : ∀ u ∈ s, isKept u = true) {nLen i n d : Nat} (fuel : Nat)
    (htext : i + n + d ≤ s.length + 1) (hlen : n + d ≤ nLen) (hmax : n + d ≤ 63) :
    fillBlock (textAt (utf8Text s) lpBehind) nLen (d + fuel) (unitPos s (i + n)) (unitsFrom s i n) =
      fillBlock (textAt (utf8Text s) lpBehind) nLen fuel (unitPos s (i + n + d))
        (unitsFrom s i (n + d)) := by
  induction d generalizing n with
  | zero => rw [Nat.zero_add, Nat.add_zero, Nat.add_zero]
  | succ d ih =>
    obtain ⟨res, hres, hnext⟩ := decodeAt_unit hs lpBehind (show i + n ≤ s.length by omega)
    have hroom : (unitsFrom s i n).length < nLen ∧ (unitsFrom s i n).length < 63 := by
      rw [length_unitsFrom]
      omega
    rw [show d + 1 + fuel = d + fuel + 1 by omega, fillBlock, if_pos hroom, hres]
    simp only [if_true]
    rw [hnext, ← unitsFrom_succ, show i + n + 1 = i + (n + 1) by omega,
      ih (by omega) (by omega) (by omega), show i + (n + 1) + d = i + n + (d + 1) by omega,
      show n + 1 + d = n + (d + 1) by omega]

/-- Whatever is read, the block is filled behind what it has. -/
theorem fillBlock_fills {mem : Nat → Byte} {nLen fuel pos : Nat} {szTempBufW : List WChar}
    (hlen : szTempBufW.length ≤ min nLen 63) (hfuel : min nLen 63 - szTempBufW.length ≤ fuel) :
    fillBlock mem nLen fuel pos szTempBufW = none ∨
      ∃ tail pos', fillBlock mem nLen fuel pos szTempBufW = some (szTempBufW ++ tail, pos') ∧
        (szTempBufW ++ tail).length = min nLen 63 := by
  induction fuel generalizing pos szTempBufW with
  | zero => exact .inr ⟨[], pos, by rw [List.append_nil]; rfl, by rw [List.append_nil]; omega⟩
  | succ fuel ih =>
    rw [fillBlock]
    split
    case isFalse hfull =>
      exact .inr ⟨[], pos, by rw [List.append_nil], by rw [List.append_nil]; omega⟩
    case isTrue hroom =>
      cases hdecode : decodeAt mem pos with
      | none => exact .inl rfl
      | some r =>
        obtain ⟨ch0, ch1, res⟩ := r
        obtain rfl := utf8DecodeChar_one hdecode
        simp only [if_true]
        have hlength : (szTempBufW ++ [ch0]).length = szTempBufW.length + 1 := List.length_append
        rcases @ih (pos + res) (szTempBufW ++ [ch0]) (by omega) (by omega) with
          hnone | ⟨tail, pos', hsome, hfilled⟩
        · exact .inl hnone
        · rw [List.append_assoc] at hsome hfilled
          exact .inr ⟨[ch0] ++ tail, pos', hsome, hfilled⟩

/-- A block that ends in the text or with its zero. -/
theorem fillBlock_inside (hs : ∀ u ∈ s, isKept u = true) {nLen i : Nat}
    (htext : i + min nLen 63 ≤ s.length + 1) :
    fillBlock (textAt (utf8Text s) lpBehind) nLen 63 (unitPos s i) [] =
      some (unitsFrom s i (min nLen 63), unitPos s (i + min nLen 63)) := by
  have hfill := @fillBlock_units s lpBehind hs nLen i 0 (min nLen 63) (63 - min nLen 63)
    (by omega) (by omega) (by omega)
  rw [show min nLen 63 + (63 - min nLen 63) = 63 by omega, Nat.add_zero, Nat.zero_add] at hfill
  refine hfill.trans ?_
  cases hfuel : 63 - min nLen 63 with
  | zero => rfl
  | succ fuel =>
    rw [fillBlock, if_neg (by rw [length_unitsFrom]; omega)]

/-- A block that goes on behind the zero: it has the units of the text and the zero, if what is
behind them can be read. -/
theorem fillBlock_behind (hs : ∀ u ∈ s, isKept u = true) {nLen i : Nat} (hi : i ≤ s.length)
    (htext : s.length + 1 < i + min nLen 63) :
    (fillBlock (textAt (utf8Text s) lpBehind) nLen 63 (unitPos s i) [] = none ∨
      ∃ tail pos', fillBlock (textAt (utf8Text s) lpBehind) nLen 63 (unitPos s i) [] =
          some (unitsFrom s i (s.length + 1 - i) ++ tail, pos') ∧
        (unitsFrom s i (s.length + 1 - i) ++ tail).length = min nLen 63) ∧
    (lpBehind = (fun _ => 0xFF) →
      fillBlock (textAt (utf8Text s) lpBehind) nLen 63 (unitPos s i) [] = none) := by
  have hfill := @fillBlock_units s lpBehind hs nLen i 0 (s.length + 1 - i) (63 - (s.length + 1 - i))
    (by omega) (by omega) (by omega)
  rw [show s.length + 1 - i + (63 - (s.length + 1 - i)) = 63 by omega, Nat.add_zero, Nat.zero_add,
    show i + (s.length + 1 - i) = s.length + 1 by omega] at hfill
  have hstart : fillBlock (textAt (utf8Text s) lpBehind) nLen 63 (unitPos s i) [] =
      fillBlock (textAt (utf8Text s) lpBehind) nLen (63 - (s.length + 1 - i))
        (unitPos s (s.length + 1)) (unitsFrom s i (s.length + 1 - i)) := hfill
  rw [hstart]
  refine ⟨fillBlock_fills (by rw [length_unitsFrom]; omega) (by rw [length_unitsFrom]; omega), ?_⟩
  rintro rfl
  obtain ⟨fuel, hfuel⟩ : ∃ fuel, 63 - (s.length + 1 - i) = fuel + 1 :=
    ⟨62 - (s.length + 1 - i), by omega⟩
  rw [hfuel, fillBlock, if_pos (by rw [length_unitsFrom]; omega), decodeAt_behind]

end Blocks

/-! ### The texts -/

section Texts

variable {s t : List WChar} {b : Bool} {lpBehind : Nat → Byte}

theorem AlikeTo.drop {i n : Nat} (h : AlikeTo b s t (i + n)) :
    AlikeTo b (unitsFrom s i n) (t.drop i) n := by
  intro k hk
  rw [charAt_unitsFrom s i hk, charAt_drop]
  exact h (i + k) (Nat.add_lt_add_left hk i)

/-- Whole blocks that are alike are stepped over. -/
theorem compareBlocks_skip (hs : ∀ u ∈ s, isKept u = true) {i j n : Nat} (fuel : Nat)
    (halike : AlikeTo b s t (i + 63 * j)) (htext : i + 63 * j ≤ s.length + 1) (hn : 63 * j ≤ n) :
    compareBlocks (textAt (utf8Text s) lpBehind) b (j + fuel) (unitPos s i) (t.drop i) n =
      compareBlocks (textAt (utf8Text s) lpBehind) b fuel (unitPos s (i + 63 * j))
        (t.drop (i + 63 * j)) (n - 63 * j) := by
  induction j generalizing i n with
  | zero => rw [Nat.zero_add]; rfl
  | succ j ih =>
    have hmin : min n 63 = 63 := by omega
    have hfill := @fillBlock_inside s lpBehind hs n i (by omega)
    rw [hmin] at hfill
    have hblock : AlikeTo b (unitsFrom s i 63) (t.drop i) 63 :=
      AlikeTo.drop fun k hk => halike k (by omega)
    have hzero : strNCompareW (unitsFrom s i 63) (t.drop i) 63 b = 0 := strNCompareW_alike hblock
    rw [show j + 1 + fuel = j + fuel + 1 by omega, compareBlocks, if_neg (by omega), hfill]
    simp only [length_unitsFrom, gt_iff_lt, show ¬ n < 63 by omega, if_false, hzero, if_true,
      List.drop_drop]
    rw [ih (by rw [show i + 63 + 63 * j = i + 63 * (j + 1) by omega]; exact halike) (by omega)
      (by omega), show i + 63 + 63 * j = i + 63 * (j + 1) by omega,
      show n - 63 - 63 * j = n - 63 * (j + 1) by omega]

/-- Texts that are alike as far as they are compared. -/
theorem utf8StrNCompareW_alike (hs : ∀ u ∈ s, isKept u = true) {nLen : Nat}
    (halike : AlikeTo b s t nLen) (htext : nLen ≤ s.length) :
    utf8StrNCompareW (textAt (utf8Text s) lpBehind) t nLen b = 0 := by
  have hskip := @compareBlocks_skip s t b lpBehind hs 0 (nLen / 63) nLen (nLen - nLen / 63)
    (fun k hk => halike k (by omega)) (by omega) (by omega)
  rw [Nat.zero_add, show nLen / 63 + (nLen - nLen / 63) = nLen by omega,
    show nLen - 63 * (nLen / 63) = nLen % 63 by omega] at hskip
  rw [unitPos_zero, List.drop_zero] at hskip
  refine hskip.trans ?_
  cases hfuel : nLen - nLen / 63 with
  | zero => rfl
  | succ fuel =>
    rw [compareBlocks]
    split
    case isTrue => rfl
    case isFalse hrest =>
      have hmin : min (nLen % 63) 63 = nLen % 63 := by omega
      have hfill := @fillBlock_inside s lpBehind hs (nLen % 63) (63 * (nLen / 63)) (by omega)
      have hblock : AlikeTo b (unitsFrom s (63 * (nLen / 63)) (nLen % 63))
          (t.drop (63 * (nLen / 63))) (nLen % 63) :=
        AlikeTo.drop fun k hk => halike k (by omega)
      rw [hfill, hmin]
      simp only [length_unitsFrom, gt_iff_lt, Nat.lt_irrefl, if_false, strNCompareW_alike hblock,
        if_true, Nat.sub_self]
      cases fuel with
      | zero => rfl
      | succ fuel => rw [compareBlocks, if_pos rfl]

/-- The end of the block that has an index, in a comparison of `nLen` units. -/
def blockEnd (i nLen : Nat) : Nat := min (63 * (i / 63 + 1)) nLen

/-- A block with the units up to the first difference. -/
theorem strNCompareW_block {w : List WChar} {i j n : Nat} (halike : AlikeTo b s t (j + i))
    (hw : ∀ k ≤ i, charAt w k = charAt s (j + k)) (hlt : i < n)
    (hne : foldW b (charAt s (j + i)) ≠ foldW b (charAt t (j + i))) :
    strNCompareW w (t.drop j) n b = unitDiff b s t (j + i) := by
  have hblock : AlikeTo b w (t.drop j) i := by
    intro k hk
    rw [hw k (Nat.le_of_lt hk), charAt_drop]
    exact halike (j + k) (Nat.add_lt_add_left hk j)
  have hdiff : unitDiff b w (t.drop j) i = unitDiff b s t (j + i) := by
    rw [unitDiff, hw i (Nat.le_refl i), charAt_drop]
    rfl
  rw [strNCompareW_diff hblock hlt (by rw [hw i (Nat.le_refl i), charAt_drop]; exact hne), hdiff]

/-- **Texts that differ**: the first units that differ decide, if what is read behind the end of
the text lets the block be filled. -/
theorem utf8StrNCompareW_diff (hs : ∀ u ∈ s, isKept u = true) {i nLen : Nat}
    (halike : AlikeTo b s t i) (hlt : i < nLen) (htext : i ≤ s.length)
    (hne : foldW b (charAt s i) ≠ foldW b (charAt t i)) :
    (utf8StrNCompareW (textAt (utf8Text s) lpBehind) t nLen b = unitDiff b s t i ∨
      utf8StrNCompareW (textAt (utf8Text s) lpBehind) t nLen b = 1 ∧
        s.length + 1 < blockEnd i nLen) ∧
    (lpBehind = (fun _ => 0xFF) → s.length + 1 < blockEnd i nLen →
      utf8StrNCompareW (textAt (utf8Text s) lpBehind) t nLen b = 1) := by
  obtain ⟨d, hd⟩ : ∃ d, i = 63 * (i / 63) + d := ⟨i % 63, by omega⟩
  obtain ⟨j, hj⟩ : ∃ j, j = 63 * (i / 63) := ⟨_, rfl⟩
  obtain ⟨fuel, hfuel⟩ : ∃ fuel, nLen = i / 63 + (fuel + 1) := ⟨nLen - i / 63 - 1, by omega⟩
  have hend : blockEnd i nLen = j + min (nLen - j) 63 := by
    rw [blockEnd]
    omega
  have hstart : utf8StrNCompareW (textAt (utf8Text s) lpBehind) t nLen b =
      compareBlocks (textAt (utf8Text s) lpBehind) b (fuel + 1) (unitPos s j) (t.drop j)
        (nLen - j) := by
    have hskip := @compareBlocks_skip s t b lpBehind hs 0 (i / 63) nLen (fuel + 1)
      (fun k hk => halike k (by omega)) (by omega) (by omega)
    rwa [← hfuel, unitPos_zero, List.drop_zero, Nat.zero_add, ← hj] at hskip
  rw [← hj] at hd
  have hnonzero : unitDiff b s t i ≠ 0 := unitDiff_ne_zero hne
  rw [hstart, compareBlocks, if_neg (by omega), hend]
  rw [hd] at halike hne hnonzero
  rw [hd]
  by_cases hinside : j + min (nLen - j) 63 ≤ s.length + 1
  · have hfill := @fillBlock_inside s lpBehind hs (nLen - j) j hinside
    have hcompare := @strNCompareW_block s t b (unitsFrom s j (min (nLen - j) 63)) d j
      (min (nLen - j) 63) halike (fun k hk => charAt_unitsFrom s j (by omega)) (by omega) hne
    rw [hfill]
    simp only [length_unitsFrom, gt_iff_lt, show ¬ nLen - j < min (nLen - j) 63 by omega, if_false,
      hcompare, hnonzero]
    exact ⟨.inl trivial, fun _ hlt => absurd hinside (Nat.not_le.mpr hlt)⟩
  · obtain ⟨hfill, hrefused⟩ := @fillBlock_behind s lpBehind hs (nLen - j) j (by omega) (by omega)
    constructor
    · rcases hfill with hnone | ⟨tail, pos', hsome, hlength⟩
      · rw [hnone]
        exact .inr ⟨rfl, by omega⟩
      · have hcompare := @strNCompareW_block s t b (unitsFrom s j (s.length + 1 - j) ++ tail) d j
          (min (nLen - j) 63) halike (fun k hk => by
            rw [charAt_append_left (by rw [length_unitsFrom]; omega)]
            exact charAt_unitsFrom s j (by omega)) (by omega) hne
        rw [hsome]
        simp only [hlength, gt_iff_lt, show ¬ nLen - j < min (nLen - j) 63 by omega, if_false,
          hcompare, hnonzero]
        exact .inl trivial
    · intro hbehind _
      rw [hrefused hbehind]

/-! ### Signs -/

/-- A text that ends at the difference comes first. -/
theorem unitDiff_neg {i : Nat} (hs : s.length ≤ i)
    (hne : foldW b (charAt s i) ≠ foldW b (charAt t i)) : unitDiff b s t i < 0 := by
  have hzero : foldW b (charAt s i) = 0 := by
    rw [charAt_of_length_le hs]
    exact (foldW_eq_zero b).mpr rfl
  have hpos : 0 < (foldW b (charAt t i)).toNat :=
    Nat.pos_of_ne_zero fun h => hne (hzero.trans (UInt16.toNat_inj.mp h).symm)
  rw [unitDiff, hzero, show (0 : WChar).toNat = 0 from rfl]
  omega

theorem unitDiff_pos {i : Nat} (ht : t.length ≤ i)
    (hne : foldW b (charAt s i) ≠ foldW b (charAt t i)) : 0 < unitDiff b s t i := by
  have hzero : foldW b (charAt t i) = 0 := by
    rw [charAt_of_length_le ht]
    exact (foldW_eq_zero b).mpr rfl
  have hpos : 0 < (foldW b (charAt s i)).toNat :=
    Nat.pos_of_ne_zero fun h => hne ((UInt16.toNat_inj.mp h).trans hzero.symm)
  rw [unitDiff, hzero, show (0 : WChar).toNat = 0 from rfl]
  omega

theorem compareLens_of_ne {res : Int} (h : res ≠ 0) (nLen0 nLen1 : Nat) :
    compareLens res nLen0 nLen1 = res := if_neg h

/-- What `StrCompareW` gives: nothing for texts that are alike, else something with the sign of the
first difference. -/
theorem strCompareW_spec (hs : (0 : WChar) ∉ s) (ht : (0 : WChar) ∉ t) :
    (alikeLength b s t = s.length ∧ alikeLength b s t = t.length ∧ strCompareW s t b = 0) ∨
    (foldW b (charAt s (alikeLength b s t)) ≠ foldW b (charAt t (alikeLength b s t)) ∧
      (strCompareW s t b).sign = (unitDiff b s t (alikeLength b s t)).sign) := by
  have hle := @alikeLength_le b s t
  have halike := @alikeTo_alikeLength b s t ht
  have hmin := minLen_eq s.length t.length
  rcases @alikeLength_diff b s t hs ht with hne | ⟨hends, hendt⟩
  · right
    refine ⟨hne, ?_⟩
    by_cases hlt : alikeLength b s t < min s.length t.length
    · have hdiff := strNCompareW_diff halike hlt hne
      unfold strCompareW
      simp only [hmin, hdiff, compareLens_of_ne (unitDiff_ne_zero hne)]
    · have hzero : strNCompareW s t (min s.length t.length) b = 0 :=
        strNCompareW_alike fun k hk => halike k (by omega)
      unfold strCompareW
      simp only [hmin, hzero, compareLens, if_true]
      rcases Nat.lt_trichotomy s.length t.length with h | h | h
      · rw [if_pos h, Int.sign_eq_neg_one_of_neg (unitDiff_neg (by omega) hne)]
        rfl
      · have hboth : charAt s (alikeLength b s t) = charAt t (alikeLength b s t) := by
          rw [charAt_of_length_le (by omega), charAt_of_length_le (by omega)]
        rw [hboth] at hne
        exact absurd rfl hne
      · rw [if_neg (by omega), if_pos h, Int.sign_eq_one_of_pos (unitDiff_pos (by omega) hne)]
        rfl
  · left
    have hzero : strNCompareW s t (min s.length t.length) b = 0 :=
      strNCompareW_alike fun k hk => halike k (by omega)
    refine ⟨hends, hendt, ?_⟩
    unfold strCompareW
    simp only [hmin, hzero, compareLens, if_true]
    rw [if_neg (by omega), if_neg (by omega)]

/-- The comparison of the UTF-8 form of a text has the sign of the comparison of the text, whatever
is in memory behind the form. -/
def ComparesAlike (s t : List WChar) (bCaseInsensitive : Bool) : Prop :=
  ∃ szSrcUtf8, utf8Encode s = .ok szSrcUtf8 ∧ ∀ lpBehind,
    (utf8StrCompareW szSrcUtf8 lpBehind t bCaseInsensitive).sign =
      (strCompareW s t bCaseInsensitive).sign

/-- The text is ASCII, or it comes after the other one, or it comes before it and the block with the
first difference ends with the zero behind the text at the latest. -/
def CompareSafe (s t : List WChar) (bCaseInsensitive : Bool) : Prop :=
  (∀ u ∈ s, u < 0x80) ∨ 0 < strCompareW s t bCaseInsensitive ∨
    strCompareW s t bCaseInsensitive < 0 ∧
      blockEnd (alikeLength bCaseInsensitive s t) (min (utf8Text s).length t.length) ≤ s.length + 1

theorem isWellFormed_of_isKept (hs : ∀ u ∈ s, isKept u = true) : isWellFormed s = true := by
  refine (isWellFormed_iff s).mpr ⟨fun i u hu hhigh => ?_, fun i u hu hlow => ?_⟩
  · rw [not_isHighSurrogate_of_isKept (hs u (List.mem_of_getElem? hu))] at hhigh
    cases hhigh
  · have hkept := (isKept_iff u).mp (hs u (List.mem_of_getElem? hu))
    have hrange := (isLowSurrogate_iff u).mp hlow
    omega

/-- A text that is alike as far as it is compared. -/
theorem utf8StrCompareW_alike (hs : ∀ u ∈ s, isKept u = true) {n : Nat} (halike : AlikeTo b s t n)
    (hn : min (utf8Text s).length t.length ≤ n) (hle : n ≤ s.length) :
    utf8StrCompareW (utf8Text s) lpBehind t b = compareLens 0 (utf8Text s).length t.length := by
  have hmin : minLen (utf8Text s).length t.length ≤ n := by
    rw [minLen_eq]
    exact hn
  have hzero := @utf8StrNCompareW_alike s t b lpBehind hs (minLen (utf8Text s).length t.length)
    (fun k hk => halike k (Nat.lt_of_lt_of_le hk hmin)) (Nat.le_trans hmin hle)
  unfold utf8StrCompareW
  simp only [utf8StrLen_eq, hzero]

/-- A text that differs where it is compared. -/
theorem utf8StrCompareW_diff (hs : ∀ u ∈ s, isKept u = true) {i : Nat} (halike : AlikeTo b s t i)
    (hlt : i < min (utf8Text s).length t.length) (hle : i ≤ s.length)
    (hne : foldW b (charAt s i) ≠ foldW b (charAt t i)) :
    (utf8StrCompareW (utf8Text s) lpBehind t b = unitDiff b s t i ∨
      utf8StrCompareW (utf8Text s) lpBehind t b = 1 ∧
        s.length + 1 < blockEnd i (min (utf8Text s).length t.length)) ∧
    (lpBehind = (fun _ => 0xFF) →
      s.length + 1 < blockEnd i (min (utf8Text s).length t.length) →
        utf8StrCompareW (utf8Text s) lpBehind t b = 1) := by
  have hdiff := @utf8StrNCompareW_diff s t b lpBehind hs i _ halike hlt hle hne
  unfold utf8StrCompareW
  simp only [utf8StrLen_eq, minLen_eq]
  obtain ⟨hres, hrefused⟩ := hdiff
  constructor
  · rcases hres with hres | ⟨hres, hbehind⟩
    · rw [hres, compareLens_of_ne (unitDiff_ne_zero hne)]
      exact .inl rfl
    · rw [hres]
      exact .inr ⟨rfl, hbehind⟩
  · intro hff hbehind
    rw [hrefused hff hbehind]
    rfl

/-- The texts compare alike, whatever is behind the first one. -/
theorem comparesAlike_iff_sign (hs : ∀ u ∈ s, isKept u = true) :
    ComparesAlike s t b ↔ ∀ lpBehind,
      (utf8StrCompareW (utf8Text s) lpBehind t b).sign = (strCompareW s t b).sign := by
  have hencode := utf8Encode_eq_utf8Text (isWellFormed_of_isKept hs)
  constructor
  · rintro ⟨szSrcUtf8, henc, h⟩
    obtain rfl := Except.ok.inj (hencode.symm.trans henc)
    exact h
  · exact fun h => ⟨utf8Text s, hencode, h⟩

/-- Texts that are alike: only ASCII has as many bytes as units. -/
theorem sign_iff_of_alike (hs : ∀ u ∈ s, isKept u = true) (halike : AlikeTo b s t s.length)
    (hlen : t.length = s.length) :
    (∀ lpBehind, (utf8StrCompareW (utf8Text s) lpBehind t b).sign = 0) ↔
      (utf8Text s).length = s.length := by
  have hlong := length_le_utf8Text hs
  have hres := fun lpBehind => @utf8StrCompareW_alike s t b lpBehind hs s.length halike (by omega)
    (Nat.le_refl _)
  simp only [hres, compareLens, if_true]
  constructor
  · intro h
    by_contra hmore
    have hone := h fun _ => 0
    rw [if_neg (by omega), if_pos (by omega)] at hone
    cases hone
  · intro heq _
    rw [if_neg (by omega), if_neg (by omega)]
    rfl

/-- Texts with a difference among the units that are compared: the text comes after the other
one, or the difference is found before anything behind the text is read. -/
theorem sign_iff_of_diff (hs : ∀ u ∈ s, isKept u = true) {i : Nat} (halike : AlikeTo b s t i)
    (hlt : i < min (utf8Text s).length t.length) (hle : i ≤ s.length)
    (hne : foldW b (charAt s i) ≠ foldW b (charAt t i)) :
    (∀ lpBehind, (utf8StrCompareW (utf8Text s) lpBehind t b).sign = (unitDiff b s t i).sign) ↔
      0 < unitDiff b s t i ∨
        blockEnd i (min (utf8Text s).length t.length) ≤ s.length + 1 := by
  have hres := fun lpBehind => @utf8StrCompareW_diff s t b lpBehind hs i halike hlt hle hne
  rcases Int.lt_or_gt_of_ne (unitDiff_ne_zero hne) with hbefore | hafter
  · constructor
    · intro h
      by_contra hnot
      obtain ⟨-, hbehind⟩ := not_or.mp hnot
      have hone := (hres fun _ => 0xFF).2 rfl (Nat.not_le.mp hbehind)
      have hff := h fun _ => 0xFF
      rw [hone, Int.sign_eq_neg_one_of_neg hbefore] at hff
      cases hff
    · intro hsafe lpBehind
      have hinside := hsafe.resolve_left (by omega)
      rcases (hres lpBehind).1 with hdiff | ⟨-, hbehind⟩
      · rw [hdiff]
      · omega
  · refine iff_of_true (fun lpBehind => ?_) (.inl hafter)
    rcases (hres lpBehind).1 with hdiff | ⟨hone, -⟩
    · rw [hdiff]
    · rw [hone, Int.sign_eq_one_of_pos hafter]
      rfl

/-- Texts that are alike up to where one of them ends: the lengths decide. -/
theorem sign_of_ended (hs : ∀ u ∈ s, isKept u = true) {i : Nat} (halike : AlikeTo b s t i)
    (hge : min (utf8Text s).length t.length ≤ i) (hle : i ≤ s.length)
    (hne : foldW b (charAt s i) ≠ foldW b (charAt t i)) (lpBehind : Nat → Byte) :
    (utf8StrCompareW (utf8Text s) lpBehind t b).sign = (unitDiff b s t i).sign ∧
      ((utf8Text s).length = s.length ∨ 0 < unitDiff b s t i) := by
  have hlong := length_le_utf8Text hs
  have hres := @utf8StrCompareW_alike s t b lpBehind hs i halike hge hle
  rcases Nat.lt_or_ge i t.length with hmore | hend
  · have hbefore := unitDiff_neg (show s.length ≤ i by omega) hne
    refine ⟨?_, .inl (by omega)⟩
    rw [hres, compareLens, if_pos rfl, if_pos (by omega), Int.sign_eq_neg_one_of_neg hbefore]
    rfl
  · have hafter := unitDiff_pos hend hne
    have hmore : i < s.length := by
      by_contra hboth
      have hshort := unitDiff_neg (Nat.not_lt.mp hboth) hne
      omega
    refine ⟨?_, .inr hafter⟩
    rw [hres, compareLens, if_pos rfl, if_neg (by omega), if_pos (by omega),
      Int.sign_eq_one_of_pos hafter]
    rfl

/-- **When UTF-8 and UTF-16 compare alike**: the text is ASCII, or it comes after the other one, or
the first difference is found before anything behind the text is read. -/
theorem comparesAlike_iff (hkept : ∀ u ∈ s, u < 0xD000 ∨ 0xE000 ≤ u) (hs : (0 : WChar) ∉ s)
    (ht : (0 : WChar) ∉ t) (bCaseInsensitive : Bool) :
    ComparesAlike s t bCaseInsensitive ↔ CompareSafe s t bCaseInsensitive := by
  have hall : ∀ u ∈ s, isKept u = true := by simpa [isKept] using hkept
  have hascii : (∀ u ∈ s, u < 0x80) ↔ (utf8Text s).length = s.length := by
    rw [length_utf8Text_eq_iff hall]
    simp only [UInt16.lt_iff_toNat_lt, UInt16.reduceToNat]
  have hle := @alikeLength_le bCaseInsensitive s t
  have halike := @alikeTo_alikeLength bCaseInsensitive s t ht
  rw [comparesAlike_iff_sign hall, CompareSafe, hascii]
  rcases @strCompareW_spec s t bCaseInsensitive hs ht with ⟨hends, hendt, hzero⟩ | ⟨hne, hsign⟩
  · have hiff := sign_iff_of_alike hall (hends ▸ halike) (by omega)
    simpa only [hzero, Int.sign_zero, Int.lt_irrefl, false_and, or_false] using hiff
  · have hpos : 0 < strCompareW s t bCaseInsensitive ↔
        0 < unitDiff bCaseInsensitive s t (alikeLength bCaseInsensitive s t) := by
      rw [← Int.sign_pos_iff, hsign, Int.sign_pos_iff]
    have hneg : strCompareW s t bCaseInsensitive < 0 ↔
        unitDiff bCaseInsensitive s t (alikeLength bCaseInsensitive s t) < 0 := by
      rw [← Int.sign_neg_iff, hsign, Int.sign_neg_iff]
    have hnonzero := unitDiff_ne_zero hne
    rw [hsign, hpos, hneg]
    by_cases hlt : alikeLength bCaseInsensitive s t < min (utf8Text s).length t.length
    · rw [sign_iff_of_diff hall halike hlt hle.1 hne]
      constructor
      · rintro (hafter | hinside)
        · exact .inr (.inl hafter)
        · rcases Int.lt_or_gt_of_ne hnonzero with hbefore | hafter
          · exact .inr (.inr ⟨hbefore, hinside⟩)
          · exact .inr (.inl hafter)
      · rintro (heq | hafter | ⟨-, hinside⟩)
        · refine .inr ?_
          rw [blockEnd]
          omega
        · exact .inl hafter
        · exact .inr hinside
    · have hended := sign_of_ended hall halike (Nat.not_lt.mp hlt) hle.1 hne
      exact iff_of_true (fun lpBehind => (hended lpBehind).1)
        ((hended fun _ => 0).2.imp_right .inl)

/-- The small letter comes after the capital one, also where one of them is written in UTF-8. -/
theorem comparesAlike_letters : (∀ u ∈ ([0xE9] : List WChar), u < 0xD000 ∨ 0xE000 ≤ u) ∧
    (0 : WChar) ∉ ([0xE9] : List WChar) ∧ (0 : WChar) ∉ ([0xC9] : List WChar) ∧
    (ComparesAlike [0xE9] [0xC9] false ↔ CompareSafe [0xE9] [0xC9] false) := by
  have hkept : ∀ u ∈ ([0xE9] : List WChar), u < 0xD000 ∨ 0xE000 ≤ u := by
    intro u hu
    rw [List.mem_singleton.mp hu]
    exact .inl (UInt16.lt_iff_toNat_lt.mpr (by decide))
  exact ⟨hkept, by decide, by decide, comparesAlike_iff hkept (by decide) (by decide) false⟩

/-- A letter that is not ASCII does not compare alike with itself. -/
theorem not_comparesAlike_letter : strCompareW [0xE9] [0xE9] false = 0 ∧
    ¬ ComparesAlike [0xE9] [0xE9] false := by
  refine ⟨by decide, ?_⟩
  rintro ⟨szSrcUtf8, henc, h⟩
  obtain rfl : [0xC3, 0xA9] = szSrcUtf8 := Except.ok.inj henc
  exact absurd (h fun _ => 0) (by decide)

end Texts

end MxLib.Compare
