import Mathlib.Data.List.GetD
import MxLib.Http.HttpHeaderEntContentType
import MxLib.Http.HttpHeaderReqRange
import MxLib.Http.UrlText

/-!
# Content-Range

`CHttpHeaderEntContentRange`.  `Parse` compares all that is left of the value with `bytes`, up to
its zero, where it asks for a blank next, so it takes no value at all (`parse_error`), not even
what `Build` writes.  For the comparison it looks for that zero, wherever it may be.

The value is given with what is behind it in memory, as far as that can be read.
-/

namespace MxLib.Http.EntContentRange

open MxLib.Http

/-- `CHttpHeaderEntContentRange` -/
structure ContentRange where
  nByteStart : UInt64
  nByteEnd : UInt64
  nTotalBytes : UInt64
deriving DecidableEq

/-- A new header. -/
def ContentRange.create : ContentRange := ⟨0, 0, uLongLongMax⟩

/-- What ends `Parse` early: a code, a character where nothing can be read, or a loop without an
end. -/
inductive Stop
  | ret (hRes : HResult)
  | pastEnd
  | endless
deriving DecidableEq

/-! ### `Parse` -/

/-- `StrLenA`, if there is a zero. -/
def strLenA : List Byte → Option Nat
  | [] => none
  | ch :: sA => if ch = 0 then some 0 else (strLenA sA).map (· + 1)

/-- A number after its leading zeros, and what follows it and its blanks. -/
def number (sA : List Byte) : Except Stop (UInt64 × List Byte) :=
  match lengthDigits 0 (sA.dropWhile (· == 0x30)) with
  | .error hRes => .error (.ret hRes)
  | .ok (n, sA) => .ok (n, skipSpaces sA)

/-- The first byte. -/
def firstByte (sA : List Byte) : Except Stop (UInt64 × List Byte) :=
  if !isDigit (charAt sA 0) then .error (.ret .mxInvalidData) else number sA

/-- A separator, and what follows it and its blanks. -/
def separator (ch : Byte) (sA : List Byte) : Except Stop (List Byte) :=
  if charAt sA 0 != ch then .error (.ret .mxInvalidData) else .ok (skipSpaces (sA.drop 1))

/-- The last byte.  Its first digit may be behind the value, and the loop over its zeros does not
stop at the end of the value. -/
def lastByte (sA behind : List Byte) : Except Stop (UInt64 × List Byte) :=
  match sA ++ behind with
  | [] => .error .pastEnd
  | ch :: _ =>
    if !isDigit ch then .error (.ret .mxInvalidData)
    else if sA.dropWhile (· == 0x30) = [] then .error .endless
    else number sA

/-- The number of all bytes. -/
def totalBytes (nByteEnd : UInt64) (sA : List Byte) : Except Stop (UInt64 × List Byte) :=
  match sA with
  | [] => .ok (uLongLongMax, [])
  | ch :: rest =>
    if ch == chAsterisk then .ok (uLongLongMax, skipSpaces rest)
    else if !isDigit ch then .error (.ret .mxInvalidData)
    else
      match number sA with
      | .error e => .error e
      | .ok (nTotalBytes, sA) =>
        if nTotalBytes < nByteEnd then .error (.ret .mxInvalidData) else .ok (nTotalBytes, sA)

/-- What follows the unit. -/
def parseRange (sA behind : List Byte) : Except Stop ContentRange := do
  let (nByteStart, sA) ← firstByte (skipSpaces sA)
  let sA ← separator chDash sA
  let (nByteEnd, sA) ← lastByte sA behind
  if nByteEnd < nByteStart then .error (.ret .mxInvalidData)
  let sA ← separator chSlash sA
  let (nTotalBytes, sA) ← totalBytes nByteEnd sA
  if sA ≠ [] then .error (.ret .mxInvalidData)
  pure ⟨nByteStart, nByteEnd, nTotalBytes⟩

/-- `Parse` of a value with `behind` behind it: the header afterwards, unless it stops before. -/
def parseValue (szValueA behind : List Byte) : Except Stop ContentRange :=
  let szValueA := skipSpaces szValueA
  if szValueA.length < 6 then .error (.ret .mxUnsupported)
  else
    match strLenA (szValueA ++ behind) with
    | none => .error .pastEnd
    | some _ =>
      if !strCompareA (szValueA ++ behind) (ascii "bytes") true || !isBlank (charAt szValueA 5) then
        .error (.ret .mxUnsupported)
      else parseRange (szValueA.drop 5) behind

/-- `Parse(szValueA, nValueLen)`, where no length stands for `-1`. -/
def parse (szValueA : List Byte) (nValueLen : Option Nat) : Except Stop ContentRange :=
  match nValueLen with
  | some nValueLen => parseValue (szValueA.take nValueLen) (szValueA.drop nValueLen)
  | none =>
    match strLenA szValueA with
    | none => .error .pastEnd
    | some nValueLen => parseValue (szValueA.take nValueLen) (szValueA.drop nValueLen)

/-! ### `Build` -/

/-- `SetRange` -/
def ContentRange.setRange (h : ContentRange) (nByteStart nByteEnd nTotalBytes : UInt64) :
    HResult × ContentRange :=
  if nByteStart > nByteEnd ∨ nByteEnd > nTotalBytes then (.eInvalidArg, h)
  else (.sOk, ⟨nByteStart, nByteEnd, nTotalBytes⟩)

/-- `Build` -/
def ContentRange.build (h : ContentRange) : List Byte :=
  ascii "bytes " ++ decimal h.nByteStart.toNat ++ [chDash] ++ decimal h.nByteEnd.toNat ++
    [chSlash] ++
      if h.nTotalBytes = uLongLongMax then [chAsterisk] else decimal h.nTotalBytes.toNat

/-! ### What is asked of it -/

/-- **A range that was set and written is read again**, with anything behind its text. -/
def RoundTrips (h : ContentRange) (nByteStart nByteEnd nTotalBytes : UInt64)
    (behind : List Byte) : Prop :=
  let r := h.setRange nByteStart nByteEnd nTotalBytes
  r.1 = .sOk ∧ parse (r.2.build ++ behind) (some r.2.build.length) =
    .ok ⟨nByteStart, nByteEnd, nTotalBytes⟩

/-- The text of a range, with the digits of its numbers. -/
def rangeText (start last total : List Byte) : List Byte :=
  ascii "bytes " ++ start ++ [chDash] ++ last ++ [chSlash] ++ total

/-- The numbers are those of a range in a number of bytes, and have 64 bits. -/
def IsRange (start last total : List Byte) : Prop :=
  decimalFrom 0 start ≤ decimalFrom 0 last ∧ decimalFrom 0 last < decimalFrom 0 total ∧
    decimalFrom 0 total < 2 ^ 64

/-- **A text of a range is taken exactly if it is one**, with anything behind it. -/
def TakesRange (start last total behind : List Byte) : Prop :=
  (∃ h, parse (rangeText start last total ++ behind) (some (rangeText start last total).length) =
    .ok h) ↔ IsRange start last total

/-- **A value is read without looking behind it**, and the reading ends. -/
def StaysInside (szValueA : List Byte) : Prop :=
  parse szValueA (some szValueA.length) ≠ .error .pastEnd ∧
    parse szValueA (some szValueA.length) ≠ .error .endless

/-! ### What it does -/

/-- No length means that there is no zero. -/
theorem strLenA_eq_none_iff (sA : List Byte) : strLenA sA = none ↔ (0 : Byte) ∉ sA := by
  induction sA with
  | nil => exact iff_of_true rfl List.not_mem_nil
  | cons ch sA ih =>
    rw [strLenA, List.mem_cons]
    by_cases h : ch = 0
    · rw [if_pos h]
      exact iff_of_false (fun hnone => by cases hnone) (not_not.mpr (.inl h.symm))
    · rw [if_neg h, Option.map_eq_none_iff, ih]
      exact ⟨fun hmem => not_or.mpr ⟨fun h0 => h h0.symm, hmem⟩, fun hmem => (not_or.mp hmem).2⟩

/-- The letters of the unit have their zero behind them, and no blank. -/
theorem not_isBlank_of_strCompareA {sA : List Byte}
    (h : strCompareA sA (ascii "bytes") true = true) : isBlank (charAt sA 5) = false := by
  have hlen : (szStr sA).length = 5 := by
    have heq : ((szStr sA).map lowerA).length = ((szStr (ascii "bytes")).map lowerA).length :=
      congrArg List.length (eq_of_beq h)
    rw [List.length_map, List.length_map] at heq
    exact heq.trans (by decide)
  have hzero : charAt sA 5 = 0 := by
    have hsplit : szStr sA ++ sA.dropWhile (· != 0) = sA := List.takeWhile_append_dropWhile
    rw [charAt, ← hsplit, List.getD_append_right _ _ _ _ (Nat.le_of_eq hlen), hlen, Nat.sub_self]
    cases hrest : sA.dropWhile (· != 0) with
    | nil => rfl
    | cons ch rest =>
      have hnot := List.head?_dropWhile_not (· != 0) sA
      rw [hrest] at hnot
      exact not_not.mp (of_decide_eq_true (by simpa using hnot))
  rw [hzero]
  decide

/-- **No value is taken**: it is compared up to a zero. -/
theorem parseValue_eq (szValueA behind : List Byte) :
    parseValue szValueA behind = .error
      (if 6 ≤ (skipSpaces szValueA).length ∧ (0 : Byte) ∉ skipSpaces szValueA ++ behind then
        .pastEnd else .ret .mxUnsupported) := by
  rw [parseValue]
  by_cases hshort : (skipSpaces szValueA).length < 6
  · rw [if_pos hshort]
    exact congrArg Except.error (if_neg fun h => Nat.not_lt.mpr h.1 hshort).symm
  rw [if_neg hshort]
  by_cases hzero : (0 : Byte) ∉ skipSpaces szValueA ++ behind
  · rw [(strLenA_eq_none_iff _).mpr hzero]
    exact congrArg Except.error (if_pos ⟨Nat.not_lt.mp hshort, hzero⟩).symm
  obtain ⟨n, hn⟩ := Option.ne_none_iff_exists'.mp
    (mt (strLenA_eq_none_iff (skipSpaces szValueA ++ behind)).mp hzero)
  -- a text that is the unit has no blank behind it
  have hunit : (!strCompareA (skipSpaces szValueA ++ behind) (ascii "bytes") true ||
      !isBlank (charAt (skipSpaces szValueA) 5)) = true := by
    cases hunit : strCompareA (skipSpaces szValueA ++ behind) (ascii "bytes") true with
    | false => rfl
    | true =>
      have hblank := not_isBlank_of_strCompareA hunit
      rw [charAt, List.getD_append _ _ _ _ (by omega)] at hblank
      rw [charAt, hblank]
      rfl
  rw [hn]
  dsimp only
  rw [if_pos hunit]
  exact congrArg Except.error (if_neg fun h => hzero h.2).symm

theorem parse_error (szValueA : List Byte) (nValueLen : Option Nat) (h : ContentRange) :
    parse szValueA nValueLen ≠ .ok h := by
  intro hok
  cases nValueLen with
  | some nValueLen =>
    rw [parse, parseValue_eq] at hok
    cases hok
  | none =>
    rw [parse] at hok
    cases hlen : strLenA szValueA with
    | none =>
      rw [hlen] at hok
      cases hok
    | some nValueLen =>
      rw [hlen] at hok
      dsimp only at hok
      rw [parseValue_eq] at hok
      cases hok

theorem staysInside_iff (szValueA : List Byte) :
    StaysInside szValueA ↔
      (skipSpaces szValueA).length < 6 ∨ (0 : Byte) ∈ skipSpaces szValueA := by
  rw [StaysInside, parse, List.take_length, List.drop_length, parseValue_eq, List.append_nil]
  split
  next h => exact iff_of_false (fun hin => hin.1 rfl) fun hor =>
    hor.elim (Nat.not_lt.mpr h.1) h.2
  next h =>
    refine iff_of_true ⟨fun heq => (by cases heq), fun heq => (by cases heq)⟩ ?_
    by_contra hor
    obtain ⟨hlen, hzero⟩ := not_or.mp hor
    exact h ⟨Nat.not_lt.mp hlen, hzero⟩

/-- **Content-Range is never taken**: no range comes back, a text is right only if it is no range,
and reading stays inside a value that is too short for the unit or has a zero in it. -/
theorem contentRange_iff (h : ContentRange) (nByteStart nByteEnd nTotalBytes : UInt64)
    (start last total szValueA behind : List Byte) (nValueLen : Option Nat) :
    ¬ RoundTrips h nByteStart nByteEnd nTotalBytes behind ∧
      (TakesRange start last total behind ↔ ¬ IsRange start last total) ∧
      (∀ h, parse szValueA nValueLen ≠ .ok h) ∧
      (StaysInside szValueA ↔
        (skipSpaces szValueA).length < 6 ∨ (0 : Byte) ∈ skipSpaces szValueA) := by
  refine ⟨fun hround => parse_error _ _ _ hround.2, ?_, parse_error szValueA nValueLen,
    staysInside_iff szValueA⟩
  exact iff_false_left fun ⟨h, hok⟩ => parse_error _ _ _ hok

/-- The first byte of two is written, and not taken; and nothing ends it. -/
theorem not_contentRange :
    ¬ RoundTrips .create 0 0 2 [0] ∧ ¬ TakesRange (ascii "0") (ascii "0") (ascii "2") [0] ∧
      ¬ StaysInside (ascii "bytes 0-0/2") := by
  refine ⟨fun h => ?_, fun h => ?_, fun h => h.1 ?_⟩
  · exact absurd h.2 (by decide)
  · obtain ⟨h, hok⟩ := h.mpr ⟨by decide, by decide, by decide⟩
    exact absurd hok (parse_error _ _ _)
  · decide

end MxLib.Http.EntContentRange
