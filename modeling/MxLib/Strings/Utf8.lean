import MxLib.Strings.Strings

/-!
# UTF-8

`utf8DecodeChar` follows `Utf8_DecodeChar` byte by byte, its slips included: the
test of the first byte against `0xEF` reads it as a signed character, so every
lead byte from `0xE0` on takes the branch of three bytes.
-/

namespace MxLib

/-- The bytes of a code point. -/
def utf8EncodeValue (nVal : UInt32) : List Byte :=
  let trail (n : UInt32) : Byte := ((n ||| 0x80) &&& 0xBF).toUInt8
  if nVal < 0x80 then [nVal.toUInt8]
  else if nVal < 0x800 then [((nVal >>> 6) ||| 0xC0).toUInt8, trail nVal]
  else if nVal < 0x10000 then [((nVal >>> 12) ||| 0xE0).toUInt8, trail (nVal >>> 6), trail nVal]
  else
    [((nVal >>> 18) ||| 0xF0).toUInt8, trail (nVal >>> 12), trail (nVal >>> 6), trail nVal]

/-- `Utf8_EncodeChar(szDestA, chW, chSurrogatePairW)`; `none` stands for -1. -/
def utf8EncodeChar (chW chSurrogatePairW : WChar) : Option (List Byte) :=
  if 0xD800 ≤ chW && chW ≤ 0xDBFF && chSurrogatePairW != 0 then
    if chSurrogatePairW < 0xDC00 || chSurrogatePairW > 0xDFFF then none
    else some (utf8EncodeValue
      (((chW - 0xD800).toUInt32 <<< 10) + 0x10000 + (chSurrogatePairW - 0xDC00).toUInt32))
  else some (utf8EncodeValue chW.toUInt32)

/-- `Utf8_Encode` -/
def utf8Encode : List WChar → Except HResult (List Byte)
  | [] => .ok []
  | [chW] =>
    if 0xD800 ≤ chW && chW ≤ 0xDBFF then .error .mxInvalidData
    else
      match utf8EncodeChar chW 0 with
      | none => .error .mxInvalidData
      | some chA => .ok chA
  | chW :: chW1 :: rest =>
    if 0xD800 ≤ chW && chW ≤ 0xDBFF then
      if chW1 < 0xDC00 || chW1 > 0xDFFF then .error .mxInvalidData
      else
        match utf8EncodeChar chW chW1 with
        | none => .error .mxInvalidData
        | some chA => (utf8Encode rest).map (chA ++ ·)
    else
      match utf8EncodeChar chW 0 with
      | none => .error .mxInvalidData
      | some chA => (utf8Encode (chW1 :: rest)).map (chA ++ ·)

/-- The value of a `CHAR`, which is signed. -/
def signedChar (ch : Byte) : Int := if ch < 0x80 then ch.toNat else (ch.toNat : Int) - 256

def isContinuation (ch : Byte) : Bool := ch &&& 0xC0 == 0x80

/-- The units at `szDestW[0]` and `szDestW[1]`, and the number of bytes read.
`none` stands for a result that is not positive. -/
def utf8DecodeChar (sA : List Byte) : Option (WChar × WChar × Nat) :=
  let dword (k : Nat) : UInt32 := (charAt sA k).toUInt32
  let nSrcLen := sA.length
  if nSrcLen == 0 then none
  else if charAt sA 0 < 0x80 then some ((charAt sA 0).toUInt16, 0, 1)
  else if charAt sA 0 < 0xC2 || charAt sA 0 > 0xF8 then none
  else if charAt sA 0 ≤ 0xDF then
    if nSrcLen < 2 || !isContinuation (charAt sA 1) then none
    else some (((dword 0 <<< 6) + dword 1 - 0x3080).toUInt16, 0, 2)
  else if signedChar (charAt sA 0) ≤ 0xEF then
    if nSrcLen < 3 || !isContinuation (charAt sA 1) || !isContinuation (charAt sA 2) ||
        (charAt sA 0 == 0xE0 && charAt sA 0 < 0xA0) ||
        (charAt sA 0 == 0xED && charAt sA 0 ≥ 0xA0) then none
    else some (((dword 0 <<< 12) + (dword 1 <<< 6) + dword 2 - 0xE2080).toUInt16, 0, 3)
  else if nSrcLen < 4 || !isContinuation (charAt sA 1) || !isContinuation (charAt sA 2) ||
      !isContinuation (charAt sA 3) || (charAt sA 0 == 0xF0 && charAt sA 1 < 0x90) ||
      (charAt sA 0 == 0xF4 && charAt sA 1 ≥ 0x90) then none
  else
    let dw := (dword 0 <<< 18) + (dword 1 <<< 12) + (dword 2 <<< 6) + dword 3 - 0x3C82080
    if dw ≤ 0xFFFF then some (dw.toUInt16, 0, 4)
    else
      let dw := dw - 0x10000
      some (((dw >>> 10) + 0xD800).toUInt16, ((dw &&& 0x3FF) + 0xDC00).toUInt16, 4)

/-- The loop of `Utf8_Decode`, with at most `fuel` characters left. -/
def utf8DecodeFrom : Nat → List Byte → List WChar → Except HResult (List WChar)
  | 0, _, cStrDestW => .ok cStrDestW
  | fuel + 1, szSrcA, cStrDestW =>
    match szSrcA with
    | [] => .ok cStrDestW
    | _ :: _ =>
      match utf8DecodeChar szSrcA with
      | none => .error .mxInvalidData
      | some (ch0, ch1, res) =>
        utf8DecodeFrom fuel (szSrcA.drop res)
          (cStrDestW ++ (if ch1 == 0 then [ch0] else [ch0, ch1]))

/-- `Utf8_Decode(cStrDestW, szSrcA, nSrcLen)`: a character takes at least one byte,
so as many turns as there are bytes are enough. -/
def utf8Decode (szSrcA : List Byte) : Except HResult (List WChar) :=
  utf8DecodeFrom szSrcA.length szSrcA []

/-- A byte below `0x80` is decoded as itself. -/
theorem utf8DecodeChar_ascii {ch : Byte} (h : ch < 0x80) (rest : List Byte) :
    utf8DecodeChar (ch :: rest) = some (ch.toUInt16, 0, 1) := by
  simp [utf8DecodeChar, h]

/-- A single unit that is refused. -/
theorem utf8Encode_singleton_error {chW : WChar} {hRes : HResult}
    (h : utf8Encode [chW] = .error hRes) : hRes = .mxInvalidData := by
  rw [utf8Encode] at h
  split at h
  · exact (Except.error.inj h).symm
  · split at h
    · exact (Except.error.inj h).symm
    · cases h

/-- `Utf8_Decode` fails in one way only. -/
theorem utf8DecodeFrom_error {fuel : Nat} {szSrcA : List Byte} {cStrDestW : List WChar}
    {hRes : HResult} (h : utf8DecodeFrom fuel szSrcA cStrDestW = .error hRes) :
    hRes = .mxInvalidData := by
  induction fuel generalizing szSrcA cStrDestW with
  | zero => cases h
  | succ fuel ih =>
    cases szSrcA with
    | nil => cases h
    | cons ch rest =>
      rw [utf8DecodeFrom] at h
      split at h
      · exact (Except.error.inj h).symm
      · exact ih h

end MxLib
