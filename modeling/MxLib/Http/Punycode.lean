import MxLib.Strings.Strings

/-!
# Punycode

`Punycode_Encode` and `Punycode_Decode`.  A counter of type `SIZE_T` is a number below
`2 ^ 64`; where the code checks for an overflow the check is kept, and elsewhere the sum
stays below the bound.  A loop with an end of its own has a number of turns that is
enough for it.
-/

namespace MxLib.Http.Punycode

def base : Nat := 36
def tMin : Nat := 1
def tMax : Nat := 26
def skew : Nat := 38
def damp : Nat := 700
def initialN : Nat := 128
def initialBias : Nat := 72

/-- `__SIZE_T_MAX` -/
def sizeTMax : Nat := 2 ^ 64 - 1

/-! ### Common parts -/

/-- `GetWideChar`; behind the last unit it reads the zero that ends the text. -/
def getWideChar (szSrcW : List WChar) : Nat :=
  if charAt szSrcW 0 < 0xD800 || charAt szSrcW 0 > 0xDBFF then (charAt szSrcW 0).toNat
  else if charAt szSrcW 1 < 0xDC00 || charAt szSrcW 1 > 0xDFFF then 0
  else ((charAt szSrcW 0).toNat - 0xD800) * 1024 + 0x10000 + ((charAt szSrcW 1).toNat - 0xDC00)

/-- The values of `chW` in a loop over the text. -/
def wideChars : List WChar → List Nat
  | [] => []
  | [u] => [getWideChar [u]]
  | u :: v :: rest =>
    getWideChar (u :: v :: rest) ::
      if getWideChar (u :: v :: rest) ≥ 0x10000 then wideChars rest else wideChars (v :: rest)

/-- The loop of `adapt_bias`. -/
def adaptBiasFrom : Nat → Nat → Nat → Nat × Nat
  | 0, delta, k => (delta, k)
  | fuel + 1, delta, k =>
    if delta > (base - tMin) * tMax / 2 then adaptBiasFrom fuel (delta / (base - tMin)) (k + base)
    else (delta, k)

/-- `adapt_bias` -/
def adaptBias (delta nPoints : Nat) (isFirst : Bool) : Nat :=
  let delta := delta / if isFirst then damp else 2
  let delta := delta + delta / nPoints
  let (delta, k) := adaptBiasFrom delta delta 0
  k + (base - tMin + 1) * delta / (delta + skew)

/-- `t` at the position `k`. -/
def threshold (bias k : Nat) : Nat :=
  if k ≤ bias then tMin else if k ≥ bias + tMax then tMax else k - bias

/-! ### Encoding -/

/-- `encode_digit` -/
def encodeDigit (c : Nat) : Byte := if c > 25 then .ofNat (c + 22) else .ofNat (c + 97)

/-- The loop of `encode_var_int`. -/
def encodeVarIntFrom (bias : Nat) : Nat → Nat → Nat → List Byte
  | 0, _, q => [encodeDigit q]
  | fuel + 1, k, q =>
    let t := threshold bias k
    if q < t then [encodeDigit q]
    else
      encodeDigit (t + (q - t) % (base - t)) ::
        encodeVarIntFrom bias fuel (k + base) ((q - t) / (base - t))

/-- `encode_var_int`: what it adds to `cStrDestA`. -/
def encodeVarInt (bias delta : Nat) : List Byte := encodeVarIntFrom bias delta base delta

/-- The variables of `Punycode_Encode` that change while the text is scanned. -/
structure EncodeState where
  h : Nat
  delta : Nat
  bias : Nat
  cStrDestA : List Byte

/-- The next code point, or `__SIZE_T_MAX`. -/
def nextCodePoint (n : Nat) (chars : List Nat) : Nat :=
  chars.foldl (fun m chW => if chW ≥ n ∧ chW < m then chW else m) sizeTMax

/-- The loop that writes the positions of the code point `n`. -/
def encodeScan (n b : Nat) : List Nat → EncodeState → Except HResult EncodeState
  | [], st => .ok st
  | chW :: rest, st =>
    if chW < n then
      if (st.delta + 1) % 2 ^ 64 = 0 then .error .eFail
      else encodeScan n b rest { st with delta := st.delta + 1 }
    else if chW = n then
      encodeScan n b rest
        { h := st.h + 1, delta := 0, bias := adaptBias st.delta (st.h + 1) (st.h == b),
          cStrDestA := st.cStrDestA ++ encodeVarInt st.bias st.delta }
    else encodeScan n b rest st

/-- The outer loop, with at most `fuel` turns. -/
def encodeFrom (chars : List Nat) (nSrcLen b : Nat) :
    Nat → Nat → EncodeState → Except HResult EncodeState
  | 0, _, st => .ok st
  | fuel + 1, n, st =>
    if st.h < nSrcLen then
      let m := nextCodePoint n chars
      if m - n > (sizeTMax - st.delta) / (st.h + 1) then .error .eFail
      else do
        let st' ← encodeScan m b chars { st with delta := st.delta + (m - n) * (st.h + 1) }
        encodeFrom chars nSrcLen b fuel ((m + 1) % 2 ^ 64)
          { st' with delta := (st'.delta + 1) % 2 ^ 64 }
    else .ok st

/-- The characters that are copied. -/
def basicChars (chars : List Nat) : List Byte := (chars.filter (· < 128)).map UInt8.ofNat

/-- `Punycode_Encode`: the text in `cStrDestA`, or the result code. -/
def encode (szSrcW : List WChar) : Except HResult (List Byte) :=
  let chars := wideChars szSrcW
  if chars.contains 0 then .ok (basicChars (chars.takeWhile (· != 0)))
  else do
    let cStrDestA := basicChars chars
    let b := cStrDestA.length
    -- a turn that does not fail adds to `h`, so there are no more turns than units
    let st ← encodeFrom chars szSrcW.length b (szSrcW.length + 1) initialN
      { h := b, delta := 0, bias := initialBias, cStrDestA }
    .ok (if st.cStrDestA.length > b then insertStr st.cStrDestA b (ascii "-") else st.cStrDestA)

/-! ### Decoding -/

/-- `decode_digit`; `none` stands for `(SIZE_T)-1`. -/
def decodeDigit (v : Byte) : Option Nat :=
  if 0x30 ≤ v && v ≤ 0x39 then some (22 + v.toNat - 0x30)
  else if 0x61 ≤ v && v ≤ 0x7A then some (v.toNat - 0x61)
  else if 0x41 ≤ v && v ≤ 0x5A then some (v.toNat - 0x41)
  else none

/-- The loop over the digits of a number: `i` afterwards, and the rest of the text. -/
def decodeVarInt (bias : Nat) : List Byte → Nat → Nat → Nat → Except HResult (Nat × List Byte)
  | [], _, _, _ => .error .eFail
  | v :: szSrcA, k, w, i =>
    match decodeDigit v with
    | none => .error .eFail
    | some digit =>
      if digit > (sizeTMax - i) / w then .error .mxArithmeticOverflow
      else
        let t := threshold bias k
        if digit < t then .ok (i + digit * w, szSrcA)
        else if w > sizeTMax / (base - t) then .error .mxArithmeticOverflow
        else decodeVarInt bias szSrcA (k + base) (w * (base - t)) (i + digit * w)

/-- The loop over the numbers.  The list holds values of type `ULONG`. -/
def decodeFrom : Nat → List Byte → Nat → Nat → Nat → List Nat → Except HResult (List Nat)
  | 0, _, _, _, _, aCodepoints => .ok aCodepoints
  | _ + 1, [], _, _, _, aCodepoints => .ok aCodepoints
  | fuel + 1, v :: szSrcA, n, i, bias, aCodepoints => do
    let orgI := i
    let (i, szSrcA) ← decodeVarInt bias (v :: szSrcA) base 1 i
    let bias := adaptBias (i - orgI) (aCodepoints.length + 1) (orgI == 0)
    if i / (aCodepoints.length + 1) > sizeTMax - n then .error .mxArithmeticOverflow
    else
      let n := n + i / (aCodepoints.length + 1)
      let i := i % (aCodepoints.length + 1)
      decodeFrom fuel szSrcA n i bias (aCodepoints.insertIdx i (n % 2 ^ 32))

/-- The loop that writes the text: behind a code point below `0x10000` the index is
moved twice. -/
def decodeUnits : List Nat → List WChar
  | [] => []
  | [n] =>
    if n < 0x10000 then [.ofNat n]
    else [.ofNat ((n - 0x10000) / 1024 + 0xD800), .ofNat ((n - 0x10000) % 1024 + 0xDC00)]
  | n :: n' :: aCodepoints =>
    if n < 0x10000 then .ofNat n :: decodeUnits aCodepoints
    else
      .ofNat ((n - 0x10000) / 1024 + 0xD800) :: .ofNat ((n - 0x10000) % 1024 + 0xDC00) ::
        decodeUnits (n' :: aCodepoints)

/-- `StrNChrA(szSrcA, chA, nSrcLen, TRUE)`, as the text before the character found and
the text behind it. -/
def strNRChrA (szSrcA : List Byte) (chA : Byte) : Option (List Byte × List Byte) :=
  match szSrcA.reverse.span fun ch => ch != 0 && ch != chA with
  | (behind, ch :: before) => if ch == chA then some (before.reverse, behind.reverse) else none
  | (_, []) => none

/-- `Punycode_Decode`: the text in `cStrDestW`, or the result code. -/
def decode (szSrcA : List Byte) : Except HResult (List WChar) :=
  if szSrcA.any (· ≥ 0x80) then .error .eInvalidArg
  else
    match strNRChrA szSrcA 0x2D with
    | none => .ok (szSrcA.map UInt8.toUInt16)
    | some (basic, szSrcA) => do
      let aCodepoints ←
        decodeFrom szSrcA.length szSrcA initialN 0 initialBias (basic.map UInt8.toNat)
      .ok (decodeUnits aCodepoints)

end MxLib.Http.Punycode
