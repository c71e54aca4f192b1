import MxLib.Library.Loop
import MxLib.Strings.Utf8

/-!
# Characters, verbs and names

The characters the HTTP parsers look for, and the tables and tests of `HttpUtils`
that they share.  The texts it builds for the values of headers are here too, with the
transliteration to ISO-8859-1 they use.
-/

namespace MxLib.Http

open MxLib.Library

def chTab : Byte := 0x09
def chLF : Byte := 0x0A
def chCR : Byte := 0x0D
def chSpace : Byte := 0x20
def chQuote : Byte := 0x22
def chDash : Byte := 0x2D
def chColon : Byte := 0x3A
def chBackslash : Byte := 0x5C

/-- `*sA == ' ' || *sA == '\t'` -/
def isBlank (ch : Byte) : Bool := ch == chSpace || ch == chTab

def sVerbs : List (List Byte) :=
  ["CHECKOUT", "CONNECT", "COPY", "DELETE", "GET", "HEAD", "LOCK", "MKCOL", "MOVE", "MKACTIVITY",
    "MERGE", "M-SEARCH", "NOTIFY", "OPTIONS", "PATCH", "POST", "PROPFIND", "PROPPATCH", "PUT",
    "PURGE", "REPORT", "SUBSCRIBE", "SEARCH", "TRACE", "UNLOCK", "UNSUBSCRIBE"].map ascii

/-- The entry of `sVerbs` that the text is, if there is one. -/
def isValidVerb (szStrA : List Byte) : Option (List Byte) := sVerbs.find? (· == szStrA)

def szInvalidA : List Byte := ascii "()<>@,;:\\\"/[]?=\x7b\x7d"

def isValidNameChar (chA : Byte) : Bool :=
  !(chA < 0x21 || chA > 0x7E) && !szInvalidA.contains chA

theorem isValidNameChar_ne_zero {chA : Byte} (h : isValidNameChar chA = true) : chA ≠ 0 := by
  rintro rfl
  exact absurd h (by decide)

/-! ### ISO-8859-1 -/

def chQuestion : Byte := 0x3F

/-- `FromISO_8859_1` -/
def fromIso88591 (szStrA : List Byte) : List WChar := szStrA.map UInt8.toUInt16

def isoFrom0100 : List Byte :=
  ascii "AaAaAaCcCcCcCcDdDdEeEeEeEeEeGgGgGgGgHhHhIiIiIiIiIi??JjKk?LlLlLl??LlNnNnNn"

def isoFrom014C : List Byte := ascii "OoOoOoOoRrRrRrSsSsSsSsTtTtTtUuUuUuUuUuUuWwYyYZzZzZz"

def isoFrom01CD : List Byte := ascii "AaIiOoUuUuUuUuUu"

def isoFrom01E4 : List Byte := ascii "GgGgKkOoOo"

def isoFromFF01 : List Byte :=
  ascii "!\"#$%&'()*+,-./0123456789:;<=>?@ABCDEFGHIJKLMNOPQRSTUVWXYZ[\\]^_`" ++
    ascii "abcdefghijklmnopqrstuvwxyz\x7b|\x7d~"

/-- The cases of the `switch` in `UTF16_to_ISO_8859_1`. -/
def isoCases : List (List WChar × List Byte) :=
  [([0x0180], ascii "b"), ([0x0189], ascii "D"), ([0x0191], ascii "F"), ([0x0192], ascii "f"),
    ([0x0197], ascii "I"), ([0x019A], ascii "l"), ([0x019F, 0x01A0], ascii "O"),
    ([0x01A1], ascii "o"), ([0x01AB], ascii "t"), ([0x01AE, 0x2122], ascii "T"),
    ([0x01AF], ascii "U"), ([0x01B0], ascii "u"), ([0x01B6], ascii "z"), ([0x01DE], ascii "A"),
    ([0x01DF], ascii "a"), ([0x01F0], ascii "j"), ([0x0261], ascii "g"),
    ([0x02B9, 0x030E, 0x201C, 0x201D, 0x201E], ascii "\""), ([0x02BC], ascii "'"),
    ([0x02C4, 0x02C6, 0x0302], ascii "^"), ([0x02C8, 0x2018, 0x2019, 0x2032], ascii "'"),
    ([0x02CB, 0x0300, 0x2035], ascii "`"), ([0x02CD, 0x0331, 0x0332], ascii "_"),
    ([0x02DC, 0x0303], ascii "~"),
    ([0x2000, 0x2001, 0x2002, 0x2003, 0x2004, 0x2005, 0x2006], ascii " "),
    ([0x2010, 0x2011, 0x2013, 0x2014], ascii "-"), ([0x201A], ascii ","),
    ([0x2022, 0x2026], ascii "."), ([0x2039], ascii "<"), ([0x203A], ascii ">")]

/-- `UTF16_to_ISO_8859_1` -/
def utf16ToIso88591 (chW : WChar) : Byte :=
  if chW < 0x0100 then chW.toUInt8
  else if chW < 0x0149 then charAt isoFrom0100 (chW - 0x0100).toNat
  else if chW < 0x014C then chQuestion
  else if chW < 0x017F then charAt isoFrom014C (chW - 0x014C).toNat
  else if chW ≥ 0x01CD && chW < 0x01DC then charAt isoFrom01CD (chW - 0x01CD).toNat
  else if chW ≥ 0x01E4 && chW < 0x01ED then charAt isoFrom01E4 (chW - 0x01E4).toNat
  else
    match isoCases.find? (fun c => c.1.contains chW) with
    | some c => charAt c.2 0
    | none =>
      if chW ≥ 0xFF01 && chW ≤ 0xFF5E then charAt isoFromFF01 (chW - 0xFF01).toNat else chQuestion

/-- What `ToISO_8859_1` makes of one unit: nothing, if there is no character for it. -/
def isoUnit (chW : WChar) : List Byte :=
  if utf16ToIso88591 chW != chQuestion then [utf16ToIso88591 chW]
  else if chW == 0x3F then [chQuestion]
  else []

/-- `ToISO_8859_1` -/
def toIso88591 (szStrW : List WChar) : List Byte := szStrW.flatMap isoUnit

/-! ### Quoted strings -/

def szSeparatorsA : List Byte := ascii "()<>@,;:\\\"/[]?=\x7b\x7d"

/-- The characters of a token, in `BuildQuotedString`. -/
def isUnquotedA (chA : Byte) : Bool := !(chA < 0x21 || chA > 0x7E) && !szSeparatorsA.contains chA

def isUnquotedW (chW : WChar) : Bool :=
  !(chW < 0x21 || chW > 0x7E) && !(szSeparatorsA.map UInt8.toUInt16).contains chW

/-- The loop of `BuildQuotedString`: text that needs no escape is copied, and the
character behind it gets a backslash. -/
def quoteTurn {α : Type} (isPlain : α → Bool) (copy : List α → List Byte) (toByte : α → Byte) :
    List α × List Byte → (List α × List Byte) ⊕ List Byte
  | ([], cStrA) => .inr cStrA
  | (szStr, cStrA) =>
    let cStrA := cStrA ++ copy (szStr.takeWhile isPlain)
    match szStr.dropWhile isPlain with
    | [] => .inl ([], cStrA)
    | ch :: rest => .inl (rest, cStrA ++ [chBackslash, toByte ch])

def isPlainA (chA : Byte) : Bool := chA != chQuote && chA != chBackslash

def isPlainW (chW : WChar) : Bool := chW != 0x22 && chW != 0x5C

/-- `BuildQuotedString(cStrA, szStrA, nStrLen, bDontQuoteIfToken)` -/
def buildQuotedStringA (szStrA : List Byte) (bDontQuoteIfToken : Bool) : List Byte :=
  if bDontQuoteIfToken && szStrA.all isUnquotedA then szStrA
  else Loop.exec (quoteTurn isPlainA id id) (fun c => c.1.length) [] (szStrA, [])

/-- `BuildQuotedString(cStrA, szStrW, nStrLen, bDontQuoteIfToken)`: the text is
transliterated after the characters to escape are found. -/
def buildQuotedStringW (szStrW : List WChar) (bDontQuoteIfToken : Bool) : List Byte :=
  if bDontQuoteIfToken && szStrW.all isUnquotedW then toIso88591 szStrW
  else
    Loop.exec (quoteTurn isPlainW toIso88591 UInt16.toUInt8) (fun c => c.1.length) [] (szStrW, [])

/-! ### Extended values -/

def chPercent : Byte := 0x25
def chApostrophe : Byte := 0x27

def szHexaA : List Byte := ascii "0123456789ABCDEF"

/-- The characters `BuildExtendedValueString` does not leave as they are.  A `CHAR` is
signed, so those from `0x80` on are below `0x21`. -/
def isEscaped (chA : Byte) : Bool :=
  signedChar chA ≤ 0x21 || signedChar chA > 0x7E || chA == chPercent || chA == chQuote ||
    chA == chApostrophe

/-- `szToInsertA` -/
def pctEncode (chA : Byte) : List Byte :=
  [chPercent, charAt szHexaA (chA >>> 4).toNat, charAt szHexaA (chA &&& 15).toNat]

/-- A turn of the loop of `BuildExtendedValueString`, at the character with index
`nOffset`. -/
def extendedTurn : List Byte × Nat → (List Byte × Nat) ⊕ List Byte
  | (cStrA, nOffset) =>
    let chA := charAt cStrA nOffset
    if chA == 0 then .inr cStrA
    else if isEscaped chA then
      .inl (insertStr (deleteStr cStrA nOffset 1) nOffset (pctEncode chA), nOffset + 3)
    else .inl (cStrA, nOffset + 1)

/-- `BuildExtendedValueString`; `none` stands for `FALSE`. -/
def buildExtendedValueString (szStrW : List WChar) : Option (List Byte) :=
  match utf8Encode szStrW with
  | .error _ => none
  | .ok cStrA =>
    let cStrA := Loop.exec extendedTurn (fun c => c.1.length - c.2) [] (cStrA, 0)
    some (insertStr cStrA 0 (ascii "UTF-8''"))

end MxLib.Http
