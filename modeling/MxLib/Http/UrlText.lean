import MxLib.Http.UrlHost
import MxLib.Strings.Utf8RoundTrip

/-!
# The text of a URL

`Url.toString` is `CUrl::ToString` for narrow strings, and `Url.set` stands for the
setters of the class.  Two of the calls of `ToStringEncode` are given `cStrTempW` before
anything is stored there, so neither a mail address nor the user info is written.
`SetUserInfo` stores its text as the fragment.
-/

namespace MxLib.Http

open MxLib.Library.Unicode

/-! ### Percent-encoding -/

def szHexaNumA : List Byte := ascii "0123456789ABCDEF"

def isUnreservedChar (chA : Byte) : Bool :=
  (0x41 ≤ chA && chA ≤ 0x5A) || (0x61 ≤ chA && chA ≤ 0x7A) || (0x30 ≤ chA && chA ≤ 0x39) ||
    (ascii "-_.~").contains chA

/-- `_chA` -/
def encodeByte (chA : Byte) : List Byte :=
  [0x25, charAt szHexaNumA (chA >>> 4).toNat, charAt szHexaNumA (chA &&& 0x0F).toNat]

/-- The bytes of a character, encoded; `none` stands for a size that is not positive. -/
def encodeChar : Option (List Byte) → Except HResult (List Byte)
  | none => .error .mxInvalidData
  | some chA => .ok (chA.flatMap encodeByte)

/-- The character is copied. -/
def isCopied (szAllowedCharsA : List Byte) (chW : WChar) : Bool :=
  chW < 127 && (isUnreservedChar chW.toUInt8 || szAllowedCharsA.contains chW.toUInt8)

/-- `ToStringEncode`: what it adds to `cStrDestA`. -/
def toStringEncode (szAllowedCharsA : List Byte) : List WChar → Except HResult (List Byte)
  | [] => .ok []
  | [chW] =>
    if isCopied szAllowedCharsA chW then .ok [chW.toUInt8] else encodeChar (utf8EncodeChar chW 0)
  | chW :: chW1 :: szStrW =>
    if isCopied szAllowedCharsA chW then
      (toStringEncode szAllowedCharsA (chW1 :: szStrW)).map (chW.toUInt8 :: ·)
    else if 0xD800 ≤ chW && chW ≤ 0xDBFF then do
      let chA ← encodeChar (utf8EncodeChar chW chW1)
      let destA ← toStringEncode szAllowedCharsA szStrW
      .ok (chA ++ destA)
    else do
      let chA ← encodeChar (utf8EncodeChar chW 0)
      let destA ← toStringEncode szAllowedCharsA (chW1 :: szStrW)
      .ok (chA ++ destA)

/-! ### `ToString` -/

/-- `eToStringFlags` -/
structure ToStringFlags where
  addScheme : Bool
  addUserInfo : Bool
  addHostPort : Bool
  addPath : Bool
  addQueryStrings : Bool
  addFragment : Bool
  shrinkPath : Bool
  dontAddHostPortIfDefault : Bool

/-- `AddAll` -/
def addAll : ToStringFlags := ⟨true, true, true, true, true, true, true, false⟩

/-- `nDefaultPort` -/
def defaultPort : Scheme → Option Nat
  | .http => some 80
  | .https => some 443
  | .ftp => some 21
  | .webSocket => some 80
  | .secureWebSocket => some 443
  | _ => none

/-- The digits of a number. -/
def decimal (n : Nat) : List Byte := (Nat.toDigits 10 n).map fun c => UInt8.ofNat c.toNat

/-- The port of a URL. -/
def portText (url : Url) (nFlags : ToStringFlags) : List Byte :=
  match url.nPort with
  | none => []
  | some nPort =>
    if nFlags.dontAddHostPortIfDefault && defaultPort (scheme2Enum url.cStrSchemeW) == some nPort then
      []
    else 0x3A :: decimal nPort

/-- The user info, the host and the port of a URL. -/
def hostPart (url : Url) (nFlags : ToStringFlags) : Except HResult (List Byte) :=
  if nFlags.addHostPort && !isEmptyStr url.cStrHostW && scheme2Enum url.cStrSchemeW != .file then do
    -- nothing has been stored in `cStrTempW`
    let cStrTempW := []
    let userInfoA ←
      if nFlags.addUserInfo && !isEmptyStr url.cStrUserInfoW then
        (toStringEncode (ascii "!$&'()*+,;=:") cStrTempW).map (· ++ [0x40])
      else .ok []
    let cStrTempA ← Punycode.encode url.cStrHostW
    .ok (userInfoA ++ szStr cStrTempA ++ portText url nFlags)
  else .ok []

/-- The path of a URL. -/
def pathPart (szAllowedCharsA : List Byte) (url : Url) (nFlags : ToStringFlags) :
    Except HResult (List Byte) :=
  if !nFlags.addPath then .ok []
  else if isEmptyStr url.cStrPathW then .ok [0x2F]
  else do
    let cStrTempW ←
      if nFlags.shrinkPath then reducePath (szStr url.cStrPathW) url.cStrSchemeW
      else .ok (normalizePath (szStr url.cStrPathW) url.cStrSchemeW)
    toStringEncode szAllowedCharsA cStrTempW

/-- The scheme, the host and the path of a URL. -/
def frontText (url : Url) (nFlags : ToStringFlags) : Except HResult (List Byte) :=
  match scheme2Enum url.cStrSchemeW with
  | .none => pathPart (ascii "/@:") url nFlags
  | .mailTo | .news => do
    let schemeA :=
      if nFlags.addScheme then
        if scheme2Enum url.cStrSchemeW == .mailTo then ascii "mailto:" else ascii "news:"
      else []
    -- nothing has been stored in `cStrTempW`
    let cStrTempW := []
    let pathA ← if nFlags.addPath then toStringEncode (ascii "/@:") cStrTempW else .ok []
    .ok (schemeA ++ pathA)
  | _ => do
    let schemeA :=
      if nFlags.addScheme then (szStr url.cStrSchemeW).map UInt16.toUInt8 ++ ascii "://" else []
    let hostA ← hostPart url nFlags
    let pathA ← pathPart (ascii "/") url nFlags
    .ok (schemeA ++ hostA ++ pathA)

/-- A query parameter. -/
def itemText (item : List WChar × List WChar) : Except HResult (List Byte) := do
  let nameA ← toStringEncode [] (szStr item.1)
  if charAt item.2 0 != 0 then do
    let valueA ← toStringEncode [] (szStr item.2)
    .ok (nameA ++ 0x3D :: valueA)
  else .ok nameA

/-- The query parameters, with `sep` before the first one. -/
def queryText : Byte → List (List WChar × List WChar) → Except HResult (List Byte)
  | _, [] => .ok []
  | sep, item :: items => do
    let itemA ← itemText item
    let itemsA ← queryText 0x26 items
    .ok (sep :: itemA ++ itemsA)

/-- The fragment. -/
def fragmentText (cStrFragmentW : List WChar) : Except HResult (List Byte) :=
  if isEmptyStr cStrFragmentW then .ok []
  else (toStringEncode [] cStrFragmentW).map (0x23 :: ·)

/-- `ToString(cStrDestA, nFlags)`: the text in `cStrDestA`, or the result code. -/
def Url.toString (url : Url) (nFlags : ToStringFlags) : Except HResult (List Byte) := do
  let frontA ← frontText url nFlags
  let queryA ← if nFlags.addQueryStrings then queryText 0x3F url.cQueryStringsList else .ok []
  let fragmentA ← if nFlags.addFragment then fragmentText url.cStrFragmentW else .ok []
  .ok (frontA ++ queryA ++ fragmentA)

/-! ### The setters -/

/-- `SetScheme(szSchemeW)` -/
def setSchemeW (szSchemeW : List WChar) : Except HResult (List WChar) :=
  match szStr szSchemeW with
  | [] => .ok []
  | chW :: sW =>
    if isAlphaW chW && sW.all isSchemeChar then .ok ((chW :: sW).map lowerW)
    else .error .mxInvalidData

/-- `SetPort` -/
def setPort (nPort : Int) : Except HResult (Option Nat) :=
  if nPort = -1 then .ok none
  else if nPort < 1 ∨ nPort > 65535 then .error .eInvalidArg
  else .ok (some nPort.toNat)

/-- `SetPath(szPathW, nPathLen)` -/
def setPathW (szPathW szSchemeW : List WChar) : List WChar :=
  if szPathW = [] then [] else normalizePath szPathW szSchemeW

/-- A call of a setter, with the texts up to the lengths given. -/
inductive Setter
  | scheme (szSchemeA : List Byte)
  | schemeW (szSchemeW : List WChar)
  | host (szHostA : List Byte)
  | hostW (szHostW : List WChar)
  | port (nPort : Int)
  | path (szPathA : List Byte)
  | pathW (szPathW : List WChar)
  | shrinkPath
  | resetQueryStrings
  | addQueryString (szNameA szValueA : List Byte)
  | addQueryStringW (szNameW szValueW : List WChar)
  | removeQueryString (nIndex : Nat)
  | fragment (szFragmentA : List Byte)
  | fragmentW (szFragmentW : List WChar)
  | userInfo (szUserInfoA : List Byte)
  | userInfoW (szUserInfoW : List WChar)

/-- The URL behind a call of a setter. -/
def Url.set (url : Url) : Setter → Except HResult Url
  | .scheme s => (setScheme s).map fun v => { url with cStrSchemeW := v }
  | .schemeW s => (setSchemeW s).map fun v => { url with cStrSchemeW := v }
  | .host s => (setHostA s).map fun v => { url with cStrHostW := v }
  | .hostW s => (setHostW s).map fun v => { url with cStrHostW := v }
  | .port n => (setPort n).map fun v => { url with nPort := v }
  | .path s => (setPath s url.cStrSchemeW).map fun v => { url with cStrPathW := v }
  | .pathW s => .ok { url with cStrPathW := setPathW s url.cStrSchemeW }
  | .shrinkPath => (reducePath url.cStrPathW url.cStrSchemeW).map fun v => { url with cStrPathW := v }
  | .resetQueryStrings => .ok { url with cQueryStringsList := [] }
  | .addQueryString name value => (addQueryString name value).map fun v =>
      { url with cQueryStringsList := url.cQueryStringsList ++ [v] }
  | .addQueryStringW name value =>
    if name = [] then .error .eInvalidArg
    else .ok { url with cQueryStringsList := url.cQueryStringsList ++ [(name, value)] }
  | .removeQueryString nIndex =>
    if nIndex ≥ url.cQueryStringsList.length then .error .eInvalidArg
    else .ok { url with cQueryStringsList := url.cQueryStringsList.eraseIdx nIndex }
  | .fragment s => (if s = [] then .ok [] else decodeText s).map fun v =>
      { url with cStrFragmentW := v }
  | .fragmentW s => .ok { url with cStrFragmentW := s }
  | .userInfo s => (setUserInfo s).map fun v => { url with cStrFragmentW := v }
  | .userInfoW s =>
    if s = [] then .ok { url with cStrUserInfoW := [] } else .ok { url with cStrFragmentW := s }

/-- The URLs that setters make of a new one. -/
inductive Url.Built : Url → Prop
  | new : Url.Built .reset
  | set {url url' : Url} (s : Setter) (hurl : url.Built) (h : url.set s = .ok url') : url'.Built

end MxLib.Http
