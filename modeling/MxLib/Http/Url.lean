import MxLib.Library.Loop
import MxLib.Strings.Utf8

/-!
# URLs

`parseFromString` is `CUrl::ParseFromString` for narrow strings.  A string is given
as its `nSrcLen` bytes; where the source moves `szUrlA` on, the model drops what was
passed.  Allocation does not fail.

`NormalizePath` and `ReducePath` change a path in place while an index runs over
it; a loop over the pair is written as the turn of the loop.  They see a path up to
its first zero, which the decoding of a path can produce.

What the host of a URL may be is asked of `UrlEnv`: nothing here depends on it.
-/

namespace MxLib.Http

open MxLib.Library

/-! ### Characters -/

def slashW : WChar := 0x2F
def backslashW : WChar := 0x5C
def dotW : WChar := 0x2E
def colonW : WChar := 0x3A
def pipeW : WChar := 0x7C

def isAlphaA (chA : Byte) : Bool := (0x41 ≤ chA && chA ≤ 0x5A) || (0x61 ≤ chA && chA ≤ 0x7A)

def isAlphaW (chW : WChar) : Bool := (0x41 ≤ chW && chW ≤ 0x5A) || (0x61 ≤ chW && chW ≤ 0x7A)

/-- `IsHexaDigit`; `none` stands for -1. -/
def isHexaDigit (chA : Byte) : Option Nat :=
  if 0x30 ≤ chA && chA ≤ 0x39 then some (chA.toNat - 0x30)
  else if 0x41 ≤ chA && chA ≤ 0x46 then some (chA.toNat - 0x41 + 10)
  else if 0x61 ≤ chA && chA ≤ 0x66 then some (chA.toNat - 0x61 + 10)
  else none

def isSlash (chA : Byte) : Bool := chA == 0x2F || chA == 0x5C

/-- `FindChar`, over the bytes of the list: the place of the first one of
`szToFindA`, unless a zero or one of `szStopCharA` comes first. -/
def findChar (szToFindA szStopCharA : List Byte) : List Byte → Option Nat
  | [] => none
  | chA :: rest =>
    if chA == 0 then none
    else if szToFindA.contains chA then some 0
    else if szStopCharA.contains chA then none
    else (findChar szToFindA szStopCharA rest).map (· + 1)

/-! ### Schemes -/

inductive Scheme
  | unknown | none | mailTo | news | http | https | ftp | file | resource | nntp | gopher
  | webSocket | secureWebSocket
deriving DecidableEq

/-- `aValidSchemes` -/
def validSchemes : List (List WChar × Scheme) :=
  [(wide "mailto", .mailTo), (wide "news", .news), (wide "http", .http), (wide "https", .https),
    (wide "ftp", .ftp), (wide "file", .file), (wide "resource", .resource), (wide "nntp", .nntp),
    (wide "gopher", .gopher), (wide "ws", .webSocket), (wide "wss", .secureWebSocket)]

def scheme2Enum (szSchemeW : List WChar) : Scheme :=
  if isEmptyStr szSchemeW then .none
  else
    match validSchemes.find? fun s => strCompareW szSchemeW s.1 true with
    | some s => s.2
    | none => .unknown

def isSchemeChar (chW : WChar) : Bool :=
  isAlphaW chW || (0x30 ≤ chW && chW ≤ 0x39) || chW == 0x2E || chW == 0x2B || chW == 0x2D

/-- `SetScheme`, with the scheme it stores.  A byte that is not ASCII does not
become a character of a scheme in any code page, so it may stay what it is. -/
def setScheme (szSchemeA : List Byte) : Except HResult (List WChar) :=
  match (szStr szSchemeA).map UInt8.toUInt16 with
  | [] => .ok []
  | chW :: sW =>
    if isAlphaW chW && sW.all isSchemeChar then .ok ((chW :: sW).map lowerW)
    else .error .mxInvalidData

/-- A path of this scheme can be the name of a file. -/
def canBeFilename (szSchemeW : List WChar) : Bool :=
  scheme2Enum szSchemeW == .none || scheme2Enum szSchemeW == .file

/-! ### Percent-encoding -/

/-- `DecodePct`; 0 where there is no sequence. -/
def decodePct (szStrA : List Byte) : Byte :=
  if charAt szStrA 0 != 0x25 then 0
  else
    match isHexaDigit (charAt szStrA 1), isHexaDigit (charAt szStrA 2) with
    | some d0, some d1 => UInt8.ofNat (d0 * 16 + d1)
    | _, _ => 0

/-- `DecodePctU`; 0 where there is no sequence. -/
def decodePctU (szStrA : List Byte) : WChar :=
  if charAt szStrA 0 != 0x25 || (charAt szStrA 1 != 0x75 && charAt szStrA 1 != 0x55) then 0
  else
    match isHexaDigit (charAt szStrA 2), isHexaDigit (charAt szStrA 3),
        isHexaDigit (charAt szStrA 4), isHexaDigit (charAt szStrA 5) with
    | some d0, some d1, some d2, some d3 => UInt16.ofNat (d0 * 4096 + d1 * 256 + d2 * 16 + d3)
    | _, _, _, _ => 0

/-- The loop of `Decode`, with at most `fuel` characters left. -/
def decodeFrom : Nat → List Byte → List Byte → Except HResult (List Byte)
  | 0, _, cStrDestA => .ok cStrDestA
  | fuel + 1, szUrlA, cStrDestA =>
    match szUrlA with
    | [] => .ok cStrDestA
    | chA :: rest =>
      if chA == 0x2B then decodeFrom fuel rest (cStrDestA ++ [0x20])
      else if chA == 0x25 then
        if szUrlA.length ≥ 3 && decodePct szUrlA != 0 then
          decodeFrom fuel (szUrlA.drop 3) (cStrDestA ++ [decodePct szUrlA])
        else if szUrlA.length ≥ 6 && decodePctU szUrlA != 0 then
          match utf8Encode [decodePctU szUrlA] with
          | .error hRes => .error hRes
          | .ok cStrTempA => decodeFrom fuel (szUrlA.drop 6) (cStrDestA ++ szStr cStrTempA)
        else decodeFrom fuel rest (cStrDestA ++ [0x25])
      else if chA &&& 0x80 != 0 then .error .mxInvalidData
      else decodeFrom fuel rest (cStrDestA ++ [chA])

/-- `Decode` -/
def decode (szUrlA : List Byte) : Except HResult (List Byte) :=
  decodeFrom szUrlA.length szUrlA []

def hasDisallowedEscapedSequences (szSrcA : List Byte) : Bool :=
  strNFindA (ascii "%00") szSrcA || strNFindA (ascii "%2F") szSrcA ||
    strNFindA (ascii "%5C") szSrcA || strNFindA (ascii "%u0000") szSrcA ||
    strNFindA (ascii "%u002F") szSrcA || strNFindA (ascii "%u005C") szSrcA

/-- `Decode`, then `Utf8_Decode` -/
def decodeText (szTextA : List Byte) : Except HResult (List WChar) :=
  match decode szTextA with
  | .error hRes => .error hRes
  | .ok cStrTempA => utf8Decode cStrTempA

/-! ### Paths -/

/-- Backslashes become slashes, up to the first zero. -/
def convertBackslashes : List WChar → List WChar
  | [] => []
  | chW :: rest =>
    if chW == 0 then chW :: rest
    else (if chW == backslashW then slashW else chW) :: convertBackslashes rest

/-- The slashes at the beginning. -/
def countSlashes (sW : List WChar) : Nat := (sW.takeWhile (· == slashW)).length

/-- A letter and a colon, or a bar in its place, at index `k`. -/
def isDriveAt (sW : List WChar) (k : Nat) : Bool :=
  isAlphaW (charAt sW k) && (charAt sW (k + 1) == colonW || charAt sW (k + 1) == pipeW)

/-- The end of the name of the server, from index 2 on. -/
def serverEnd (sW : List WChar) : Nat :=
  2 + ((sW.drop 2).takeWhile fun chW => chW != 0 && chW != slashW).length

/-- One turn of the loop that removes double slashes. -/
def collapseTurn : List WChar × Nat → (List WChar × Nat) ⊕ List WChar
  | (cStrPathW, nOfs) =>
    if charAt cStrPathW nOfs == 0 then .inr cStrPathW
    else if charAt cStrPathW nOfs == slashW && charAt cStrPathW (nOfs + 1) == slashW then
      .inl (deleteStr cStrPathW (nOfs + 1) 1, nOfs)
    else .inl (cStrPathW, nOfs + 1)

/-- A drive letter is left with one slash before it and one behind it. -/
def normalizeDrive (cStrPathW : List WChar) (k : Nat) : List WChar :=
  let sW :=
    if k = 0 then insertStr cStrPathW 0 [slashW]
    else if k > 1 then deleteStr cStrPathW 0 (k - 1)
    else cStrPathW
  let sW := sW.set 2 colonW
  if charAt sW 3 != slashW then insertStr sW 3 [slashW] else sW

/-- The name of a server is left with two slashes before it and one behind it. -/
def normalizeUnc (cStrPathW : List WChar) (k : Nat) : List WChar × Nat :=
  let sW := deleteStr cStrPathW 0 (k - 2)
  let nOfs := serverEnd sW
  (if charAt sW nOfs != slashW then insertStr sW nOfs [slashW] else sW, nOfs)

/-- `NormalizePath` -/
def normalizePath (cStrPathW szSchemeW : List WChar) : List WChar :=
  if isEmptyStr cStrPathW then cStrPathW
  else
    let sW := convertBackslashes cStrPathW
    let k := countSlashes sW
    let (sW, nOfs) :=
      if canBeFilename szSchemeW then
        if isDriveAt sW k then (normalizeDrive sW k, 3)
        else if k ≥ 2 then normalizeUnc sW k
        else (sW, 0)
      else (if k > 1 then deleteStr sW 0 (k - 1) else sW, 0)
    Loop.exec collapseTurn (fun c => c.1.length - c.2) sW (sW, nOfs)

/-- The path, the index, and the flags of `ReducePath`. -/
structure Reducing where
  cStrPathW : List WChar
  k : Nat
  bValid : Bool
  bPrevWasSlash : Bool

/-- The way back from index `k` to the character after a slash. -/
def backToSlash (sW : List WChar) (nStartOfs : Nat) : Nat → Nat
  | 0 => 0
  | k + 1 =>
    if k + 1 > nStartOfs && charAt sW k != slashW then backToSlash sW nStartOfs k else k + 1

/-- One turn of the loop of `ReducePath`. -/
def reduceTurn (nStartOfs : Nat) (c : Reducing) : Reducing ⊕ Reducing :=
  let sW := c.cStrPathW
  let k := c.k
  if charAt sW k == 0 then .inr c
  else if charAt sW k == slashW then .inl { c with bPrevWasSlash := true, k := k + 1 }
  else if !c.bPrevWasSlash then .inl { c with k := k + 1 }
  else if charAt sW k == dotW then
    if charAt sW (k + 1) == slashW || charAt sW (k + 1) == 0 then
      .inl { c with
        cStrPathW := deleteStr sW k (if charAt sW (k + 1) == slashW then 2 else 1) }
    else if charAt sW (k + 1) == dotW then
      if charAt sW (k + 2) == slashW || charAt sW (k + 2) == 0 then
        let l := if charAt sW (k + 2) == slashW then 3 else 2
        if k == nStartOfs || k == nStartOfs + 1 then
          .inl { c with bValid := false, cStrPathW := deleteStr sW k l }
        else
          -- back to the slash before the dots, then to the one before that
          let k' := backToSlash sW nStartOfs (k - 1)
          .inl { c with cStrPathW := deleteStr sW k' (k - k' + l), k := k' }
      else .inl { c with bPrevWasSlash := false, k := k + 2 }
    else .inl { c with bPrevWasSlash := false, k := k + 1 }
  else .inl { c with bPrevWasSlash := false, k := k + 1 }

/-- Where the part of a path begins that is reduced. -/
def reduceStart (sW szSchemeW : List WChar) : Nat :=
  if canBeFilename szSchemeW && charAt sW 0 == slashW then
    if isAlphaW (charAt sW 1) && charAt sW 2 == colonW then 3
    else if charAt sW 1 == slashW then
      2 + ((sW.drop 2).takeWhile (· != slashW)).length
    else 0
  else 0

/-- The loop of `ReducePath`, over a path that is normalized. -/
def reduceLoop (nStartOfs : Nat) (cStrPathW : List WChar) : Reducing :=
  let c := ⟨cStrPathW, nStartOfs, true, true⟩
  Loop.exec (reduceTurn nStartOfs) (fun c => 2 * c.cStrPathW.length - c.k) c c

/-- `ReducePath` -/
def reducePath (cStrPathW szSchemeW : List WChar) : Except HResult (List WChar) :=
  if isEmptyStr cStrPathW then .ok cStrPathW
  else
    let sW := normalizePath cStrPathW szSchemeW
    let c := reduceLoop (reduceStart sW szSchemeW) sW
    if c.bValid then .ok c.cStrPathW else .error .mxInvalidData

/-- `SetPath(szPathA, nPathLen)`, with the path it stores. -/
def setPath (szPathA : List Byte) (szSchemeW : List WChar) : Except HResult (List WChar) :=
  if szPathA = [] then .ok []
  else if hasDisallowedEscapedSequences szPathA then .error .mxInvalidData
  else (decodeText szPathA).map fun cStrTempW =>
    if cStrTempW = [] then [] else normalizePath cStrTempW szSchemeW

/-! ### Parsing -/

structure Url where
  cStrSchemeW : List WChar
  cStrHostW : List WChar
  cStrPathW : List WChar
  nPort : Option Nat
  cQueryStringsList : List (List WChar × List WChar)
  cStrUserInfoW : List WChar
  cStrFragmentW : List WChar
deriving DecidableEq

/-- `Reset` -/
def Url.reset : Url := ⟨[], [], [], none, [], [], []⟩

/-- What is asked about hosts and mail addresses. -/
structure UrlEnv where
  isLocalHost : List Byte → Bool
  setHost : List Byte → Except HResult (List WChar)
  isValidEMailAddress : List WChar → Bool
  validateHostAddress : List WChar → Except HResult (List WChar)

/-- The prefixes the source takes for `URL:`.  The call passes `TRUE` for the number
of characters, so only the first one is compared. -/
def skipUrlPrefix : Nat → List Byte → List Byte
  | 0, szUrlA => szUrlA
  | fuel + 1, szUrlA =>
    if szUrlA.length ≥ 4 && strNCompareA szUrlA (ascii "URL:") 1 true then
      skipUrlPrefix fuel (szUrlA.drop 4)
    else szUrlA

/-- At most two of the slashes at the front stay. -/
def leaveTwoSlashes (szUrlA : List Byte) : List Byte :=
  szUrlA.drop ((szUrlA.takeWhile isSlash).length - 2)

/-- A URL in its parts: the scheme, the host, and the rest from the path on. -/
structure UrlParts where
  cStrSchemeW : List WChar
  cStrTempHostA : List Byte
  rest : List Byte

def isMail (szSchemeW : List WChar) : Bool :=
  scheme2Enum szSchemeW == .mailTo || scheme2Enum szSchemeW == .news

/-- The host of a URL with this scheme. -/
def splitHostPart (e : UrlEnv) (cStrSchemeW : List WChar) (szUrlA : List Byte) : UrlParts :=
  let szUrlA :=
    if szUrlA.length ≥ 2 && isSlash (charAt szUrlA 0) && isSlash (charAt szUrlA 1) then
      szUrlA.drop 2
    else szUrlA
  let nPos := (findChar (ascii "/\\") (ascii "?#") szUrlA).getD szUrlA.length
  let cStrTempHostA := szUrlA.take nPos
  if scheme2Enum cStrSchemeW == .file then
    let szUrlA :=
      if !isEmptyStr cStrTempHostA && e.isLocalHost (szStr cStrTempHostA) then szUrlA.drop nPos
      else szUrlA
    ⟨cStrSchemeW, [], leaveTwoSlashes szUrlA⟩
  else ⟨cStrSchemeW, cStrTempHostA, szUrlA.drop nPos⟩

/-- The parts of a URL that is not empty. -/
def splitUrl (e : UrlEnv) (szUrlA : List Byte) : Except HResult UrlParts :=
  match findChar (ascii ":") (ascii "@?#/\\") szUrlA with
  | none => .ok ⟨[], [], leaveTwoSlashes szUrlA⟩
  | some 0 => .error .eFail
  | some nPos =>
    match setScheme (szUrlA.take nPos) with
    | .error hRes => .error hRes
    | .ok cStrSchemeW =>
      let szUrlA := szUrlA.drop (nPos + 1)
      if isMail cStrSchemeW then .ok ⟨cStrSchemeW, [], szUrlA⟩
      else .ok (splitHostPart e cStrSchemeW szUrlA)

/-- The text of a path: its backslashes are slashes, and a drive letter at its front
gets another one before it. -/
def pathText (szPathA : List Byte) : List Byte :=
  let rec slashed : List Byte → List Byte
    | [] => []
    | chA :: rest =>
      if chA == 0 then chA :: rest else (if chA == 0x5C then 0x2F else chA) :: slashed rest
  let cStrTempA := slashed szPathA
  let i := (cStrTempA.takeWhile (· == 0x2F)).length
  if !isEmptyStr cStrTempA && isAlphaA (charAt cStrTempA i) &&
      (charAt cStrTempA (i + 1) == 0x3A || charAt cStrTempA (i + 1) == 0x7C) then
    [0x2F, charAt cStrTempA i, 0x3A] ++ deleteStr cStrTempA 0 i
  else cStrTempA

/-- Where the path of a URL ends in `rest`. -/
def pathEnd (rest : List Byte) : Nat := (findChar (ascii "?#") [] rest).getD rest.length

/-- The digits of a port. -/
def parsePort : Nat → List Byte → Except HResult Nat
  | nPort, [] => if nPort < 1 then .error .eFail else .ok nPort
  | nPort, chA :: sA =>
    if 0x30 ≤ chA && chA ≤ 0x39 then
      if nPort * 10 + (chA.toNat - 0x30) > 65535 then .error .eFail
      else parsePort (nPort * 10 + (chA.toNat - 0x30)) sA
    else if chA != 0 || nPort < 1 then .error .eFail
    else .ok nPort

/-- The host, the user info and the port. -/
def splitHost (cStrTempHostA : List Byte) :
    Except HResult (List Byte × List Byte × Option Nat) :=
  if isEmptyStr cStrTempHostA then .ok (cStrTempHostA, [], none)
  else
    match findChar (ascii "@") [] cStrTempHostA with
    | some 0 => .error .eFail
    | nPos =>
      let cStrTempUserInfoA := cStrTempHostA.take (nPos.getD 0)
      let cStrTempHostA := cStrTempHostA.drop ((nPos.map (· + 1)).getD 0)
      match findChar (ascii ":") [] cStrTempHostA with
      | some 0 => .error .eFail
      | none => .ok (cStrTempHostA, cStrTempUserInfoA, none)
      | some nPos =>
        match parsePort 0 (cStrTempHostA.drop (nPos + 1)) with
        | .error hRes => .error hRes
        | .ok nPort => .ok (cStrTempHostA.take nPos, cStrTempUserInfoA, some nPort)

/-- `SetHost(szHostA)` -/
def setHost (e : UrlEnv) (szHostA : List Byte) : Except HResult (List WChar) :=
  if szStr szHostA = [] then .ok [] else e.setHost (szStr szHostA)

/-- `AddQueryString` -/
def addQueryString (szNameA szValueA : List Byte) : Except HResult (List WChar × List WChar) :=
  if szNameA = [] then .error .eInvalidArg
  else do
    let cStrTempNameW ← decodeText szNameA
    let cStrTempValueW ← decodeText szValueA
    if cStrTempNameW = [] then .error .eInvalidArg else .ok (cStrTempNameW, cStrTempValueW)

/-- The loop over the query parameters, with at most `fuel` of them left: the
parameters and the rest. -/
def parseQuery : Nat → List Byte → List (List WChar × List WChar) →
    Except HResult (List (List WChar × List WChar) × List Byte)
  | 0, szUrlA, query => .ok (query, szUrlA)
  | fuel + 1, szUrlA, query =>
    match szUrlA with
    | [] => .ok (query, [])
    | chA :: rest =>
      if chA == 0 then .ok (query, szUrlA)
      else
        let nPos := (findChar (ascii "#&") [] szUrlA).getD szUrlA.length
        if nPos = 0 then
          if chA == 0x26 then parseQuery fuel rest query else .ok (query, szUrlA)
        else do
          let item := szUrlA.take nPos
          let i := findChar (ascii "=") [] item
          let param ← addQueryString (item.take (i.getD nPos)) (item.drop (i.getD nPos + 1))
          parseQuery fuel (szUrlA.drop nPos) (query ++ [param])

/-- The query parameters, if there are any, and the rest. -/
def queryPart (rest : List Byte) : Except HResult (List (List WChar × List WChar) × List Byte) :=
  if charAt rest 0 == 0x3F then parseQuery rest.length (rest.drop 1) [] else .ok ([], rest)

/-- The fragment, if there is one; otherwise `cStrFragmentW` stays. -/
def fragmentPart (cStrFragmentW : List WChar) (rest : List Byte) : Except HResult (List WChar) :=
  if charAt rest 0 == 0x23 then
    if rest.drop 1 = [] then .ok [] else decodeText (rest.drop 1)
  else .ok cStrFragmentW

/-- The query parameters and the fragment. -/
def parseParams (url : Url) (rest : List Byte) : Except HResult Url := do
  let (cQueryStringsList, rest) ← queryPart rest
  let cStrFragmentW ← fragmentPart url.cStrFragmentW rest
  .ok { url with cQueryStringsList := cQueryStringsList, cStrFragmentW := cStrFragmentW }

/-- The address of a `mailto` or `news` URL is checked. -/
def checkMail (e : UrlEnv) (cStrSchemeW cStrPathW : List WChar) : Except HResult (List WChar) :=
  if e.isValidEMailAddress cStrPathW then .ok cStrPathW
  else if scheme2Enum cStrSchemeW != .news then .error .eFail
  else e.validateHostAddress cStrPathW

/-- A URL with an address. -/
def parseMail (e : UrlEnv) (parts : UrlParts) : Except HResult Url := do
  let cStrPathW ← decodeText (parts.rest.take (pathEnd parts.rest))
  let cStrPathW ← checkMail e parts.cStrSchemeW cStrPathW
  parseParams ⟨parts.cStrSchemeW, [], cStrPathW, none, [], [], []⟩
    (parts.rest.drop (pathEnd parts.rest))

/-- The path of a URL with a scheme begins with a slash. -/
def prependSlash (cStrSchemeW cStrPathW : List WChar) : List WChar :=
  if !isEmptyStr cStrSchemeW && (isEmptyStr cStrPathW || charAt cStrPathW 0 != slashW) then
    insertStr cStrPathW 0 [slashW]
  else cStrPathW

/-- `SetUserInfo`.  What it is given is stored as the fragment. -/
def setUserInfo (szUserInfoA : List Byte) : Except HResult (List WChar) :=
  if szUserInfoA = [] then .ok [] else decodeText szUserInfoA

/-- A URL with a path. -/
def parsePath (e : UrlEnv) (parts : UrlParts) : Except HResult Url := do
  let cStrPathW ← setPath (pathText (parts.rest.take (pathEnd parts.rest))) parts.cStrSchemeW
  let cStrPathW ← reducePath cStrPathW parts.cStrSchemeW
  let (cStrTempHostA, cStrTempUserInfoA, nPort) ← splitHost parts.cStrTempHostA
  let cStrPathW := prependSlash parts.cStrSchemeW cStrPathW
  let cStrHostW ← setHost e cStrTempHostA
  let cStrFragmentW ← setUserInfo cStrTempUserInfoA
  let url ← parseParams ⟨parts.cStrSchemeW, cStrHostW, cStrPathW, nPort, [], [], cStrFragmentW⟩
    (parts.rest.drop (pathEnd parts.rest))
  .ok { url with cStrPathW := normalizePath url.cStrPathW url.cStrSchemeW }

/-- **What a URL with a path is parsed to.** -/
theorem parsePath_iff {e : UrlEnv} {parts : UrlParts} {url : Url} :
    parsePath e parts = .ok url ↔ ∃ cStrPathW R x cStrHostW cStrFragmentW url',
      setPath (pathText (parts.rest.take (pathEnd parts.rest))) parts.cStrSchemeW = .ok cStrPathW ∧
      reducePath cStrPathW parts.cStrSchemeW = .ok R ∧
      splitHost parts.cStrTempHostA = .ok x ∧ setHost e x.1 = .ok cStrHostW ∧
      setUserInfo x.2.1 = .ok cStrFragmentW ∧
      parseParams ⟨parts.cStrSchemeW, cStrHostW, prependSlash parts.cStrSchemeW R, x.2.2, [], [],
        cStrFragmentW⟩ (parts.rest.drop (pathEnd parts.rest)) = .ok url' ∧
      url = { url' with cStrPathW := normalizePath url'.cStrPathW url'.cStrSchemeW } := by
  constructor
  · intro h
    obtain ⟨cStrPathW, hset, h⟩ := exists_of_bind_ok h
    obtain ⟨R, hreduce, h⟩ := exists_of_bind_ok h
    obtain ⟨x, hsplit, h⟩ := exists_of_bind_ok h
    obtain ⟨cStrHostW, hhost, h⟩ := exists_of_bind_ok h
    obtain ⟨cStrFragmentW, huser, h⟩ := exists_of_bind_ok h
    obtain ⟨url', hparams, h⟩ := exists_of_bind_ok h
    exact ⟨_, _, _, _, _, _, hset, hreduce, hsplit, hhost, huser, hparams, (Except.ok.inj h).symm⟩
  · rintro ⟨cStrPathW, R, x, cStrHostW, cStrFragmentW, url', hset, hreduce, hsplit, hhost, huser,
      hparams, rfl⟩
    simp only [parsePath, hset, hreduce, hsplit, hhost, huser, hparams, bind, Except.bind]

/-- `ParseFromString(szUrlA, nSrcLen)` -/
def parseFromString (e : UrlEnv) (szUrlA : List Byte) : Except HResult Url :=
  let szUrlA := skipUrlPrefix szUrlA.length szUrlA
  if szUrlA = [] then .ok .reset
  else
    match splitUrl e szUrlA with
    | .error hRes => .error hRes
    | .ok parts => if isMail parts.cStrSchemeW then parseMail e parts else parsePath e parts

/-- `GetPath()` -/
def Url.getPath (url : Url) : List WChar := szStr url.cStrPathW

end MxLib.Http
