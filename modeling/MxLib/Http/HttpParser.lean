import Mathlib.Data.List.DropRight
import MxLib.Http.HttpHeaders
import MxLib.Http.Url

/-!
# The parser of HTTP messages

The state machine of `CHttpParser::Parse`, for requests (`bActAsServer`) and for
responses.  The buffer is the list of its bytes, and the characters from `szDataA` on
are what is left of it.  `charTurn` is the `switch`: what it does with a character,
given the number of characters from there to the end of the buffer.  Allocation does
not fail, and nothing is logged.

A line that is refused leaves the model's parser as it was; the source may have
stored a part of it, but is in the state `Error` from then on.

The content of the body goes through `ProcessContent` and `FlushContent`, to a
decoder and to the body parser.  The machine itself only needs to know whether they
fail, so it is given for any `Receiver`; `contentReceiver` is the one of the source.
-/

namespace MxLib.Http.HttpParser

open MxLib.Library

def MAX_REQUEST_STATUS_LINE_LENGTH : Nat := 4096
def MAX_HEADER_LINE : Nat := 4096

/-- `ULONGLONG_MAX`, the length of a body whose length is not known. -/
def ULONGLONG_MAX : UInt64 := 0xFFFFFFFFFFFFFFFF

inductive EState
  | start | requestOrStatusLine | requestOrStatusLineEnding
  | headerStart | headerName | headerValue | headerValueEnding | headersEnding
  | bodyStart | identityBodyStart
  | chunkPreStart | chunkStart | chunkStartEnding | chunkStartIgnoreExtension
  | chunkData | chunkAfterData | nearEndOfChunkAfterData
  | done | error
deriving DecidableEq

inductive EBrowser
  | other | ie | ie6 | opera | gecko | chrome | safari | konqueror
deriving DecidableEq

/-- `nHeaderFlags` -/
structure HeaderFlags where
  transferEncodingChunked : Bool
  contentEncodingGZip : Bool
  contentEncodingDeflate : Bool
  upgradeWebSocket : Bool
  connectionUpgrade : Bool
  connectionKeepAlive : Bool
  connectionClose : Bool
deriving DecidableEq

/-- The header classes that are not modelled, with what the parser asks them, and
cookies. -/
structure ParserEnv where
  header : HeaderEnv
  url : UrlEnv
  hasConnection : header.Value → List Byte → Bool
  hasProduct : header.Value → List Byte → Bool
  getHost : header.Value → List WChar
  getPort : header.Value → Option Nat
  Cookie : Type
  cookieName : Cookie → List Byte
  parseFromRequestHeader : List Byte → Except HResult (List Cookie)
  parseFromResponseHeader : List Byte → Except HResult Cookie
  getBrowserFromUserAgent : List Byte → EBrowser

structure Request where
  nHttpProtocol : Nat
  szMethodA : Option (List Byte)
  cUrl : Url
  nBrowser : EBrowser
deriving DecidableEq

structure Response where
  nStatusCode : Nat
  cStrReasonA : List Byte
deriving DecidableEq

structure Chunk where
  nSize : UInt64
  nReaded : UInt64
deriving DecidableEq

/-- `CHttpParser`, without the decoder and the body parser. -/
structure Parser (e : ParserEnv) where
  bActAsServer : Bool
  dwMaxHeaderSize : Nat
  nState : EState
  cStrCurrLineA : List Byte
  dwHeadersLen : Nat
  sRequest : Request
  sResponse : Response
  nHeaderFlags : HeaderFlags
  cCookies : List e.Cookie
  cHeaders : List (Header e.header)
  nContentLength : UInt64
  nIdentityReadedContentLength : UInt64
  sChunk : Chunk

variable {e : ParserEnv}

/-- `Reset` -/
def Parser.reset (p : Parser e) : Parser e where
  bActAsServer := p.bActAsServer
  dwMaxHeaderSize := p.dwMaxHeaderSize
  nState := .start
  cStrCurrLineA := []
  dwHeadersLen := 0
  sRequest := ⟨0, none, .reset, .other⟩
  sResponse := ⟨0, []⟩
  nHeaderFlags := ⟨false, false, false, false, false, false, false⟩
  cCookies := []
  cHeaders := []
  nContentLength := ULONGLONG_MAX
  nIdentityReadedContentLength := 0
  sChunk := ⟨0, 0⟩

/-- A parser that has just been created. -/
def Parser.create (e : ParserEnv) (bActAsServer : Bool) : Parser e where
  bActAsServer := bActAsServer
  dwMaxHeaderSize := 16384
  nState := .start
  cStrCurrLineA := []
  dwHeadersLen := 0
  sRequest := ⟨0, none, .reset, .other⟩
  sResponse := ⟨0, []⟩
  nHeaderFlags := ⟨false, false, false, false, false, false, false⟩
  cCookies := []
  cHeaders := []
  nContentLength := ULONGLONG_MAX
  nIdentityReadedContentLength := 0
  sChunk := ⟨0, 0⟩

/-- `GetRequestMethod` -/
def Parser.getRequestMethod (p : Parser e) : List Byte := p.sRequest.szMethodA.getD []

/-! ### The first line -/

def isUriChar (ch : Byte) : Bool := ch == 9 || ch == 12 || (33 ≤ ch && ch ≤ 126)

/-- `HTTP/1.0` or `HTTP/1.1` -/
def isHttpVersion (szLineA : List Byte) : Bool :=
  szLineA.take 7 == ascii "HTTP/1." && (charAt szLineA 7 == 0x30 || charAt szLineA 7 == 0x31)

/-- What follows the URI of a request line: the protocol. -/
def parseVersion (szLineA : List Byte) : Except HResult Nat :=
  if charAt szLineA 0 != chSpace then .error .mxInvalidData
  else
    let szLineA := (szLineA.drop 1).dropWhile isBlank
    if !isHttpVersion szLineA then .error .mxInvalidData
    else if (szLineA.drop 8).dropWhile isBlank = [] then
      .ok (0x100 + ((charAt szLineA 7).toNat - 0x30))
    else .error .mxInvalidData

/-- The URI of a request line. -/
def parseUri (e : ParserEnv) (szUriA : List Byte) : Except HResult Url :=
  if szUriA = [] then .error .mxInvalidData
  else if szUriA = [0x2A] then .error .eNotImpl
  else if (szUriA.length ≥ 7 && strNCompareA szUriA (ascii "http://") 7 false) ||
      (szUriA.length ≥ 8 && strNCompareA szUriA (ascii "https://") 8 false) ||
      charAt szUriA 0 == 0x2F then
    (parseFromString e.url szUriA).map fun cUrl => { cUrl with cStrSchemeW := [] }
  else .error .mxInvalidData

/-- `ParseRequestLine` -/
def parseRequestLine (p : Parser e) (szLineA : List Byte) : Except HResult (Parser e) :=
  match szLineA.dropWhile (· != chSpace) with
  | [] => .error .mxInvalidData
  | _ :: szUriStartA =>
    match isValidVerb (szLineA.takeWhile (· != chSpace)) with
    | none => .error .mxInvalidData
    | some szMethodA => do
      let cUrl ← parseUri e (szUriStartA.takeWhile isUriChar)
      let nHttpProtocol ← parseVersion (szUriStartA.dropWhile isUriChar)
      .ok { p with
        sRequest := { p.sRequest with
          szMethodA := some szMethodA, cUrl := cUrl, nHttpProtocol := nHttpProtocol } }

/-- `ParseStatusLine` -/
def parseStatusLine (p : Parser e) (szLineA : List Byte) : Except HResult (Parser e) :=
  if !isHttpVersion szLineA || charAt szLineA 8 != chSpace ||
      charAt szLineA 9 < 0x31 || charAt szLineA 9 > 0x35 ||
      !isDigit (charAt szLineA 10) || !isDigit (charAt szLineA 11) ||
      charAt szLineA 12 != chSpace then .error .mxInvalidData
  else
    .ok { p with
      sResponse :=
        { nStatusCode :=
            ((charAt szLineA 9).toNat - 0x30) * 100 + ((charAt szLineA 10).toNat - 0x30) * 10 +
              ((charAt szLineA 11).toNat - 0x30)
          cStrReasonA := (szLineA.drop 12).dropWhile isBlank } }

/-! ### Headers -/

/-- The name of the header in a line and its value without the blanks around it. -/
def splitHeader (szLineA : List Byte) : Option (List Byte × List Byte) :=
  let szLineA := szLineA.dropWhile isBlank
  match szLineA.dropWhile (· != chColon) with
  | [] => none
  | _ :: szValueA =>
    some (szLineA.takeWhile (· != chColon), (szValueA.dropWhile isBlank).rdropWhile isBlank)

/-- `CHttpCookieArray::Merge(lpSrc, bReplaceExisting)` -/
def mergeCookie (cCookies : List e.Cookie) (bReplaceExisting : Bool) (src : e.Cookie) :
    Except HResult (List e.Cookie) :=
  match cCookies.findIdx? fun c => strCompareA (e.cookieName src) (e.cookieName c) true with
  | none => .ok (cCookies ++ [src])
  | some nIdx =>
    if !bReplaceExisting then .error .mxAlreadyExists
    else .ok ((cCookies ++ [src]).eraseIdx nIdx)

/-- `CHttpCookieArray::Merge(cSrc, FALSE)`: a cookie that exists stays. -/
def mergeCookies (cCookies : List e.Cookie) : List e.Cookie → List e.Cookie
  | [] => cCookies
  | src :: cSrc =>
    match mergeCookie cCookies false src with
    | .ok cCookies => mergeCookies cCookies cSrc
    | .error _ => mergeCookies cCookies cSrc

/-- The header has this name and this length. -/
def isName (szNameA : List Byte) (szExpectedA : String) : Bool :=
  szNameA.length == (ascii szExpectedA).length &&
    strNCompareA szNameA (ascii szExpectedA) szNameA.length true

/-- The host of the request, as the `Host` header has it. -/
def setRequestHost (p : Parser e) (value : e.header.Value) : Except HResult (Parser e) := do
  let cStrHostW ←
    match szStr (e.getHost value) with
    | [] => .ok []
    | szHostW => e.url.validateHostAddress szHostW
  .ok { p with
    sRequest := { p.sRequest with
      cUrl := { p.sRequest.cUrl with cStrHostW := cStrHostW, nPort := e.getPort value } } }

/-- What `ParseHeader` keeps of a header beside the header itself.  The product of an
`Upgrade` header is tested the wrong way round. -/
def cacheHeader (p : Parser e) : Header e.header → Except HResult (Parser e)
  | .transferEncoding .identity => .ok p
  | .transferEncoding .chunked =>
    .ok { p with nHeaderFlags := { p.nHeaderFlags with transferEncodingChunked := true } }
  | .transferEncoding .unsupported => .error .mxUnsupported
  | .contentLength nLength => .ok { p with nContentLength := nLength }
  | .contentEncoding .identity => .ok p
  | .contentEncoding .gzip =>
    .ok { p with nHeaderFlags := { p.nHeaderFlags with contentEncodingGZip := true } }
  | .contentEncoding .deflate =>
    .ok { p with nHeaderFlags := { p.nHeaderFlags with contentEncodingDeflate := true } }
  | .contentEncoding .unsupported => .error .mxUnsupported
  | .typed cls value =>
    if cls.szNameA = ascii "Connection" then
      let flags := p.nHeaderFlags
      .ok { p with
        nHeaderFlags :=
          if e.hasConnection value (ascii "upgrade") then { flags with connectionUpgrade := true }
          else if e.hasConnection value (ascii "keep-alive") then
            { flags with connectionKeepAlive := true }
          else if e.hasConnection value (ascii "close") then { flags with connectionClose := true }
          else flags }
    else if cls.szNameA = ascii "Upgrade" then
      if !e.hasProduct value (ascii "WebSocket") then
        .ok { p with nHeaderFlags := { p.nHeaderFlags with upgradeWebSocket := true } }
      else .ok p
    else if p.bActAsServer && cls.szNameA = ascii "Host" then setRequestHost p value
    else .ok p
  | .generic cStrHeaderNameA cStrValueA =>
    if p.bActAsServer && strCompareA cStrHeaderNameA (ascii "User-Agent") true then
      .ok { p with
        sRequest := { p.sRequest with nBrowser := e.getBrowserFromUserAgent cStrValueA } }
    else .ok p

/-- `ParseHeader` -/
def parseHeader (p : Parser e) (szLineA : List Byte) : Except HResult (Parser e) :=
  if szLineA.take 5 = ascii "HTTP/" then .ok p
  else
    match splitHeader szLineA with
    | none => .error .mxInvalidData
    | some (szNameA, szValueA) =>
      if p.bActAsServer && (isName szNameA "Cookie" || isName szNameA "Cookie2") then
        (e.parseFromRequestHeader szValueA).map fun cCookieArray =>
          { p with cCookies := mergeCookies p.cCookies cCookieArray }
      else if !p.bActAsServer && (isName szNameA "Set-Cookie" || isName szNameA "Set-Cookie2") then do
        let cCookie ← e.parseFromResponseHeader szValueA
        let cCookies ← mergeCookie p.cCookies true cCookie
        .ok { p with cCookies := cCookies }
      else do
        let cNewHeader ← createHeader e.header p.bActAsServer szNameA szValueA
        let cHeaders ← mergeHeader p.cHeaders cNewHeader
        cacheHeader { p with cHeaders := cHeaders } cNewHeader

/-! ### One character -/

/-- What the `switch` does with a character: go on `n` characters further, leave the
loop there, fail there, hand over the next `n` characters as content and go on behind
them, do the same and end the message, or just end it. -/
inductive Turn (e : ParserEnv)
  | move (n : Nat) (p : Parser e)
  | leave (n : Nat) (p : Parser e)
  | fail (hRes : HResult) (n : Nat) (p : Parser e)
  | content (n : Nat) (p : Parser e)
  | lastContent (n : Nat) (p : Parser e)
  | flush (p : Parser e)

/-- Go on at the next character. -/
def Turn.next (p : Parser e) : Turn e := .move 1 p

/-- `BACKWARD_CHAR()`: look at the same character again. -/
def Turn.again (p : Parser e) : Turn e := .move 0 p

/-- Go on in `nState` if `ok`, and fail with `MX_E_InvalidData` otherwise. -/
def expect (ok : Bool) (p : Parser e) (nState : EState) : Turn e :=
  if ok then .next { p with nState := nState } else .fail .mxInvalidData 0 p

/-- The character is added to the line, up to the length that is allowed. -/
def addToLine (nMaxLength : Nat) (p : Parser e) (ch : Byte) : Turn e :=
  if p.cStrCurrLineA.length > nMaxLength then .fail .mxBadLength 0 p
  else .next { p with cStrCurrLineA := p.cStrCurrLineA ++ [ch] }

def startTurn (p : Parser e) (ch : Byte) : Turn e :=
  if ch == chCR || ch == chLF then .next p
  else .again { p with nState := .requestOrStatusLine }

def requestOrStatusLineTurn (p : Parser e) (ch : Byte) : Turn e :=
  if ch == chCR then .next { p with nState := .requestOrStatusLineEnding }
  else if ch < 32 && ch != chTab then .fail .mxInvalidData 0 p
  else addToLine MAX_REQUEST_STATUS_LINE_LENGTH p ch

/-- `ParseRequestLine` or `ParseStatusLine` -/
def parseFirstLine (p : Parser e) (szLineA : List Byte) : Except HResult (Parser e) :=
  if p.bActAsServer then parseRequestLine p szLineA else parseStatusLine p szLineA

def requestOrStatusLineEndingTurn (p : Parser e) (ch : Byte) : Turn e :=
  if ch != chLF then .fail .mxInvalidData 0 p
  else
    match parseFirstLine p p.cStrCurrLineA with
    | .error hRes => .fail hRes 0 p
    | .ok p => .next { p with cStrCurrLineA := [], nState := .headerStart }

/-- The header in the line is parsed, if there is one. -/
def endHeaderLine (p : Parser e) : Except HResult (Parser e) :=
  if isEmptyStr p.cStrCurrLineA then .ok p
  else (parseHeader p p.cStrCurrLineA).map fun p => { p with cStrCurrLineA := [] }

def headerNameTurn (p : Parser e) (ch : Byte) : Turn e :=
  if p.dwHeadersLen ≥ p.dwMaxHeaderSize then .fail .mxBadLength 0 p
  else
    let p := { p with dwHeadersLen := p.dwHeadersLen + 1 }
    if ch == chColon then
      if isEmptyStr p.cStrCurrLineA then .fail .mxInvalidData 0 p
      else .next { p with cStrCurrLineA := p.cStrCurrLineA ++ [chColon], nState := .headerValue }
    else if !isValidNameChar ch then .fail .mxInvalidData 0 p
    else addToLine MAX_HEADER_LINE p ch

def headerStartTurn (p : Parser e) (ch : Byte) : Turn e :=
  if ch == chCR then
    match endHeaderLine p with
    | .error hRes => .fail hRes 0 p
    | .ok p => .next { p with nState := .headersEnding }
  else if isBlank ch then
    if isEmptyStr p.cStrCurrLineA then .fail .mxInvalidData 0 p
    else .again { p with nState := .headerValue }
  else
    match endHeaderLine p with
    | .error hRes => .fail hRes 0 p
    | .ok p => headerNameTurn { p with nState := .headerName } ch

def headerValueTurn (p : Parser e) (ch : Byte) : Turn e :=
  if p.dwHeadersLen ≥ p.dwMaxHeaderSize then .fail .mxBadLength 0 p
  else
    let p := { p with dwHeadersLen := p.dwHeadersLen + 1 }
    if ch == chCR then .next { p with nState := .headerValueEnding }
    else if ch == 0 then .fail .mxInvalidData 0 p
    else addToLine MAX_HEADER_LINE p ch

def isHeadOrGet (p : Parser e) : Bool :=
  strCompareA p.getRequestMethod (ascii "HEAD") false ||
    strCompareA p.getRequestMethod (ascii "GET") false

/-- The message has a body, unless it says that its length is zero. -/
def bodyOrDone (p : Parser e) : Parser e :=
  let p :=
    if p.nHeaderFlags.transferEncodingChunked then { p with nContentLength := ULONGLONG_MAX } else p
  if p.nContentLength = 0 then { p with nState := .done } else { p with nState := .bodyStart }

/-- The end of the headers of a request. -/
def requestHeadersEnd (p : Parser e) : Turn e :=
  if isHeadOrGet p then
    if (p.nContentLength ≠ 0 ∧ p.nContentLength ≠ ULONGLONG_MAX) ∨
        p.nHeaderFlags.transferEncodingChunked = true then .fail .win32DataNotAccepted 1 p
    else .leave 1 { p with nState := .done }
  else if strCompareA p.getRequestMethod (ascii "POST") false ∧
      (p.nContentLength = ULONGLONG_MAX ∨ p.nHeaderFlags.transferEncodingChunked = true) then
    .fail .mxInvalidData 1 p
  else .leave 1 (bodyOrDone p)

/-- The end of the headers of a response. -/
def responseHeadersEnd (p : Parser e) : Turn e :=
  if p.sResponse.nStatusCode < 200 ∨ p.sResponse.nStatusCode = 204 ∨
      p.sResponse.nStatusCode = 304 then
    if p.nContentLength ≠ ULONGLONG_MAX ∨ p.nHeaderFlags.transferEncodingChunked = true then
      .fail .win32DataNotAccepted 1 (bodyOrDone p)
    else .leave 1 { p with nState := .done }
  else .leave 1 (bodyOrDone p)

def headersEndingTurn (p : Parser e) (ch : Byte) : Turn e :=
  if ch != chLF then .fail .mxInvalidData 0 p
  else if p.bActAsServer then requestHeadersEnd p
  else responseHeadersEnd p

def bodyStartTurn (p : Parser e) : Turn e :=
  .again { p with
    nState :=
      if p.nHeaderFlags.transferEncodingChunked then .chunkPreStart else .identityBodyStart }

/-- At most `nLeft` characters of the body are content. -/
def identityBodyStartTurn (p : Parser e) (nLeft : Nat) : Turn e :=
  let nToRead := min nLeft (p.nContentLength - p.nIdentityReadedContentLength).toNat
  let nReaded := p.nIdentityReadedContentLength + UInt64.ofNat nToRead
  let p := { p with nIdentityReadedContentLength := nReaded }
  if nReaded = p.nContentLength then .lastContent nToRead { p with nState := .done }
  else .content nToRead p

/-- The value of a digit of the size of a chunk. -/
def chunkDigit (ch : Byte) : Option UInt64 :=
  if isDigit ch then some (ch.toUInt64 - 0x30)
  else if 0x41 ≤ ch &&& 0xDF && ch &&& 0xDF ≤ 0x46 then some ((ch &&& 0xDF).toUInt64 - 0x41 + 10)
  else none

def chunkStartTurn (p : Parser e) (ch : Byte) : Turn e :=
  match chunkDigit ch with
  | some nDigit =>
    if p.sChunk.nSize &&& 0xF000000000000000 ≠ 0 then .fail .mxArithmeticOverflow 0 p
    else .next { p with sChunk := { p.sChunk with nSize := p.sChunk.nSize <<< 4 ||| nDigit } }
  | none =>
    if isBlank ch || ch == 0x3B then .next { p with nState := .chunkStartIgnoreExtension }
    else expect (ch == chCR) p .chunkStartEnding

def chunkPreStartTurn (p : Parser e) (ch : Byte) : Turn e :=
  if (chunkDigit ch).isNone then .fail .mxInvalidData 0 p
  else chunkStartTurn { p with nState := .chunkStart, sChunk := ⟨0, 0⟩ } ch

/-- The end of the line of a chunk.  The line feed of the last one stays where it is. -/
def chunkStartEndingTurn (p : Parser e) (ch : Byte) : Turn e :=
  if ch != chLF then .fail .mxInvalidData 0 p
  else if p.sChunk.nSize = 0 then .flush { p with nState := .done }
  else .next { p with nState := .chunkData }

def chunkStartIgnoreExtensionTurn (p : Parser e) (ch : Byte) : Turn e :=
  .next (if ch == chCR then { p with nState := .chunkStartEnding } else p)

/-- At most `nLeft` characters of the chunk are content. -/
def chunkDataTurn (p : Parser e) (nLeft : Nat) : Turn e :=
  let nToRead := min nLeft (p.sChunk.nSize - p.sChunk.nReaded).toNat
  let nReaded := p.sChunk.nReaded + UInt64.ofNat nToRead
  .content nToRead { p with
    sChunk := { p.sChunk with nReaded := nReaded }
    nIdentityReadedContentLength := p.nIdentityReadedContentLength + UInt64.ofNat nToRead
    nState := if nReaded = p.sChunk.nSize then .chunkAfterData else p.nState }

def chunkAfterDataTurn (p : Parser e) (ch : Byte) : Turn e :=
  if ch == chCR then .next { p with nState := .nearEndOfChunkAfterData }
  else expect (ch == chLF) p .chunkPreStart

/-- The `switch` of `Parse`; `nLeft` is the number of characters from this one on. -/
def charTurn (p : Parser e) (ch : Byte) (nLeft : Nat) : Turn e :=
  match p.nState with
  | .start => startTurn p ch
  | .requestOrStatusLine => requestOrStatusLineTurn p ch
  | .requestOrStatusLineEnding => requestOrStatusLineEndingTurn p ch
  | .headerStart => headerStartTurn p ch
  | .headerName => headerNameTurn p ch
  | .headerValue => headerValueTurn p ch
  | .headerValueEnding => expect (ch == chLF) p .headerStart
  | .headersEnding => headersEndingTurn p ch
  | .bodyStart => bodyStartTurn p
  | .identityBodyStart => identityBodyStartTurn p nLeft
  | .chunkPreStart => chunkPreStartTurn p ch
  | .chunkStart => chunkStartTurn p ch
  | .chunkStartEnding => chunkStartEndingTurn p ch
  | .chunkStartIgnoreExtension => chunkStartIgnoreExtensionTurn p ch
  | .chunkData => chunkDataTurn p nLeft
  | .chunkAfterData => chunkAfterDataTurn p ch
  | .nearEndOfChunkAfterData => expect (ch == chLF) p .chunkPreStart
  | .done | .error => .next p

/-! ### Content -/

/-- What takes the content of a body: how it starts when the headers are there, what
it does with a piece, and how it ends. -/
structure Receiver (e : ParserEnv) where
  State : Type
  initializeFor : Parser e → Except Fault State
  process : HeaderFlags → State → List Byte → Except Fault State
  flush : State → Except Fault State

/-- A body parser.  `finish` is its `Parse` without data. -/
structure BodyParser (e : ParserEnv) where
  State : Type
  initializeFor : Parser e → Except Fault State
  parse : State → List Byte → Except Fault State
  finish : State → Except Fault State

/-- `CZipLib`, with the data that becomes available. -/
structure ZipLib where
  Stream : Type
  beginDecompress : Except Fault Stream
  hasDecompressEndOfStreamBeenReached : Stream → Bool
  decompressStream : Stream → List Byte → Except Fault (Stream × List Byte)
  finish : Stream → Except Fault (Stream × List Byte)

/-- `sBody.cDecoder` and `sBody.cParser` -/
structure Content (z : ZipLib) (b : BodyParser e) where
  cDecoder : Option z.Stream
  cParser : b.State

section Content

variable {z : ZipLib} {b : BodyParser e}

/-- The data that is available goes to the body parser in buffers of 4096 bytes, `n`
of them at most. -/
def parseAvailable (cParser : b.State) : Nat → List Byte → Except Fault b.State
  | 0, _ => .ok cParser
  | _ + 1, [] => .ok cParser
  | n + 1, data => do
    let cParser ← b.parse cParser (data.take 4096)
    parseAvailable cParser n (data.drop 4096)

/-- Decode a piece, unless the end of the stream has been reached. -/
def decompress (cDecoder : z.Stream) (cParser : b.State) (lpContent : List Byte) :
    Except Fault (Content z b) :=
  if z.hasDecompressEndOfStreamBeenReached cDecoder then .ok ⟨some cDecoder, cParser⟩
  else do
    let (cDecoder, data) ← z.decompressStream cDecoder lpContent
    let cParser ← parseAvailable cParser data.length data
    .ok ⟨some cDecoder, cParser⟩

/-- One of the two content codings is there. -/
def HeaderFlags.coded (flags : HeaderFlags) : Bool :=
  flags.contentEncodingGZip != flags.contentEncodingDeflate

/-- `ProcessContent` -/
def processContent (flags : HeaderFlags) (c : Content z b) (lpContent : List Byte) :
    Except Fault (Content z b) :=
  if flags.coded then do
    let cDecoder ← c.cDecoder.elim z.beginDecompress .ok
    decompress cDecoder c.cParser lpContent
  else (b.parse c.cParser lpContent).map fun cParser => { c with cParser := cParser }

/-- The data the decoder still has at the end. -/
def lastData (cDecoder : z.Stream) : Except Fault (z.Stream × List Byte) := do
  let (cDecoder', data) ← z.finish cDecoder
  .ok (cDecoder', if z.hasDecompressEndOfStreamBeenReached cDecoder then [] else data)

/-- `FlushContent` -/
def flushContent (c : Content z b) : Except Fault (Content z b) :=
  match c.cDecoder with
  | none => (b.finish c.cParser).map fun cParser => { c with cParser := cParser }
  | some cDecoder => do
    let (cDecoder, data) ← lastData cDecoder
    let cParser ← parseAvailable c.cParser data.length data
    let cParser ← b.finish cParser
    .ok ⟨some cDecoder, cParser⟩

end Content

/-- The receiver of the source: `SetBodyParser`, `ProcessContent` and `FlushContent`. -/
def contentReceiver (z : ZipLib) (b : BodyParser e) : Receiver e where
  State := Content z b
  initializeFor p := (b.initializeFor p).map fun cParser => ⟨none, cParser⟩
  process := processContent
  flush := flushContent

/-! ### A call of `Parse` -/

/-- A parser and what takes its content, once that is set.  `passed` is the content
handed over so far, and `bRejected` says whether some of it was refused. -/
structure Session (r : Receiver e) where
  p : Parser e
  receiver : Option r.State
  passed : List Byte
  bRejected : Bool

/-- What a call returns: the code, the session and `nDataUsed`. -/
structure Parsed (r : Receiver e) where
  hRes : HResult
  s : Session r
  nDataUsed : Nat

section Parse

variable {r : Receiver e}

/-- A body that comes before its parser is set: the source uses a null pointer. -/
def accessViolation : Fault := ⟨.other 0xC0000005, rfl⟩

def Session.create (r : Receiver e) (p : Parser e) : Session r := ⟨p, none, [], false⟩

/-- What is after `done:` when `hRes` is a failure. -/
def failWith (hRes : HResult) (s : Session r) (nDataUsed : Nat) : Parsed r :=
  ⟨hRes, { s with p := { s.p with nState := .error } }, nDataUsed⟩

/-- The content is refused.  What has refused it is not called again. -/
def reject (err : Fault) (s : Session r) (nDataUsed : Nat) : Parsed r :=
  ⟨err.hRes, { s with p := { s.p with nState := .error }, receiver := none, bRejected := true },
    nDataUsed⟩

/-- `ProcessContent` -/
def Session.process (s : Session r) (lpContent : List Byte) : Except Fault (Session r) :=
  match s.receiver with
  | none => .error accessViolation
  | some st =>
    (r.process s.p.nHeaderFlags st lpContent).map fun st =>
      { s with receiver := some st, passed := s.passed ++ lpContent }

/-- `FlushContent` -/
def Session.flush (s : Session r) : Except Fault (Session r) :=
  match s.receiver with
  | none => .error accessViolation
  | some st => (r.flush st).map fun st => { s with receiver := some st }

/-- The loop of `Parse` between two turns: the session, the characters from `szDataA`
on, and how many there were before. -/
structure Cursor (r : Receiver e) where
  s : Session r
  szDataA : List Byte
  nDataUsed : Nat

/-- `FlushContent`, and `done:` -/
def endMessage (s : Session r) (p : Parser e) (nDataUsed : Nat) : Parsed r :=
  match s.flush with
  | .error err => reject err { s with p := p } nDataUsed
  | .ok s => ⟨.sOk, { s with p := p }, nDataUsed⟩

def parseTurn (c : Cursor r) : Cursor r ⊕ Parsed r :=
  match c.szDataA with
  | [] => .inr ⟨.sOk, c.s, c.nDataUsed⟩
  | ch :: rest =>
    match charTurn c.s.p ch (rest.length + 1) with
    | .move n p => .inl ⟨{ c.s with p := p }, c.szDataA.drop n, c.nDataUsed + n⟩
    | .leave n p => .inr ⟨.sOk, { c.s with p := p }, c.nDataUsed + n⟩
    | .fail hRes n p => .inr (failWith hRes { c.s with p := p } (c.nDataUsed + n))
    | .content n p =>
      match c.s.process (c.szDataA.take n) with
      | .error err =>
        .inr (reject err { c.s with passed := c.s.passed ++ c.szDataA.take n } c.nDataUsed)
      | .ok s => .inl ⟨{ s with p := p }, c.szDataA.drop n, c.nDataUsed + n⟩
    | .lastContent n p =>
      match c.s.process (c.szDataA.take n) with
      | .error err =>
        .inr (reject err { c.s with passed := c.s.passed ++ c.szDataA.take n } c.nDataUsed)
      | .ok s => .inr (endMessage s p (c.nDataUsed + n))
    | .flush p => .inr (endMessage c.s p c.nDataUsed)

/-- The states in which a turn may stay at its character. -/
def EState.mayStay : EState → Nat
  | .start | .headerStart | .bodyStart | .chunkData => 1
  | _ => 0

def Cursor.measure (c : Cursor r) : Nat := 2 * c.szDataA.length + c.s.p.nState.mayStay

/-- `Parse` -/
def parse (s : Session r) (lpData : List Byte) : Parsed r :=
  if s.p.nState = .done then ⟨.sOk, s, 0⟩
  else if s.p.nState = .error then ⟨.mxInvalidData, s, 0⟩
  else Loop.exec parseTurn Cursor.measure ⟨.sOk, s, 0⟩ ⟨s, lpData, 0⟩

/-! ### Driving the parser -/

/-- `SetBodyParser` -/
def setBodyParser (s : Session r) : Except Fault (Session r) :=
  (r.initializeFor s.p).map fun st => { s with receiver := some st }

/-- The headers are complete, and the body parser has to be set. -/
def Session.atBody (s : Session r) : Bool := s.p.nState == .bodyStart && s.receiver.isNone

/-- The message is done, or a call has failed. -/
def Parsed.isLast (out : Parsed r) : Bool :=
  out.hRes.failed || out.s.p.nState == .done || out.s.p.nState == .error

/-- A buffer is given to the parser; what is left of it when the headers are complete
is given again when the body parser is set. -/
def deliver (s : Session r) (lpData : List Byte) : Parsed r :=
  let out := parse s lpData
  if !out.s.atBody then out
  else
    match setBodyParser out.s with
    | .error err => ⟨err.hRes, out.s, out.nDataUsed⟩
    | .ok s =>
      let out' := parse s (lpData.drop out.nDataUsed)
      ⟨out'.hRes, out'.s, out.nDataUsed + out'.nDataUsed⟩

/-- The buffers are given to the parser one after the other, until the message is done
or a call fails. -/
def drive (s : Session r) : List (List Byte) → Parsed r
  | [] => ⟨.sOk, s, 0⟩
  | lpData :: buffers =>
    let out := deliver s lpData
    if out.isLast then out
    else
      let out' := drive out.s buffers
      ⟨out'.hRes, out'.s, out.nDataUsed + out'.nDataUsed⟩

end Parse

end MxLib.Http.HttpParser
