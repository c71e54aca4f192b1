import MxLib.Http.HeaderBase

/-!
# Header classes

The headers a parser keeps.  `CHttpHeaderBase::Create` picks a class by the name of
the header, and the class reads the value.  The three classes that decide how a body
is framed are modelled with what they read; for the others the value is whatever
`HeaderEnv` reads, and no result depends on it.  Names that have no class get a
generic header.

A value is the list of its bytes.  It holds no zero.
-/

namespace MxLib.Http

def isDigit (ch : Byte) : Bool := 0x30 ≤ ch && ch ≤ 0x39

/-! ### Content-Length -/

/-- The digits of `CHttpHeaderEntContentLength::Parse`, and what follows them. -/
def lengthDigits (nLength : UInt64) : List Byte → Except HResult (UInt64 × List Byte)
  | [] => .ok (nLength, [])
  | ch :: sA =>
    if isDigit ch then
      let nTemp := nLength * 10
      if nTemp < nLength then .error .mxArithmeticOverflow
      else
        let nLength := nTemp + ch.toUInt64 - 0x30
        if nLength < nTemp then .error .mxArithmeticOverflow else lengthDigits nLength sA
    else .ok (nLength, ch :: sA)

/-- `CHttpHeaderEntContentLength::Parse` -/
def parseContentLength (szValueA : List Byte) : Except HResult UInt64 :=
  let szValueA := skipSpaces szValueA
  if !isDigit (charAt szValueA 0) then .error .mxInvalidData
  else
    match lengthDigits 0 (szValueA.dropWhile (· == 0x30)) with
    | .error hRes => .error hRes
    | .ok (nLength, sA) => if skipSpaces sA = [] then .ok nLength else .error .mxInvalidData

/-! ### Encodings -/

inductive TransferEncoding
  | identity | chunked | unsupported
deriving DecidableEq

inductive ContentEncoding
  | identity | gzip | deflate | unsupported
deriving DecidableEq

/-- The loop over the items of an encoding header, with at most `fuel` of them left.
Only one item may be there; `nEncoding` is what was read so far. -/
def encodingItems {α : Type} (encodingOf : List Byte → Except HResult α) :
    Nat → List Byte → Option α → Except HResult (Option α)
  | 0, _, nEncoding => .ok nEncoding
  | fuel + 1, szValueA, nEncoding =>
    match skipSpaces szValueA with
    | [] => .ok nEncoding
    | ch :: sA =>
      let (szTokenA, rest) := getToken (ch :: sA)
      let item :=
        if szTokenA = [] then .ok nEncoding
        else if nEncoding.isSome then .error .mxUnsupported
        else (encodingOf szTokenA).map some
      match item with
      | .error hRes => .error hRes
      | .ok nEncoding =>
        match skipSpaces rest with
        | [] => .ok nEncoding
        | sep :: rest =>
          if sep == 0x2C then encodingItems encodingOf fuel rest nEncoding
          else .error .mxInvalidData

/-- `Parse` of both encoding headers, which differ in the encodings they know. -/
def parseEncoding {α : Type} (encodingOf : List Byte → Except HResult α) (szValueA : List Byte) :
    Except HResult α :=
  match encodingItems encodingOf (szValueA.length + 1) szValueA none with
  | .error hRes => .error hRes
  | .ok none => .error .mxInvalidData
  | .ok (some nEncoding) => .ok nEncoding

def isEncoding (szTokenA : List Byte) (szNameA : String) : Bool :=
  szTokenA.length == (ascii szNameA).length &&
    strNCompareA szTokenA (ascii szNameA) szTokenA.length true

def transferEncodingOf (szTokenA : List Byte) : Except HResult TransferEncoding :=
  if isEncoding szTokenA "chunked" then .ok .chunked
  else if isEncoding szTokenA "identity" then .ok .identity
  else .error .mxUnsupported

/-- `CHttpHeaderGenTransferEncoding::Parse` -/
def parseTransferEncoding : List Byte → Except HResult TransferEncoding :=
  parseEncoding transferEncodingOf

/-- Some encodings pass without being stored, `identity` among them. -/
def contentEncodingOf (szTokenA : List Byte) : Except HResult ContentEncoding :=
  if isEncoding szTokenA "gzip" || isEncoding szTokenA "x-gzip" then .ok .gzip
  else if isEncoding szTokenA "deflate" then .ok .deflate
  else if isEncoding szTokenA "7bit" || isEncoding szTokenA "8bit" ||
      isEncoding szTokenA "binary" || isEncoding szTokenA "identity" then .ok .unsupported
  else .error .mxUnsupported

/-- `CHttpHeaderEntContentEncoding::Parse` -/
def parseContentEncoding : List Byte → Except HResult ContentEncoding :=
  parseEncoding contentEncodingOf

/-! ### Classes -/

inductive DuplicateBehavior
  | error | replace | add | merge
deriving DecidableEq

structure HeaderClass where
  szNameA : List Byte
  nDuplicateBehavior : DuplicateBehavior
deriving DecidableEq

def szContentEncodingA : List Byte := ascii "Content-Encoding"
def szContentLengthA : List Byte := ascii "Content-Length"
def szTransferEncodingA : List Byte := ascii "Transfer-Encoding"

/-- The classes `Create` looks through, in its order. -/
def headerClasses (bIsRequest : Bool) : List HeaderClass :=
  (if bIsRequest then
    [⟨ascii "Accept", .merge⟩, ⟨ascii "Accept-Charset", .merge⟩, ⟨ascii "Accept-Encoding", .merge⟩,
      ⟨ascii "Accept-Language", .merge⟩, ⟨ascii "Cache-Control", .merge⟩, ⟨ascii "Expect", .error⟩,
      ⟨ascii "Host", .error⟩, ⟨ascii "If-Match", .error⟩, ⟨ascii "If-None-Match", .error⟩,
      ⟨ascii "If-Modified-Since", .error⟩, ⟨ascii "If-Unmodified-Since", .error⟩,
      ⟨ascii "Range", .error⟩, ⟨ascii "Referer", .error⟩, ⟨ascii "Sec-WebSocket-Key", .error⟩,
      ⟨ascii "Sec-WebSocket-Protocol", .error⟩, ⟨ascii "Sec-WebSocket-Version", .error⟩]
  else
    [⟨ascii "Accept-Ranges", .error⟩, ⟨ascii "Age", .error⟩, ⟨ascii "Cache-Control", .merge⟩,
      ⟨ascii "ETag", .error⟩, ⟨ascii "Location", .error⟩, ⟨ascii "Retry-After", .error⟩,
      ⟨ascii "WWW-Authenticate", .error⟩, ⟨ascii "Proxy-Authenticate", .error⟩,
      ⟨ascii "Sec-WebSocket-Accept", .error⟩, ⟨ascii "Sec-WebSocket-Protocol", .error⟩,
      ⟨ascii "Sec-WebSocket-Version", .merge⟩]) ++
  [⟨ascii "Allow", .merge⟩, ⟨ascii "Content-Disposition", .error⟩, ⟨szContentEncodingA, .error⟩,
    ⟨ascii "Content-Language", .error⟩, ⟨szContentLengthA, .error⟩, ⟨ascii "Content-Range", .error⟩,
    ⟨ascii "Content-Type", .error⟩, ⟨ascii "Expires", .error⟩, ⟨ascii "Last-Modified", .error⟩,
    ⟨ascii "Connection", .error⟩, ⟨ascii "Date", .error⟩, ⟨szTransferEncodingA, .error⟩,
    ⟨ascii "Sec-WebSocket-Extensions", .merge⟩, ⟨ascii "Upgrade", .error⟩]

/-- The test of `CHECK_AND_CREATE_HEADER`. -/
def HeaderClass.isNamed (cls : HeaderClass) (szHeaderNameA : List Byte) : Bool :=
  strNCompareA szHeaderNameA cls.szNameA szHeaderNameA.length true &&
    charAt cls.szNameA szHeaderNameA.length == 0

/-- The classes that are not modelled: how they read a value and how they merge two. -/
structure HeaderEnv where
  Value : Type
  parse : HeaderClass → List Byte → Except HResult Value
  merge : Value → Value → Except HResult Value

inductive Header (e : HeaderEnv)
  | contentEncoding (nEncoding : ContentEncoding)
  | contentLength (nLength : UInt64)
  | transferEncoding (nEncoding : TransferEncoding)
  | typed (cls : HeaderClass) (value : e.Value)
  | generic (cStrHeaderNameA cStrValueA : List Byte)

variable {e : HeaderEnv}

/-- `GetHeaderName` -/
def Header.getHeaderName : Header e → List Byte
  | .contentEncoding _ => szContentEncodingA
  | .contentLength _ => szContentLengthA
  | .transferEncoding _ => szTransferEncodingA
  | .typed cls _ => cls.szNameA
  | .generic cStrHeaderNameA _ => cStrHeaderNameA

/-- `GetDuplicateBehavior` -/
def Header.getDuplicateBehavior : Header e → DuplicateBehavior
  | .typed cls _ => cls.nDuplicateBehavior
  | .generic _ _ => .add
  | _ => .error

/-- `Merge` -/
def Header.merge : Header e → Header e → Except HResult (Header e)
  | .typed cls value, .typed _ value' => (e.merge value value').map (.typed cls)
  | _, _ => .error .mxUnsupported

/-- `CHttpHeaderGeneric::SetValue` -/
def setGenericValue (szValueA : List Byte) : Except HResult (List Byte) :=
  let sA := skipSpaces szValueA
  if sA.any fun ch => !isBlank ch && ch < 0x20 then .error .mxInvalidData
  else .ok (sA.reverse.dropWhile isBlank).reverse

/-- `Parse` of the header of a class. -/
def HeaderClass.parse (e : HeaderEnv) (cls : HeaderClass) (szValueA : List Byte) :
    Except HResult (Header e) :=
  if cls.szNameA = szContentEncodingA then (parseContentEncoding szValueA).map .contentEncoding
  else if cls.szNameA = szContentLengthA then (parseContentLength szValueA).map .contentLength
  else if cls.szNameA = szTransferEncodingA then
    (parseTransferEncoding szValueA).map .transferEncoding
  else (e.parse cls szValueA).map (.typed cls)

/-- `CHttpHeaderBase::Create`, then `Parse` of the header it created. -/
def createHeader (e : HeaderEnv) (bIsRequest : Bool) (szHeaderNameA szValueA : List Byte) :
    Except HResult (Header e) :=
  if szHeaderNameA = [] then .error .eInvalidArg
  else
    match (headerClasses bIsRequest).find? (·.isNamed szHeaderNameA) with
    | some cls => cls.parse e szValueA
    | none =>
      if !szHeaderNameA.all isValidNameChar then .error .eInvalidArg
      else (setGenericValue szValueA).map (.generic szHeaderNameA)

/-- `CHttpHeaderArray::Merge(lpSrc, FALSE)` -/
def mergeHeader (cHeaders : List (Header e)) (src : Header e) : Except HResult (List (Header e)) :=
  match cHeaders.findIdx? fun h => strCompareA h.getHeaderName src.getHeaderName true with
  | none => .ok (cHeaders ++ [src])
  | some nHeaderIndex =>
    match cHeaders[nHeaderIndex]? with
    | none => .ok (cHeaders ++ [src])
    | some header =>
      match header.getDuplicateBehavior with
      | .error => .error .mxAlreadyExists
      | .replace => .ok ((cHeaders ++ [src]).eraseIdx nHeaderIndex)
      | .add => .ok (cHeaders ++ [src])
      | .merge => (header.merge src).map fun header => cHeaders.set nHeaderIndex header

end MxLib.Http
