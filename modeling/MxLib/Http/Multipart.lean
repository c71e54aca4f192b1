import Mathlib.Data.List.DropRight
import MxLib.Http.HttpUtils
import MxLib.Library.Loop
import MxLib.Strings.Utf8

/-!
# The parser of `multipart/form-data` bodies

`CHttpBodyParserMultipartFormData::Parse` is called with the body in any number
of pieces and keeps its place in `sParser`.  Every turn of its loop looks at one
character; `BACKWARD_CHAR` makes the next turn look at the same character again.

What the parser calls is a parameter: the header classes, the callback that opens
a file, the file itself, and the list the finished fields are added to.  All of
them may read and change the world `ω`, and a file is some handle `φ`.

`AccumulateData` stores a byte in `aTempBuf` before it does anything else.  A
write whose index is outside `aTempBuf` has no meaning in the source; the model
ends there with the index (`Except.error`, `CharTurn.overrun`).
-/

namespace MxLib.Http.Multipart

open MxLib.Library

def MAX_HEADER_LINE : Nat := 4096
def MAX_HEADER_LENGTH : Nat := 65536

/-- `sizeof(sParser.aTempBuf)` -/
def tempBufSize : Nat := 16384

/-- `eState` -/
inductive EState
  | boundary | boundaryAfter | boundaryAfter2 | boundaryAfterEnd
  | boundaryEndCheck | boundaryEndCheckAfterDashes | boundaryEndCheckAfterDashes2
  | headerStart | headerName | headerValue | headerValueEnding | headersEnding
  | data | dataEnd
  | mayBeDataEnd | mayBeDataEndAlt
  | done | error
deriving DecidableEq, Repr

structure ContentDisposition where
  cStrNameW : List WChar
  cStrFileNameW : List WChar
  bHasFileName : Bool
deriving DecidableEq

structure CurrentBlock where
  sContentDisposition : ContentDisposition
  cStrContentTypeA : List Byte
  bContentTransferEncoding : Bool
deriving DecidableEq

def CurrentBlock.empty : CurrentBlock := ⟨⟨[], [], false⟩, [], false⟩

/-- `sParser`, with the world beside it. -/
structure Parser (φ ω : Type) where
  nState : EState
  nBoundaryPos : Nat
  cStrCurrLineA : List Byte
  dwHeadersLen : Nat
  sCurrentBlock : CurrentBlock
  aTempBuf : Nat → Byte
  nUsedTempBuf : Nat
  nFileUploadCounter : Nat
  nFileUploadSize : Nat
  cFileH : Option φ
  world : ω

/-- The parser as the constructor leaves it. -/
def Parser.create {φ ω : Type} (world : ω) : Parser φ ω where
  nState := .boundary
  nBoundaryPos := 0
  cStrCurrLineA := []
  dwHeadersLen := 0
  sCurrentBlock := .empty
  aTempBuf := fun _ => 0
  nUsedTempBuf := 0
  nFileUploadCounter := 0
  nFileUploadSize := 0
  cFileH := none
  world := world

/-- What a parsed `Content-Disposition` header tells. -/
structure DispositionValue where
  szTypeA : List Byte
  szNameW : List WChar
  bHasFileName : Bool
  szFileNameW : List WChar

/-- The limits the constructor sets. -/
structure Limits where
  dwMaxFieldSize : Nat
  ullMaxFileSize : Nat
  dwMaxFilesCount : Nat
  le_maxFieldSize : 32768 ≤ dwMaxFieldSize

/-- The limits from the arguments of the constructor. -/
def Limits.create (dwMaxFieldSize ullMaxFileSize dwMaxFilesCount : Nat) : Limits where
  dwMaxFieldSize := if dwMaxFieldSize < 32768 then 32768 else dwMaxFieldSize
  ullMaxFileSize := ullMaxFileSize
  dwMaxFilesCount := dwMaxFilesCount
  le_maxFieldSize := by split <;> omega

/-- The settings of a parser and what it calls.  A header class either fails or
gives what it read; `writeFile` gives the number of bytes written. -/
structure Env (φ ω : Type) where
  cStrBoundaryA : List Byte
  limits : Limits
  contentDisposition : List Byte → Except Fault DispositionValue
  contentType : List Byte → Except Fault (List Byte)
  contentTransferEncoding : List Byte → Except Fault Bool
  cDownloadStartedCallback : Option (List WChar → ω → HResult × Option φ × ω)
  writeFile : φ → List Byte → ω → Except Fault Nat × ω
  addField : List WChar → List WChar → ω → HResult × ω
  addFileField : List WChar → List WChar → List Byte → φ → ω → HResult × ω

section Model

variable {φ ω : Type} (e : Env φ ω)

/-! ### Header lines -/

/-- The name of the header in a line and its value without the blanks around it. -/
def splitHeader (cStrLineA : List Byte) : Option (List Byte × List Byte) :=
  let szLineA := (szStr cStrLineA).dropWhile isBlank
  match szLineA.dropWhile (· != chColon) with
  | [] => none
  | _ :: szValueA =>
    some (szLineA.takeWhile (· != chColon), (szValueA.dropWhile isBlank).rdropWhile isBlank)

def parseContentDisposition (blk : CurrentBlock) (szValueA : List Byte) : HResult × CurrentBlock :=
  if !isEmptyStr blk.sContentDisposition.cStrNameW then (.mxInvalidData, blk)
  else
    match e.contentDisposition szValueA with
    | .error err => (err.hRes, blk)
    | .ok cHeader =>
      if !strCompareA cHeader.szTypeA (ascii "form-data") true then (.mxInvalidData, blk)
      else if isEmptyStr cHeader.szNameW then (.mxInvalidData, blk)
      else
        (.sOk, { blk with
          sContentDisposition :=
            { cStrNameW := szStr cHeader.szNameW
              bHasFileName := cHeader.bHasFileName
              cStrFileNameW :=
                if cHeader.bHasFileName then szStr cHeader.szFileNameW
                else blk.sContentDisposition.cStrFileNameW } })

def parseContentType (blk : CurrentBlock) (szValueA : List Byte) : HResult × CurrentBlock :=
  if !isEmptyStr blk.cStrContentTypeA then (.mxInvalidData, blk)
  else
    match e.contentType szValueA with
    | .error err => (err.hRes, blk)
    | .ok szTypeA => (.sOk, { blk with cStrContentTypeA := szStr szTypeA })

/-- The header is refused after a `Content-Type`, whose text the source tests here
too, and for any encoding but `Identity`. -/
def parseContentTransferEncoding (blk : CurrentBlock) (szValueA : List Byte) :
    HResult × CurrentBlock :=
  if !isEmptyStr blk.cStrContentTypeA then (.mxInvalidData, blk)
  else
    match e.contentTransferEncoding szValueA with
    | .error err => (err.hRes, blk)
    | .ok isIdentity =>
      if !isIdentity then (.mxInvalidData, blk)
      else (.sOk, { blk with bContentTransferEncoding := true })

/-- `ParseHeader` -/
def parseHeader (blk : CurrentBlock) (cStrLineA : List Byte) : HResult × CurrentBlock :=
  match splitHeader cStrLineA with
  | none => (.mxInvalidData, blk)
  | some (szNameA, szValueA) =>
    let isName (s : String) : Bool :=
      szNameA.length == s.length && strNCompareA szNameA (ascii s) s.length true
    if isName "Content-Disposition" then parseContentDisposition e blk szValueA
    else if isName "Content-Type" then parseContentType e blk szValueA
    else if isName "Content-Transfer-Encoding" then parseContentTransferEncoding e blk szValueA
    else (.sOk, blk)

/-! ### Part data -/

/-- The bytes of `aTempBuf` in use. -/
def Parser.buffered (s : Parser φ ω) : List Byte := (List.range s.nUsedTempBuf).map s.aTempBuf

/-- `WriteFile` of the bytes in use: the code it fails with and the world after. -/
def writeBuffered (s : Parser φ ω) (h : φ) : HResult × Parser φ ω :=
  match e.writeFile h s.buffered s.world with
  | (.error err, world) => (err.hRes, { s with world := world })
  | (.ok dw, world) =>
    (if dw != s.nUsedTempBuf then .mxWriteFault else .sOk, { s with world := world })

/-- A byte stored in `aTempBuf`. -/
def Parser.put (s : Parser φ ω) (chA : Byte) : Parser φ ω :=
  { s with
    aTempBuf := fun k => if k = s.nUsedTempBuf then chA else s.aTempBuf k
    nUsedTempBuf := s.nUsedTempBuf + 1 }

def accumulateField (s : Parser φ ω) (chA : Byte) : HResult × Parser φ ω :=
  if s.cStrCurrLineA.length > e.limits.dwMaxFieldSize then (.mxBadLength, s)
  else (.sOk, { s with cStrCurrLineA := s.cStrCurrLineA ++ [chA] })

def accumulateFile (s : Parser φ ω) (h : φ) : HResult × Parser φ ω :=
  let s := { s with nFileUploadSize := (s.nFileUploadSize + 1) % 2 ^ 64 }
  if s.nFileUploadSize ≥ e.limits.ullMaxFileSize then (.win32FileTooLarge, s)
  else if s.nUsedTempBuf ≥ tempBufSize then
    let (hRes, s) := writeBuffered e s h
    if hRes.failed then (hRes, s) else (.sOk, { s with nUsedTempBuf := 0 })
  else (.sOk, s)

/-- `AccumulateData` -/
def accumulateData (s : Parser φ ω) (chA : Byte) : Except Nat (HResult × Parser φ ω) :=
  if tempBufSize ≤ s.nUsedTempBuf then .error s.nUsedTempBuf
  else
    match s.cFileH with
    | none => .ok (accumulateField e (s.put chA) chA)
    | some h => .ok (accumulateFile e (s.put chA) h)

/-- Calls of `AccumulateData` one after the other, up to the first that fails. -/
def accumulateAll (hRes : HResult) (s : Parser φ ω) :
    List Byte → Except Nat (HResult × Parser φ ω)
  | [] => .ok (hRes, s)
  | chA :: rest =>
    match accumulateData e s chA with
    | .error nIndex => .error nIndex
    | .ok (h, s) => if h.failed then .ok (h, s) else accumulateAll h s rest

/-- The bytes held back while they could be the start of a boundary, which turn
out to be data (`not_boundary_end`). -/
def heldBack (s : Parser φ ω) : List Byte :=
  (if s.nState = .mayBeDataEnd then [chCR] else []) ++
    ((if s.nBoundaryPos > 0 then [chLF] else []) ++
      ((if s.nBoundaryPos > 1 then [chDash] else []) ++
        ((if s.nBoundaryPos > 2 then [chDash] else []) ++
          (List.range (s.nBoundaryPos - 3)).map (charAt e.cStrBoundaryA))))

/-- `*szDataA` is not the next character of the boundary. -/
def isNotBoundary (s : Parser φ ω) (ch : Byte) : Bool :=
  if s.nBoundaryPos = 0 then ch != chLF
  else if s.nBoundaryPos ≤ 2 then ch != chDash
  else ch != charAt e.cStrBoundaryA (s.nBoundaryPos - 3)

/-- `*szDataA`, which is the next character of the boundary, is its last one. -/
def isBoundaryEnd (s : Parser φ ω) : Bool :=
  s.nBoundaryPos > 2 && charAt e.cStrBoundaryA (s.nBoundaryPos - 2) == 0

/-- The boundary after a part is found: the part is added to the form. -/
def addPart (s : Parser φ ω) : HResult × Parser φ ω :=
  let blk := s.sCurrentBlock
  match s.cFileH with
  | none =>
    match utf8Decode (szStr s.cStrCurrLineA) with
    | .error h => (h, s)
    | .ok cStrTempW =>
      let (h, world) := e.addField blk.sContentDisposition.cStrNameW (szStr cStrTempW) s.world
      (h, { s with world := world })
  | some file =>
    let (h, s) := writeBuffered e s file
    if h.failed then (h, s)
    else
      let (h, world) := e.addFileField blk.sContentDisposition.cStrNameW
        blk.sContentDisposition.cStrFileNameW blk.cStrContentTypeA file s.world
      if h.failed then (h, { s with world := world })
      else (h, { s with world := world, cFileH := none })

/-! ### One character -/

/-- What the `switch` does with a character: go on to the next one, look at it
again, leave the loop, or write outside `aTempBuf`. -/
inductive CharTurn (φ ω : Type)
  | next (hRes : HResult) (s : Parser φ ω)
  | again (hRes : HResult) (s : Parser φ ω)
  | leave (hRes : HResult) (s : Parser φ ω)
  | overrun (nIndex : Nat)

/-- Go on in `nState` if `ok`, and fail with `MX_E_InvalidData` otherwise. -/
def expect (ok : Bool) (hRes : HResult) (s : Parser φ ω) (nState : EState) : CharTurn φ ω :=
  if ok then .next hRes { s with nState := nState } else .leave .mxInvalidData s

def boundaryTurn (hRes : HResult) (s : Parser φ ω) (ch : Byte) : CharTurn φ ω :=
  if ch == chCR || ch == chLF then .next hRes s
  else if s.nBoundaryPos < 2 then
    if ch != chDash then .leave .mxInvalidData s
    else .next hRes { s with nBoundaryPos := s.nBoundaryPos + 1 }
  else if ch != charAt e.cStrBoundaryA (s.nBoundaryPos - 2) then .leave .mxInvalidData s
  else if charAt e.cStrBoundaryA (s.nBoundaryPos - 1) == 0 then
    .next hRes { s with nState := .boundaryAfter }
  else .next hRes { s with nBoundaryPos := s.nBoundaryPos + 1 }

/-- Blanks up to a carriage return. -/
def blanksTurn (nState : EState) (hRes : HResult) (s : Parser φ ω) (ch : Byte) : CharTurn φ ω :=
  if isBlank ch then .next hRes s else expect (ch == chCR) hRes s nState

/-- A header block starts, and the buffer with it. -/
def boundaryAfterEndTurn (hRes : HResult) (s : Parser φ ω) (ch : Byte) : CharTurn φ ω :=
  if ch != chLF then .leave .mxInvalidData s
  else
    .next hRes { s with
      nState := .headerStart
      dwHeadersLen := 0
      sCurrentBlock := .empty
      cFileH := none
      nUsedTempBuf := 0
      nFileUploadSize := 0 }

def headerNameTurn (hRes : HResult) (s : Parser φ ω) (ch : Byte) : CharTurn φ ω :=
  if s.dwHeadersLen ≥ MAX_HEADER_LENGTH then .leave .mxBadLength s
  else
    let s := { s with dwHeadersLen := s.dwHeadersLen + 1 }
    if ch == chColon then
      if isEmptyStr s.cStrCurrLineA then .leave .mxInvalidData s
      else .next hRes { s with
        cStrCurrLineA := s.cStrCurrLineA ++ [chColon], nState := .headerValue }
    else if !isValidNameChar ch then .leave .mxInvalidData s
    else if s.cStrCurrLineA.length > MAX_HEADER_LINE then .leave .mxBadLength s
    else .next hRes { s with cStrCurrLineA := s.cStrCurrLineA ++ [ch] }

/-- The header line read so far is parsed and dropped. -/
def endHeaderLine (hRes : HResult) (s : Parser φ ω) : HResult × Parser φ ω :=
  if isEmptyStr s.cStrCurrLineA then (hRes, s)
  else
    let (h, blk) := parseHeader e s.sCurrentBlock s.cStrCurrLineA
    if h.failed then (h, { s with sCurrentBlock := blk })
    else (h, { s with sCurrentBlock := blk, cStrCurrLineA := [] })

def headerStartTurn (hRes : HResult) (s : Parser φ ω) (ch : Byte) : CharTurn φ ω :=
  if ch == chCR then
    let (h, s) := endHeaderLine e hRes s
    if h.failed then .leave h s else .next h { s with nState := .headersEnding }
  else if isBlank ch then
    if isEmptyStr s.cStrCurrLineA then .leave .mxInvalidData s
    else .again hRes { s with nState := .headerValue }
  else
    let (h, s) := endHeaderLine e hRes s
    if h.failed then .leave h s
    else headerNameTurn h { s with nState := .headerName } ch

def headerValueTurn (hRes : HResult) (s : Parser φ ω) (ch : Byte) : CharTurn φ ω :=
  if s.dwHeadersLen ≥ MAX_HEADER_LENGTH then .leave .mxBadLength s
  else
    let s := { s with dwHeadersLen := s.dwHeadersLen + 1 }
    if ch == chCR then .next hRes { s with nState := .headerValueEnding }
    else if ch == 0 then .leave .mxInvalidData s
    else if s.cStrCurrLineA.length > MAX_HEADER_LINE then .leave .mxBadLength s
    else .next hRes { s with cStrCurrLineA := s.cStrCurrLineA ++ [ch] }

/-- A file is counted, and opened where there is a callback for it. -/
def startFile (hRes : HResult) (s : Parser φ ω) : HResult × Parser φ ω :=
  let nFileUploadCounter := s.nFileUploadCounter
  let s := { s with nFileUploadCounter := nFileUploadCounter + 1 }
  if nFileUploadCounter ≥ e.limits.dwMaxFilesCount then (.mxBadLength, s)
  else
    match e.cDownloadStartedCallback with
    | none => (hRes, s)
    | some callback =>
      let (h, file, world) := callback s.sCurrentBlock.sContentDisposition.cStrFileNameW s.world
      let s := { s with cFileH := file, world := world }
      if h.succeeded && s.cFileH.isNone then (.win32FileTooLarge, s) else (h, s)

def headersEndingTurn (hRes : HResult) (s : Parser φ ω) (ch : Byte) : CharTurn φ ω :=
  if ch != chLF then .leave .mxInvalidData s
  else if isEmptyStr s.sCurrentBlock.sContentDisposition.cStrNameW then .leave .mxInvalidData s
  else if s.sCurrentBlock.sContentDisposition.bHasFileName then
    let (h, s) := startFile e hRes s
    if h.failed then .leave h s else .next h { s with nState := .data }
  else .next hRes { s with cStrCurrLineA := [], nState := .data }

def dataTurn (s : Parser φ ω) (hRes : HResult) (ch : Byte) : CharTurn φ ω :=
  if ch == chCR then .next hRes { s with nState := .mayBeDataEnd, nBoundaryPos := 0 }
  else if ch == chLF then .next hRes { s with nState := .mayBeDataEndAlt, nBoundaryPos := 1 }
  else
    match accumulateData e s ch with
    | .error nIndex => .overrun nIndex
    | .ok (h, s) => if h.failed then .leave h s else .next h s

def mayBeDataEndTurn (hRes : HResult) (s : Parser φ ω) (ch : Byte) : CharTurn φ ω :=
  if isNotBoundary e s ch then
    match accumulateAll e hRes s (heldBack e s) with
    | .error nIndex => .overrun nIndex
    | .ok (h, s) => if h.failed then .leave h s else .again h { s with nState := .data }
  else if isBoundaryEnd e s then
    let (h, s) := addPart e s
    if h.failed then .leave h s
    else .next h { s with cStrCurrLineA := [], nState := .dataEnd }
  else .next hRes { s with nBoundaryPos := s.nBoundaryPos + 1 }

def dataEndTurn (hRes : HResult) (s : Parser φ ω) (ch : Byte) : CharTurn φ ω :=
  if ch == chDash then .next hRes { s with nState := .boundaryEndCheck }
  else if ch == chCR then .next hRes { s with nState := .boundaryAfterEnd }
  else .again hRes { s with nState := .boundaryAfter }

/-- The `switch` of `Parse`. -/
def charTurn (hRes : HResult) (s : Parser φ ω) (ch : Byte) : CharTurn φ ω :=
  match s.nState with
  | .boundary => boundaryTurn e hRes s ch
  | .boundaryAfter =>
    if ch == chDash then .next hRes { s with nState := .boundaryEndCheck }
    else blanksTurn .boundaryAfterEnd hRes { s with nState := .boundaryAfter2 } ch
  | .boundaryAfter2 => blanksTurn .boundaryAfterEnd hRes s ch
  | .boundaryAfterEnd => boundaryAfterEndTurn hRes s ch
  | .boundaryEndCheck => expect (ch == chDash) hRes s .boundaryEndCheckAfterDashes
  | .boundaryEndCheckAfterDashes => blanksTurn .boundaryEndCheckAfterDashes2 hRes s ch
  | .boundaryEndCheckAfterDashes2 => expect (ch == chLF) hRes s .done
  | .headerStart => headerStartTurn e hRes s ch
  | .headerName => headerNameTurn hRes s ch
  | .headerValue => headerValueTurn hRes s ch
  | .headerValueEnding => expect (ch == chLF) hRes s .headerStart
  | .headersEnding => headersEndingTurn e hRes s ch
  | .data => dataTurn e s hRes ch
  | .mayBeDataEnd => mayBeDataEndTurn e hRes s ch
  | .mayBeDataEndAlt => mayBeDataEndTurn e hRes s ch
  | .dataEnd => dataEndTurn hRes s ch
  | .done => .next hRes s
  | .error => .next hRes s

/-! ### A call of `Parse` -/

/-- The loop of `Parse` between two turns: its result so far, the parser and the
characters from `szDataA` on. -/
structure Cursor (φ ω : Type) where
  hRes : HResult
  s : Parser φ ω
  szDataA : List Byte

/-- What is after `done:`. -/
def finish (hRes : HResult) (s : Parser φ ω) : HResult × Parser φ ω :=
  (hRes, if hRes.failed then { s with nState := .error } else s)

def parseTurn (c : Cursor φ ω) : Cursor φ ω ⊕ Except Nat (HResult × Parser φ ω) :=
  match c.szDataA with
  | [] => .inr (.ok (finish c.hRes c.s))
  | ch :: rest =>
    match charTurn e c.hRes c.s ch with
    | .next hRes s => .inl ⟨hRes, s, rest⟩
    | .again hRes s => .inl ⟨hRes, s, ch :: rest⟩
    | .leave hRes s => .inr (.ok (finish hRes s))
    | .overrun nIndex => .inr (.error nIndex)

/-- The states that may ask for the same character again. -/
def EState.mayPushBack : EState → Nat
  | .headerStart | .mayBeDataEnd | .mayBeDataEndAlt | .dataEnd => 1
  | _ => 0

def Cursor.measure (c : Cursor φ ω) : Nat := 2 * c.szDataA.length + c.s.nState.mayPushBack

/-- `Parse` on a buffer, or at the end of the body (`none`, a null `lpData`). -/
def parse (s : Parser φ ω) (lpData : Option (List Byte)) : Except Nat (HResult × Parser φ ω) :=
  if s.nState = .done then .ok (.sOk, s)
  else if s.nState = .error then .ok (.mxInvalidData, s)
  else
    match lpData with
    | none => .ok (.mxInvalidData, { s with nState := .error })
    | some szDataA =>
      Loop.exec (parseTurn e) Cursor.measure (.ok (finish .sOk s)) ⟨.sOk, s, szDataA⟩

/-- Calls of `Parse` one after the other. -/
def parseCalls (s : Parser φ ω) : List (Option (List Byte)) → Except Nat (Parser φ ω)
  | [] => .ok s
  | lpData :: calls =>
    match parse e s lpData with
    | .error nIndex => .error nIndex
    | .ok (_, s) => parseCalls s calls

end Model

end MxLib.Http.Multipart
