import MxLib.Http.WebSockets.Frame
import MxLib.Library.Loop
import MxLib.Memory

/-!
# Receiving messages

`OnSocketDataReceived` takes what the connection has buffered, 4096 bytes at a
time.  It reads the header of a frame byte by byte (states 0 to 15), then copies
as much of the payload as there is, and acts on the frame when its payload is
complete.

The payload of a data frame goes to blocks of memory that are kept in a list while
the message lasts, and in a small cache between messages.  The model names a block
by its address and keeps the memory of all of them, so that a block in two places
at once would show.  The application reads the copy of a message of more than one
block after it was freed; the model gives it the bytes the copy held.
-/

namespace MxLib.Http.WebSockets

open MxLib.Library

/-- `MX_ARRAYLEN(sReceiveCache.lpBuffer)` -/
def receiveCacheSize : Nat := 4

/-- `sizeof(aMsgBuf)` -/
def msgBufSize : Nat := 4096

/-- What the application and the connection see of a socket. -/
inductive Event
  | onTextMessage (msg : List Byte)
  | onBinaryMessage (msg : List Byte)
  | onPongFrame
  | onCloseFrame (wCode : Nat) (hrErrorCode : HResult)
  | sendFrame (h : FrameHeader) (payload : List Byte)
  | ipcClose
deriving DecidableEq

/-- `sReceive.sCurrentMessage` -/
structure CurrentMessage where
  nOpcode : Byte
  aReceivedDataList : List Nat
  lpData : Option (Nat × Nat)
  nFilledFrame : Nat
  nTotalDataLength : Nat

/-- `sReceive.sCurrentControlFrame` -/
structure CurrentControlFrame where
  aBuffer : Nat → Byte
  nFilledFrame : Nat

def CurrentControlFrame.zero : CurrentControlFrame := ⟨fun _ => 0, 0⟩

/-- `sReceive` and `sReceiveCache`, the memory of the blocks, the error the socket
was closed with, and what happened so far. -/
structure Receive where
  nState : Nat
  header0 : Byte
  header1 : Byte
  nPayloadLen : Nat
  uMasking : MaskKey
  sCurrentMessage : CurrentMessage
  sCurrentControlFrame : CurrentControlFrame
  sReceiveCache : List Nat
  memory : Nat → Nat → Byte
  nextBlock : Nat
  hrCloseError : Option HResult
  events : List Event

/-- A new socket; its memory holds whatever it holds. -/
def Receive.create (memory : Nat → Nat → Byte) : Receive where
  nState := 0
  header0 := 0
  header1 := 0
  nPayloadLen := 0
  uMasking := .zero
  sCurrentMessage := ⟨opcodeNone, [], none, 0, 0⟩
  sCurrentControlFrame := .zero
  sReceiveCache := []
  memory := memory
  nextBlock := 0
  hrCloseError := none
  events := []

namespace Receive

def nOpcode (s : Receive) : Byte := s.header0 &&& 0x0F
def nRsv (s : Receive) : Byte := (s.header0 >>> 4) &&& 7
def nFin (s : Receive) : Bool := s.header0 >>> 7 != 0
def nPayloadLen7 (s : Receive) : Byte := s.header1 &&& 0x7F
def nMask (s : Receive) : Bool := s.header1 >>> 7 != 0

/-- `(nOpcode & _OPCODE_ControlFrameMask) != 0` -/
def isControl (s : Receive) : Bool := s.nOpcode &&& opcodeControlFrameMask != 0

end Receive

/-- The settings of a socket. -/
structure ReceiveEnv where
  build : BuildEnv
  nMaxMessageSize : UInt64

section Model

variable (e : ReceiveEnv)

/-! ### The header -/

/-- The code a call ends with, and the socket as it is left. -/
abbrev Stop := HResult × Receive

/-- `((LPBYTE)&n)[k] = b` -/
def setByte (n k : Nat) (b : Byte) : Nat :=
  n - n / 256 ^ k % 256 * 256 ^ k + b.toNat * 256 ^ k

/-- `validate_message_length` -/
def validateMessageLength (s : Receive) : Except Stop Receive :=
  if (s.sCurrentMessage.nTotalDataLength + s.nPayloadLen) % 2 ^ 64 < s.nPayloadLen then
    .error (.mxInvalidData, s)
  else if (s.sCurrentMessage.nTotalDataLength + s.nPayloadLen) % 2 ^ 64 >
      e.nMaxMessageSize.toNat then
    .error (.mxUnsupported, s)
  else .ok s

/-- `jump_to_maskkey_or_payloaddata` -/
def jumpToMaskKeyOrPayloadData (s : Receive) : Except Stop Receive :=
  if s.nMask then .ok { s with nState := 12 }
  else validateMessageLength e { s with nState := 16 }

/-- The opcode of a new frame is checked against the message being received. -/
def validateOpcode (s : Receive) : Except Stop Receive :=
  if s.nOpcode == opcodeContinuation then
    if s.sCurrentMessage.nOpcode == opcodeNone then .error (.mxInvalidData, s) else .ok s
  else if s.nOpcode == opcodeText || s.nOpcode == opcodeBinary then
    if s.sCurrentMessage.nOpcode == opcodeNone then
      .ok { s with sCurrentMessage := { s.sCurrentMessage with nOpcode := s.nOpcode } }
    else if s.sCurrentMessage.nOpcode != s.nOpcode then .error (.mxInvalidData, s)
    else .ok s
  else if s.nOpcode == opcodeConnectionClose || s.nOpcode == opcodePing ||
      s.nOpcode == opcodePong then .ok s
  else .error (.mxUnsupported, s)

/-- One byte of a header, in a state below 16. -/
def headerByte (s : Receive) (b : Byte) : Except Stop Receive :=
  if s.nState = 0 then
    let s := { s with header0 := b, nState := 1 }
    if s.nRsv != 0 then .error (.mxUnsupported, s) else validateOpcode s
  else if s.nState = 1 then
    let s := { s with header1 := b, nState := 2 }
    if s.nPayloadLen7 < 126 then
      jumpToMaskKeyOrPayloadData e { s with nPayloadLen := s.nPayloadLen7.toNat }
    else if s.isControl then .error (.mxInvalidData, s)
    else .ok { s with nPayloadLen := 0, nState := if s.nPayloadLen7 == 126 then 2 else 4 }
  else if s.nState < 4 then
    let s := { s with
      nPayloadLen := setByte s.nPayloadLen (3 - s.nState) b, nState := s.nState + 1 }
    if s.nState = 4 then jumpToMaskKeyOrPayloadData e s else .ok s
  else if s.nState < 12 then
    let s := { s with
      nPayloadLen := setByte s.nPayloadLen (11 - s.nState) b, nState := s.nState + 1 }
    if s.nState = 12 && !s.nMask then validateMessageLength e { s with nState := 16 } else .ok s
  else
    let s := { s with uMasking := s.uMasking.set (s.nState - 12) b, nState := s.nState + 1 }
    if s.nState = 16 then validateMessageLength e s else .ok s

/-- The loop over the header: the socket and the bytes left of `aMsgBuf`. -/
def readHeader (s : Receive) : List Byte → Except Stop (Receive × List Byte)
  | [] => .ok (s, [])
  | b :: lpMsg =>
    if s.nState < 16 then
      match headerByte e s b with
      | .error r => .error r
      | .ok s => readHeader s lpMsg
    else .ok (s, b :: lpMsg)

/-! ### The payload -/

/-- `GetReceiveBufferFromCache` -/
def getReceiveBufferFromCache (s : Receive) : Nat × Receive :=
  match s.sReceiveCache.getLast? with
  | some lpBuffer => (lpBuffer, { s with sReceiveCache := s.sReceiveCache.dropLast })
  | none => (s.nextBlock, { s with nextBlock := s.nextBlock + 1 })

/-- A block for the next bytes of the message, where there is none. -/
def provideBlock (s : Receive) : Receive :=
  match s.sCurrentMessage.lpData with
  | some _ => s
  | none =>
    let (lpBuffer, s) := getReceiveBufferFromCache s
    { s with
      sCurrentMessage := { s.sCurrentMessage with
        lpData := some (lpBuffer, 0)
        aReceivedDataList := s.sCurrentMessage.aReceivedDataList ++ [lpBuffer]
        nFilledFrame := 0 } }

/-- The bytes as they are stored: unmasked from index `nMaskIdx` of the mask on. -/
def unmaskFrom (s : Receive) (nMaskIdx : Nat) (bytes : List Byte) : List Byte :=
  if s.nMask then s.uMasking.apply nMaskIdx bytes else bytes

/-- Bytes that fit in the block are copied to it. -/
def copyToBlock (s : Receive) (bytes : List Byte) : Receive :=
  match s.sCurrentMessage.lpData with
  | none => s
  | some (lpBuffer, nOffset) =>
    let data := unmaskFrom s s.sCurrentMessage.nFilledFrame bytes
    let nFilledFrame := s.sCurrentMessage.nFilledFrame + bytes.length
    { s with
      memory := fun k =>
        if k = lpBuffer then memCopy (s.memory k) nOffset data else s.memory k
      nPayloadLen := s.nPayloadLen - bytes.length
      sCurrentMessage := { s.sCurrentMessage with
        nTotalDataLength := s.sCurrentMessage.nTotalDataLength + bytes.length
        nFilledFrame := nFilledFrame
        lpData :=
          if nFilledFrame = receiveDataBlockSize then none
          else some (lpBuffer, nOffset + bytes.length) } }

/-- One turn of the loop over the payload of a data frame. -/
def dataTurn : Receive × List Byte → (Receive × List Byte) ⊕ (Receive × List Byte)
  | (s, lpMsg) =>
    if lpMsg = [] ∨ s.nPayloadLen = 0 then .inr (s, lpMsg)
    else
      let s := provideBlock s
      let nToRead := min (min (receiveDataBlockSize - s.sCurrentMessage.nFilledFrame) lpMsg.length)
        s.nPayloadLen
      .inl (copyToBlock s (lpMsg.take nToRead), lpMsg.drop nToRead)

/-- The payload of a control frame: it has a buffer of its own. -/
def readControl (s : Receive) (lpMsg : List Byte) : Receive × List Byte :=
  let nToRead := min s.nPayloadLen lpMsg.length
  let nFilledFrame := s.sCurrentControlFrame.nFilledFrame
  let data := unmaskFrom s nFilledFrame (lpMsg.take nToRead)
  ({ s with
      sCurrentControlFrame :=
        { aBuffer := memCopy s.sCurrentControlFrame.aBuffer nFilledFrame data
          nFilledFrame := nFilledFrame + nToRead }
      nPayloadLen := s.nPayloadLen - nToRead },
    lpMsg.drop nToRead)

/-- The bytes of the payload in `aMsgBuf`. -/
def readPayload (s : Receive) (lpMsg : List Byte) : Receive × List Byte :=
  if s.isControl then readControl s lpMsg
  else Loop.exec dataTurn (fun c => c.2.length) (s, lpMsg) (s, lpMsg)

/-! ### The end of a frame -/

/-- The message in the blocks, as one piece of memory. -/
def fullMessage (s : Receive) : List Byte :=
  let nTotalDataLength := s.sCurrentMessage.nTotalDataLength
  let blocks := s.sCurrentMessage.aReceivedDataList
  if nTotalDataLength < receiveDataBlockSize then
    readBytes (s.memory (blocks.headD 0)) nTotalDataLength
  else
    (List.range blocks.length).flatMap fun i =>
      readBytes (s.memory (blocks.getD i 0))
        (if i < blocks.length - 1 then receiveDataBlockSize
        else nTotalDataLength - (blocks.length - 1) * receiveDataBlockSize)

/-- `PutAllReceiveBuffersOnCache`, with the blocks that do not fit freed. -/
def putAllReceiveBuffersOnCache (s : Receive) : Receive :=
  let nCount := min s.sCurrentMessage.aReceivedDataList.length
    (receiveCacheSize - s.sReceiveCache.length)
  { s with
    sReceiveCache := s.sReceiveCache ++ s.sCurrentMessage.aReceivedDataList.take nCount
    sCurrentMessage := { s.sCurrentMessage with aReceivedDataList := [] } }

/-- A message is complete: the application gets it, unless it is empty. -/
def endMessageFrame (s : Receive) : Receive :=
  let s :=
    if s.sCurrentMessage.nTotalDataLength > 0 then
      { s with
        events := s.events ++
          [if s.sCurrentMessage.nOpcode == opcodeText then .onTextMessage (fullMessage s)
          else .onBinaryMessage (fullMessage s)] }
    else s
  let s := putAllReceiveBuffersOnCache s
  { s with sCurrentMessage := { s.sCurrentMessage with
      nOpcode := opcodeNone, lpData := none, nFilledFrame := 0, nTotalDataLength := 0 } }

/-- `InternalSendControlFrame`, to a connection that takes everything. -/
def sendControlFrame (nOpcode : Byte) (payload : List Byte) (s : Receive) : Receive :=
  let (h, payload) := buildFrame e.build s.events.length payload nOpcode true
  { s with events := s.events ++ [.sendFrame h payload] }

/-- The error a close code stands for. -/
def closeError (wCode : Nat) : HResult :=
  if wCode = 1000 then .sOk
  else if wCode = 1001 then .win32ConnReset
  else if wCode = 1002 then .mxUnsupported
  else if wCode = 1003 then .mxInvalidData
  else .eFail

/-- A close frame is answered once. -/
def closeFrame (s : Receive) : Receive :=
  let control := s.sCurrentControlFrame
  let wCode :=
    if control.nFilledFrame ≥ 2 then (control.aBuffer 0).toNat * 256 + (control.aBuffer 1).toNat
    else 1000
  match s.hrCloseError with
  | some _ => s
  | none =>
    let hrCloseError := closeError wCode
    let s := { s with
      hrCloseError := some hrCloseError
      events := s.events ++ [.onCloseFrame wCode hrCloseError] }
    let s := if wCode = 1000 then sendControlFrame e opcodeConnectionClose [0x03, 0xE8] s else s
    { s with events := s.events ++ [.ipcClose] }

/-- A frame whose payload is complete.  A close frame ends the call. -/
def endFrame (s : Receive) : Except Stop Receive :=
  if s.isControl && s.nOpcode == opcodeConnectionClose then .error (.sOk, closeFrame e s)
  else
    let s :=
      if s.isControl then
        let s :=
          if s.nOpcode == opcodePing then
            sendControlFrame e opcodePong
              (readBytes s.sCurrentControlFrame.aBuffer s.sCurrentControlFrame.nFilledFrame) s
          else if s.nOpcode == opcodePong then { s with events := s.events ++ [.onPongFrame] }
          else s
        { s with sCurrentControlFrame := .zero }
      else if s.nFin then endMessageFrame s
      else s
    .ok { s with nState := 0, uMasking := .zero }

/-! ### A call -/

/-- What is done with the bytes in `aMsgBuf`: the socket and the bytes left, or the
end of the call. -/
def processMsg (s : Receive) (msg : List Byte) : Except Stop (Receive × List Byte) :=
  match readHeader e s msg with
  | .error r => .error r
  | .ok (s, lpMsg) =>
    if s.nState < 16 then .ok (s, lpMsg)
    else
      let (s, lpMsg) := readPayload s lpMsg
      if s.nPayloadLen = 0 then
        match endFrame e s with
        | .error r => .error r
        | .ok s => .ok (s, lpMsg)
      else .ok (s, lpMsg)

/-- The turns left over what is buffered.  A turn that uses no byte is followed by
one that reads a header. -/
def receiveMeasure (c : Receive × List Byte) : Nat :=
  2 * c.2.length + if c.1.nState < 16 then 0 else 1

/-- `receiveTurn`, with the number of the next call of `GetBufferedMessage`. -/
def receiveTurnBy (size : Nat → Nat) : Receive × List Byte × Nat →
    (Receive × List Byte × Nat) ⊕ (HResult × Receive × List Byte × Nat)
  | (s, buffered, k) =>
    let msg := buffered.take (size k)
    if msg = [] then .inr (.sOk, s, buffered, k + 1)
    else
      match processMsg e s msg with
      | .error (hRes, s) => .inr (hRes, s, buffered, k + 1)
      | .ok (s, lpMsg) => .inl (s, buffered.drop (msg.length - lpMsg.length), k + 1)

/-- `OnSocketDataReceived`. -/
def onSocketDataReceivedBy (size : Nat → Nat) (s : Receive) (buffered : List Byte) (k : Nat) :
    HResult × Receive × List Byte × Nat :=
  Loop.exec (receiveTurnBy e size) (fun c => receiveMeasure (c.1, c.2.1)) (.sOk, s, buffered, k)
    (s, buffered, k)

/-- Calls of `OnSocketDataReceived`, each after more bytes have arrived, up to the
first that fails. -/
def receiveAllBy (size : Nat → Nat) (s : Receive) (buffered : List Byte) (k : Nat) :
    List (List Byte) → HResult × Receive
  | [] => (.sOk, s)
  | chunk :: chunks =>
    match onSocketDataReceivedBy e size s (buffered ++ chunk) k with
    | (hRes, s, buffered, k) =>
      if hRes.failed then (hRes, s) else receiveAllBy size s buffered k chunks

/-- A way a stream can reach `OnSocketDataReceived`: what has arrived before each call,
and how much of it `GetBufferedMessage` returns at a time. -/
structure Delivery (stream : List Byte) where
  chunks : List (List Byte)
  flatten_chunks : chunks.flatten = stream
  size : Nat → Nat
  size_pos : ∀ k, 0 < size k
  size_le : ∀ k, size k ≤ msgBufSize

/-- One call gets the whole stream. -/
def Delivery.whole (stream : List Byte) : Delivery stream where
  chunks := [stream]
  flatten_chunks := List.flatten_singleton
  size := fun _ => msgBufSize
  size_pos := fun _ => by decide
  size_le := fun _ => Nat.le_refl _

/-- The calls that receive the stream. -/
def Delivery.receive {stream : List Byte} (d : Delivery stream) (s : Receive) : HResult × Receive :=
  receiveAllBy e d.size s [] 0 d.chunks

end Model

end MxLib.Http.WebSockets
