import MxLib.FnvHash

/-!
# WebSocket frames

`FrameHeader` is `FRAME_HEADER` with the bytes of `aExtended` in use: the long
form of the length, then the mask.  `buildFrame` fills it and masks the payload in
place, as `BuildFrame` does; `FrameHeader.unmask` is what the receiver of the
frame does with the payload.
-/

namespace MxLib.Http.WebSockets

def opcodeContinuation : Byte := 0
def opcodeText : Byte := 1
def opcodeBinary : Byte := 2
def opcodeConnectionClose : Byte := 8
def opcodePing : Byte := 9
def opcodePong : Byte := 10
def opcodeNone : Byte := 15
def opcodeControlFrameMask : Byte := 0x08

inductive MessageType
  | text | binary
deriving DecidableEq

def MessageType.opcode : MessageType → Byte
  | .text => opcodeText
  | .binary => opcodeBinary

/-- `SEND_PAYLOAD_SIZE` -/
def sendPayloadSize : Nat := 16384

/-- `RECEIVE_DATA_BLOCK_SIZE` -/
def receiveDataBlockSize : Nat := 16384

/-! ### Masks -/

/-- The four bytes of `uMasking`. -/
structure MaskKey where
  b0 : Byte
  b1 : Byte
  b2 : Byte
  b3 : Byte
deriving DecidableEq

def MaskKey.zero : MaskKey := ⟨0, 0, 0, 0⟩

/-- `nKey[i & 3]` -/
def MaskKey.at (key : MaskKey) (i : Nat) : Byte :=
  if i % 4 = 0 then key.b0 else if i % 4 = 1 then key.b1 else if i % 4 = 2 then key.b2 else key.b3

/-- `nKey[i] = b`, for an `i` below 4. -/
def MaskKey.set (key : MaskKey) (i : Nat) (b : Byte) : MaskKey :=
  if i = 0 then { key with b0 := b }
  else if i = 1 then { key with b1 := b }
  else if i = 2 then { key with b2 := b }
  else { key with b3 := b }

def MaskKey.bytes (key : MaskKey) : List Byte := [key.b0, key.b1, key.b2, key.b3]

/-- The mask in a `DWORD`. -/
def MaskKey.ofDWord (dw : UInt32) : MaskKey :=
  ⟨dw.toUInt8, (dw >>> 8).toUInt8, (dw >>> 16).toUInt8, (dw >>> 24).toUInt8⟩

/-- The bytes, each combined with the mask; the first one is at index `i` of it. -/
def MaskKey.apply (key : MaskKey) (i : Nat) : List Byte → List Byte
  | [] => []
  | b :: rest => (b ^^^ key.at i) :: key.apply (i + 1) rest

theorem MaskKey.at_congr (key : MaskKey) {i j : Nat} (h : i % 4 = j % 4) : key.at i = key.at j := by
  simp [MaskKey.at, h]

@[simp] theorem MaskKey.length_apply (key : MaskKey) (i : Nat) (l : List Byte) :
    (key.apply i l).length = l.length := by
  induction l generalizing i with
  | nil => rfl
  | cons b rest ih => simp [MaskKey.apply, ih]

/-- **Masking twice gives the bytes back.** -/
@[simp] theorem MaskKey.apply_apply (key : MaskKey) (i : Nat) (l : List Byte) :
    key.apply i (key.apply i l) = l := by
  induction l generalizing i with
  | nil => rfl
  | cons b rest ih =>
    rw [MaskKey.apply, MaskKey.apply, UInt8.xor_assoc, UInt8.xor_self, UInt8.xor_zero, ih]

/-! ### Headers -/

/-- `FRAME_HEADER`, with the bytes of `aExtended` that are in use. -/
structure FrameHeader where
  nOpcode : Byte
  nRsv : Byte
  nFin : Bool
  nPayloadLen : Byte
  nMask : Bool
  aExtended : List Byte
deriving DecidableEq

/-- The first two bytes of a header. -/
def FrameHeader.first (h : FrameHeader) : Byte :=
  h.nOpcode + 16 * h.nRsv + (if h.nFin then 0x80 else 0)

def FrameHeader.second (h : FrameHeader) : Byte := h.nPayloadLen + (if h.nMask then 0x80 else 0)

/-- The number of bytes of `aExtended` the length takes. -/
def FrameHeader.lengthBytes (h : FrameHeader) : Nat :=
  if h.nPayloadLen = 127 then 8 else if h.nPayloadLen = 126 then 2 else 0

/-- The length of the payload, as the header tells it. -/
def FrameHeader.payloadLength (h : FrameHeader) : Nat :=
  if h.nPayloadLen = 127 ∨ h.nPayloadLen = 126 then
    (h.aExtended.take h.lengthBytes).foldl (fun n b => 256 * n + b.toNat) 0
  else h.nPayloadLen.toNat

/-- The mask, as the header tells it. -/
def FrameHeader.maskKey (h : FrameHeader) : MaskKey :=
  let key := h.aExtended.drop h.lengthBytes
  ⟨key.getD 0 0, key.getD 1 0, key.getD 2 0, key.getD 3 0⟩

/-- The payload, as the receiver of the frame reads it. -/
def FrameHeader.unmask (h : FrameHeader) (payload : List Byte) : List Byte :=
  if h.nMask then h.maskKey.apply 0 payload else payload

/-- The bytes handed to `SendMsg` for the header. -/
def FrameHeader.bytes (h : FrameHeader) : List Byte := h.first :: h.second :: h.aExtended

/-! ### Building a frame -/

/-- What `BuildFrame` reads besides its arguments: the side the socket is on, its
address, and the clock for the frame with a given number. -/
structure BuildEnv where
  bServerSide : Bool
  thisPtr : UInt64
  getTickCount : Nat → UInt32

/-- The length fields of a header. -/
def lengthFields (nPayloadSize : Nat) : Byte × List Byte :=
  if nPayloadSize ≥ 65536 then
    (127, [0, 0, 0, 0, UInt8.ofNat (nPayloadSize / 2 ^ 24), UInt8.ofNat (nPayloadSize / 2 ^ 16),
      UInt8.ofNat (nPayloadSize / 2 ^ 8), UInt8.ofNat nPayloadSize])
  else if nPayloadSize ≥ 126 then
    (126, [UInt8.ofNat (nPayloadSize / 2 ^ 8), UInt8.ofNat nPayloadSize])
  else (UInt8.ofNat nPayloadSize, [])

/-- The mask of a frame, from the clock, the socket, the header and the payload. -/
def chooseMask (e : BuildEnv) (nFrame : Nat) (h : FrameHeader) (payload : List Byte) : MaskKey :=
  let dw := fnv32aBuf (dwordBytes (e.getTickCount nFrame)) fnv1a32Init
  let dw := fnv32aBuf (pointerBytes e.thisPtr) dw
  let dw := fnv32aBuf [h.first, h.second] dw
  MaskKey.ofDWord (fnv32aBuf payload dw)

/-- `BuildFrame`: the header and the payload as it is left in place. -/
def buildFrame (e : BuildEnv) (nFrame : Nat) (payload : List Byte) (nOpcode : Byte)
    (bFinal : Bool) : FrameHeader × List Byte :=
  let (nPayloadLen, aExtended) := lengthFields payload.length
  if e.bServerSide then (⟨nOpcode, 0, bFinal, nPayloadLen, false, aExtended⟩, payload)
  else
    let h : FrameHeader := ⟨nOpcode, 0, bFinal, nPayloadLen, true, aExtended⟩
    let key := chooseMask e nFrame h payload
    ({ h with aExtended := aExtended ++ key.bytes }, key.apply 0 payload)

/-- What the length fields hold, as a header shows it. -/
theorem lengthFields_spec (nPayloadSize : Nat) (h : FrameHeader) (key : List Byte)
    (hlen : h.nPayloadLen = (lengthFields nPayloadSize).1)
    (hext : h.aExtended = (lengthFields nPayloadSize).2 ++ key) (hn : nPayloadSize < 2 ^ 32) :
    h.lengthBytes = (lengthFields nPayloadSize).2.length ∧ h.payloadLength = nPayloadSize := by
  have hb : ∀ n : Nat, n < 126 → UInt8.ofNat n ≠ 127 ∧ UInt8.ofNat n ≠ 126 := by
    intro n hn
    constructor <;> intro h <;> have := congrArg UInt8.toNat h <;> simp at this <;> omega
  rw [FrameHeader.payloadLength, FrameHeader.lengthBytes, hlen, hext]
  by_cases h1 : nPayloadSize ≥ 65536
  · simp only [lengthFields, if_pos h1]
    refine ⟨rfl, ?_⟩
    simp
    omega
  · by_cases h2 : nPayloadSize ≥ 126
    · simp only [lengthFields, if_neg h1, if_pos h2]
      refine ⟨rfl, ?_⟩
      simp
      omega
    · simp only [lengthFields, if_neg h1, if_neg h2]
      obtain ⟨h127, h126⟩ := hb nPayloadSize (by omega)
      simp [h127, h126]
      omega

/-- **The receiver of a frame reads the payload it was built from**, with the
opcode and the final flag asked for. -/
theorem buildFrame_spec (e : BuildEnv) (nFrame : Nat) (payload : List Byte) (nOpcode : Byte)
    (bFinal : Bool) (hn : payload.length < 2 ^ 32) :
    (buildFrame e nFrame payload nOpcode bFinal).1.nOpcode = nOpcode ∧
      (buildFrame e nFrame payload nOpcode bFinal).1.nFin = bFinal ∧
      (buildFrame e nFrame payload nOpcode bFinal).1.payloadLength = payload.length ∧
      (buildFrame e nFrame payload nOpcode bFinal).2.length = payload.length ∧
      (buildFrame e nFrame payload nOpcode bFinal).1.unmask
        (buildFrame e nFrame payload nOpcode bFinal).2 = payload := by
  rw [buildFrame]
  cases e.bServerSide with
  | true =>
    obtain ⟨-, hlen⟩ := lengthFields_spec payload.length
      ⟨nOpcode, 0, bFinal, (lengthFields payload.length).1, false, (lengthFields payload.length).2⟩
      [] rfl (List.append_nil _).symm hn
    exact ⟨rfl, rfl, hlen, rfl, rfl⟩
  | false =>
    generalize hkey : chooseMask e nFrame ⟨nOpcode, 0, bFinal, (lengthFields payload.length).1,
      true, (lengthFields payload.length).2⟩ payload = key
    obtain ⟨hbytes, hlen⟩ := lengthFields_spec payload.length
      ⟨nOpcode, 0, bFinal, (lengthFields payload.length).1, true,
        (lengthFields payload.length).2 ++ key.bytes⟩ key.bytes rfl rfl hn
    refine ⟨rfl, rfl, ?_, ?_, ?_⟩
    · simpa [hkey] using hlen
    · simp
    · have hmask : FrameHeader.maskKey ⟨nOpcode, 0, bFinal, (lengthFields payload.length).1, true,
          (lengthFields payload.length).2 ++ key.bytes⟩ = key := by
        rw [FrameHeader.maskKey, hbytes, List.drop_left]
        rfl
      simp [hkey, FrameHeader.unmask, hmask]

end MxLib.Http.WebSockets
