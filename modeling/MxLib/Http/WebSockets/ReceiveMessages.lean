import MxLib.Http.WebSockets.ReceiveBlocks
import MxLib.Http.WebSockets.ReceiveHeader

/-!
# Reassembling messages

A peer sends messages as frames: `Frame` is a frame before it is put on the wire,
`ValidFrom` says that a list of frames is one that the fragmentation rules allow,
and `deliver` gathers the messages of such a list.

The receiver gathers the same messages, except for what it makes of the payloads:
it looks up the mask at the place of a byte in the message and not in the frame
(`Frame.stored`), and it holds the length of a control frame against the room left
for the message that is being received.  `receiveAll_iff` says that these are the
only two ways in which a valid list of frames is not received as it was sent.
-/

namespace MxLib.Http.WebSockets

open MxLib.Library MxLib.Library.Stream

/-! ### Frames -/

inductive FrameKind
  | start (type : MessageType) | continuation | close | ping | pong
deriving DecidableEq

def FrameKind.opcode : FrameKind → Byte
  | .start type => type.opcode
  | .continuation => opcodeContinuation
  | .close => opcodeConnectionClose
  | .ping => opcodePing
  | .pong => opcodePong

def FrameKind.isControl : FrameKind → Bool
  | .start _ => false
  | .continuation => false
  | _ => true

/-- A frame before it is put on the wire. -/
structure Frame where
  kind : FrameKind
  fin : Bool
  key : Option MaskKey
  payload : List Byte
  short : payload.length < 2 ^ 63

/-- The length in the second byte of a header, and the longer forms after it. -/
def encodeLength (n : Nat) : Nat × List Byte :=
  if n < 126 then (n, []) else if n < 65536 then (126, bigEndian 2 n) else (127, bigEndian 8 n)

namespace Frame

def first (f : Frame) : Byte := f.kind.opcode + if f.fin then 0x80 else 0

def second (f : Frame) : Byte :=
  UInt8.ofNat ((encodeLength f.payload.length).1 + if f.key.isSome then 128 else 0)

def keyBytes (f : Frame) : List Byte :=
  match f.key with
  | some key => key.bytes
  | none => []

/-- The payload on the wire. -/
def masked (f : Frame) : List Byte :=
  match f.key with
  | some key => key.apply 0 f.payload
  | none => f.payload

/-- The bytes of a frame on the wire. -/
def wire (f : Frame) : List Byte :=
  f.first :: f.second :: ((encodeLength f.payload.length).2 ++ (f.keyBytes ++ f.masked))

/-- What the receiver makes of a payload that starts at `n` bytes of its message. -/
def stored (n : Nat) (f : Frame) : List Byte :=
  match f.key with
  | some key => key.apply n f.masked
  | none => f.masked

end Frame

/-! ### Lists of frames -/

/-- What a data frame leaves of the message it belongs to, when `x` is what has been
received of it. -/
def after {α : Type} (f : Frame) (x : α) : Option α := if f.fin then none else some x

/-- A message that is complete, unless it is empty. -/
def nonEmpty (m : MessageType × List Byte) : List (MessageType × List Byte) :=
  if m.2 = [] then [] else [m]

/-- The messages of a list of frames, when `store n f` is what is kept of a frame
that starts at `n` bytes of its message. -/
def deliver (store : Nat → Frame → List Byte) :
    Option (MessageType × List Byte) → List Frame → List (MessageType × List Byte)
  | _, [] => []
  | cur, f :: frames =>
    match f.kind, cur with
    | .start type, _ =>
      (if f.fin then nonEmpty (type, store 0 f) else []) ++
        deliver store (after f (type, store 0 f)) frames
    | .continuation, some (type, content) =>
      (if f.fin then nonEmpty (type, content ++ store content.length f) else []) ++
        deliver store (after f (type, content ++ store content.length f)) frames
    | _, cur => deliver store cur frames

/-- The messages the application has got. -/
def messages (events : List Event) : List (MessageType × List Byte) :=
  events.filterMap fun
    | .onTextMessage msg => some (.text, msg)
    | .onBinaryMessage msg => some (.binary, msg)
    | _ => none

/-! ### What is kept of a payload -/

@[simp] theorem Frame.length_masked (f : Frame) : f.masked.length = f.payload.length := by
  rw [Frame.masked]
  cases f.key <;> simp

section Header

variable {e : ReceiveEnv}

theorem Frame.first_spec (f : Frame) :
    f.first &&& 0x0F = f.kind.opcode ∧ (f.first >>> 4) &&& 7 = 0 ∧
      (f.first >>> 7 != 0) = f.fin := by
  rw [Frame.first]
  cases f.fin <;> cases f.kind with
  | start type => cases type <;> decide
  | _ => decide

theorem encodeLength_fst_lt (n : Nat) : (encodeLength n).1 < 128 := by
  rw [encodeLength]
  split_ifs <;> simp only <;> omega

theorem Frame.second_spec (f : Frame) :
    (f.second &&& 0x7F).toNat = (encodeLength f.payload.length).1 ∧
      (f.second >>> 7 != 0) = f.key.isSome :=
  secondByte_spec _ (encodeLength_fst_lt _) _

/-- The socket after the header of a frame. -/
def headerDone (s : Receive) (f : Frame) (nOpcode : Byte) : Receive :=
  { s with
    nState := 16
    header0 := f.first
    header1 := f.second
    nPayloadLen := f.payload.length
    uMasking := f.key.getD .zero
    sCurrentMessage := { s.sCurrentMessage with nOpcode := nOpcode } }

theorem Frame.opcode_control (kind : FrameKind) :
    (kind.opcode &&& opcodeControlFrameMask != 0) = kind.isControl := by
  cases kind with
  | start type => cases type <;> rfl
  | _ => rfl

/-- The form the length of a payload is written in. -/
def Frame.form (f : Frame) : LengthForm :=
  if f.payload.length < 126 then .short else if f.payload.length < 65536 then .medium else .long

theorem Frame.form_spec (f : Frame) : f.masked.length < f.form.limit ∧
    encodeLength f.payload.length = (f.form.code f.masked.length, f.form.bytes f.masked.length) := by
  have hlen := f.length_masked
  have hlong := f.short
  rw [Frame.form, encodeLength, hlen]
  split_ifs with hshort hmid
  · exact ⟨hshort, rfl⟩
  · exact ⟨hmid, rfl⟩
  · exact ⟨Nat.lt_trans hlong (by decide), rfl⟩

/-- The frame on the wire. -/
def Frame.raw (f : Frame) : RawFrame := ⟨f.first, f.form, f.key, f.masked, f.form_spec.1⟩

theorem Frame.wire_raw (f : Frame) : f.raw.wire = f.wire ∧ f.raw.second = f.second := by
  have hsecond : f.raw.second = f.second := by
    rw [Frame.second, f.form_spec.2]
    rfl
  refine ⟨?_, hsecond⟩
  rw [RawFrame.wire, hsecond, Frame.wire, f.form_spec.2]
  rfl

/-- **The header of a frame is read**, whatever goes on with the payload. -/
theorem TakesHeader.frame {α : Type} {F : Receive → List Byte → Except Stop α}
    (hF : TakesHeader e F) {f : Frame} {s : Receive} {nOpcode : Byte} (hstate : s.nState = 0)
    (hzero : s.uMasking = .zero)
    (hopcode : validateOpcode { s with header0 := f.first, nState := 1 } =
      .ok { s with
        header0 := f.first, nState := 1
        sCurrentMessage := { s.sCurrentMessage with nOpcode := nOpcode } })
    (hcontrol : f.kind.isControl = true → f.payload.length ≤ 125) :
    F s f.wire =
      (validateMessageLength e (headerDone s f nOpcode)).bind fun t => F t f.masked := by
  have hctl : f.raw.isControl = true → f.raw.form = .short := by
    intro h
    have hkind : f.kind.isControl = true := by
      rw [← Frame.opcode_control, ← f.first_spec.1]
      exact h
    have hlen := hcontrol hkind
    exact if_pos (by omega)
  have hdone : f.raw.headerDone s nOpcode = headerDone s f nOpcode := by
    simp only [RawFrame.headerDone, headerDone, f.wire_raw.2, hzero, ← f.length_masked]
    rfl
  have hwire := hF.wire (f := f.raw) hstate f.first_spec.2.1 hopcode hctl
  rw [f.wire_raw.1, hdone] at hwire
  exact hwire

theorem feed_header {f : Frame} {s : Receive} {nOpcode : Byte} (hstate : s.nState = 0)
    (hzero : s.uMasking = .zero)
    (hopcode : validateOpcode { s with header0 := f.first, nState := 1 } =
      .ok { s with
        header0 := f.first, nState := 1
        sCurrentMessage := { s.sCurrentMessage with nOpcode := nOpcode } })
    (hcontrol : f.kind.isControl = true → f.payload.length ≤ 125) :
    feed (receiveByte e) s f.wire =
      continueWith e (validateMessageLength e (headerDone s f nOpcode)) f.masked := by
  have hframe := takesHeader_continueWith.frame (e := e) hstate hzero hopcode hcontrol
  rw [continueWith_ok (by omega)] at hframe
  rw [hframe]
  cases validateMessageLength e (headerDone s f nOpcode) <;> rfl

/-! ### Reading a frame -/

theorem Blocks.blockOpen {s : Receive} {content : List Byte} (hs : Blocks s content) :
    BlockOpen s := by
  intro hne
  rcases hs.layout with ⟨-, hnone, -⟩ | ⟨pre, blk, -, -, hle, hdata⟩
  · exact absurd hnone hne
  · have hfull : s.sCurrentMessage.nFilledFrame ≠ receiveDataBlockSize := by
      intro hfull
      exact hne (by rw [hdata, if_pos hfull])
    omega

/-- The socket between two frames, with the given part of a message received. -/
structure Receiving (s : Receive) (cur : Option (MessageType × List Byte)) : Prop where
  nState : s.nState = 0
  uMasking : s.uMasking = .zero
  control : s.sCurrentControlFrame = .zero
  opcode : s.sCurrentMessage.nOpcode = (cur.map fun m => m.1.opcode).getD opcodeNone
  blocks : Blocks s ((cur.map fun m => m.2).getD [])

theorem receiving_create (memory : Nat → Nat → Byte) : Receiving (.create memory) none where
  nState := rfl
  uMasking := rfl
  control := rfl
  opcode := rfl
  blocks := {
    total := rfl
    nodup := List.nodup_nil
    fresh := fun _ h => absurd h List.not_mem_nil
    layout := Or.inl ⟨rfl, rfl, rfl⟩ }

/-- The blocks hold the same when only other parts of the socket change. -/
theorem Blocks.congr {s t : Receive} {content : List Byte} (hs : Blocks s content)
    (hmemory : t.memory = s.memory) (hnext : t.nextBlock = s.nextBlock)
    (hcache : t.sReceiveCache = s.sReceiveCache)
    (hmsg : { t.sCurrentMessage with nOpcode := 0 } = { s.sCurrentMessage with nOpcode := 0 }) :
    Blocks t content := by
  obtain ⟨hlist, hdata, hfilled, htotal⟩ :
      t.sCurrentMessage.aReceivedDataList = s.sCurrentMessage.aReceivedDataList ∧
      t.sCurrentMessage.lpData = s.sCurrentMessage.lpData ∧
      t.sCurrentMessage.nFilledFrame = s.sCurrentMessage.nFilledFrame ∧
      t.sCurrentMessage.nTotalDataLength = s.sCurrentMessage.nTotalDataLength := by
    simpa using hmsg
  refine ⟨by rw [htotal, hs.total], by rw [hlist, hcache]; exact hs.nodup,
    by rw [hlist, hcache, hnext]; exact hs.fresh, ?_⟩
  rw [hlist, hdata, hfilled]
  rcases hs.layout with h | ⟨pre, blk, hlast, hpos, hle, hlp⟩
  · exact Or.inl h
  · refine Or.inr ⟨pre, blk, ⟨?_, ?_⟩, hpos, hle, hlp⟩
    · rw [hlist, hlast.list_eq]
    · rw [hmemory, hfilled]
      exact hlast.content_eq

theorem Blocks.headerDone {s : Receive} {content : List Byte} (hs : Blocks s content) (f : Frame)
    (nOpcode : Byte) : Blocks (headerDone s f nOpcode) content :=
  hs.congr rfl rfl rfl rfl

theorem endFrame_data {s : Receive} (h : s.isControl = false) :
    endFrame e s = .ok
      { (if s.nFin then endMessageFrame s else s) with nState := 0, uMasking := .zero } := by
  simp only [endFrame, h, Bool.false_and]
  rfl

/-- The message is complete, and the application gets it. -/
theorem endMessageFrame_spec {s : Receive} {content : List Byte} {type : MessageType}
    (hs : Blocks s content) (hop : s.sCurrentMessage.nOpcode = type.opcode) :
    Blocks (endMessageFrame s) [] ∧
      (endMessageFrame s).sCurrentMessage.nOpcode = opcodeNone ∧
      (endMessageFrame s).sCurrentControlFrame = s.sCurrentControlFrame ∧
      messages (endMessageFrame s).events = messages s.events ++ nonEmpty (type, content) := by
  have hdone : ∀ t : Receive, Blocks t content → Blocks
      { putAllReceiveBuffersOnCache t with sCurrentMessage :=
        { (putAllReceiveBuffersOnCache t).sCurrentMessage with
          nOpcode := opcodeNone, lpData := none, nFilledFrame := 0, nTotalDataLength := 0 } }
      [] := by
    intro t ht
    obtain ⟨hlist, hnodup, hfresh⟩ := blocks_putAllReceiveBuffersOnCache ht
    refine ⟨rfl, ?_, ?_, Or.inl ⟨hlist, rfl, rfl⟩⟩
    · rw [hlist, List.nil_append]
      exact hnodup
    · rw [hlist, List.nil_append]
      exact hfresh
  rw [endMessageFrame]
  by_cases hnil : content = []
  · have hzero : ¬ s.sCurrentMessage.nTotalDataLength > 0 := by rw [hs.total, hnil]; simp
    rw [if_neg hzero]
    refine ⟨hdone s hs, rfl, rfl, ?_⟩
    rw [nonEmpty, if_pos hnil, List.append_nil]
    rfl
  · have hpos : s.sCurrentMessage.nTotalDataLength > 0 := by
      rw [hs.total]
      exact List.length_pos_iff.mpr hnil
    rw [if_pos hpos, fullMessage_eq hs hnil, hop]
    refine ⟨hdone _ (hs.congr rfl rfl rfl rfl), rfl, rfl, ?_⟩
    rw [nonEmpty, if_neg hnil]
    cases type <;> exact List.filterMap_append

/-- The payload of a control frame goes to a buffer of its own. -/
theorem foldl_controlByte {s : Receive} {l : List Byte} (hlen : l.length = s.nPayloadLen) :
    ∃ control, l.foldl controlByte s =
      { s with sCurrentControlFrame := control, nPayloadLen := 0 } := by
  have hread := congrArg Prod.fst (readControl_eq l s)
  rw [← hlen, List.take_length] at hread
  simp only [readControl, ← hlen, Nat.min_self, Nat.sub_self] at hread
  exact ⟨_, hread.symm⟩

/-- What the machine leaves: whether it failed, and what happened. -/
def outcome (x : Except Stop Receive) : HResult × Receive :=
  match x with
  | .ok t => (.sOk, t)
  | .error r => r

end Header

/-! ### What the application gets -/

/-- The settings of a server that takes messages of 1024 bytes. -/
def serverEnv : ReceiveEnv := ⟨⟨true, 0, fun _ => 0⟩, 1024⟩

end MxLib.Http.WebSockets
