import Mathlib.Tactic.Ring
import MxLib.Http.WebSockets.Frame
import MxLib.Library.Loop
import MxLib.Memory

/-!
# Sending a message

A message is begun, sent in any number of calls, and ended.  The bytes go to
`cFrameBuffer`, which is handed to the connection as a frame each time it is full
and once more at the end.

The copy of `SendBinaryMessage` starts at `lpFrameData`, which is set to the start
of the buffer for a new frame and is not moved by the copy.  A call that finds the
frame begun by an earlier call therefore writes over its start
(`sendMessage_faithful_iff`).
-/

namespace MxLib.Http.WebSockets

open MxLib.Library

/-- A frame handed to the connection: the header and the payload as it was sent. -/
structure SentFrame where
  sFrameHeader : FrameHeader
  payload : List Byte
deriving DecidableEq

/-- The payload of a frame, unmasked. -/
def SentFrame.data (f : SentFrame) : List Byte := f.sFrameHeader.unmask f.payload

/-- `sSend`, with the frames handed to the connection so far.  The mutex holds the
thread that is sending, or zero. -/
structure Send where
  nSendInProgressMutex : Nat
  nOpcode : Byte
  cFrameBuffer : Nat → Byte
  lpFrameData : Option Nat
  nFilledFrame : Nat
  sent : List SentFrame

/-- No message is being sent.  The buffer holds whatever is in its memory. -/
def Send.idle (cFrameBuffer : Nat → Byte) (sent : List SentFrame) : Send where
  nSendInProgressMutex := 0
  nOpcode := opcodeNone
  cFrameBuffer := cFrameBuffer
  lpFrameData := none
  nFilledFrame := 0
  sent := sent

/-- `BeginTextMessage` and `BeginBinaryMessage` -/
def beginMessage (nThreadId : Nat) (type : MessageType) (s : Send) : Send :=
  { s with nSendInProgressMutex := nThreadId, nOpcode := type.opcode }

section Model

variable (e : BuildEnv)

/-- `InternalSendFrame`, to a connection that takes everything. -/
def internalSendFrame (bFinalFrame : Bool) (s : Send) : Send :=
  let (h, payload) := buildFrame e s.sent.length (readBytes s.cFrameBuffer s.nFilledFrame)
    s.nOpcode bFinalFrame
  { s with
    cFrameBuffer := memCopy s.cFrameBuffer 0 payload
    sent := s.sent ++ [⟨h, payload⟩] }

/-- A full frame is sent and a new one prepared. -/
def flushFrame (s : Send) : Send :=
  if s.nFilledFrame ≥ sendPayloadSize then
    { internalSendFrame e false s with
      nOpcode := opcodeContinuation, lpFrameData := none, nFilledFrame := 0 }
  else s

/-- As much of the data as the frame has room for is copied. -/
def copyToFrame (s : Send) (lpData : List Byte) : Send × List Byte :=
  let nToWrite := min (sendPayloadSize - s.nFilledFrame) lpData.length
  let lpFrameData := s.lpFrameData.getD 0
  ({ s with
      cFrameBuffer := memCopy s.cFrameBuffer lpFrameData (lpData.take nToWrite)
      lpFrameData := some lpFrameData
      nFilledFrame := s.nFilledFrame + nToWrite },
    lpData.drop nToWrite)

/-- One turn of the loop of `SendBinaryMessage`. -/
def sendTurn : Send × List Byte → (Send × List Byte) ⊕ Send
  | (s, []) => .inr s
  | (s, b :: rest) => .inl (copyToFrame (flushFrame e s) (b :: rest))

/-- `SendBinaryMessage`; a null `lpData` is `none`. -/
def sendBinaryMessage (nThreadId : Nat) (s : Send) (lpData : Option (List Byte)) :
    HResult × Send :=
  if s.nSendInProgressMutex ≠ nThreadId then (.mxNotReady, s)
  else
    match lpData with
    | none => (.ePointer, { s with nSendInProgressMutex := 0 })
    | some lpData => (.sOk, Loop.exec (sendTurn e) (fun s => s.2.length) s (s, lpData))

/-- `SendTextMessage` of a narrow string with its length -/
def sendTextMessage (nThreadId : Nat) (s : Send) (szMsgA : List Byte) : HResult × Send :=
  sendBinaryMessage e nThreadId s (some szMsgA)

/-- `EndMessage` -/
def endMessage (nThreadId : Nat) (s : Send) : HResult × Send :=
  if s.nSendInProgressMutex ≠ nThreadId then (.mxNotReady, s)
  else
    let s := if s.nFilledFrame > 0 then internalSendFrame e true s else s
    (.sOk, Send.idle s.cFrameBuffer s.sent)

/-- One call that sends a part of a message. -/
inductive SendCall
  | text (szMsgA : List Byte)
  | binary (lpData : List Byte)

def SendCall.data : SendCall → List Byte
  | .text szMsgA => szMsgA
  | .binary lpData => lpData

def sendCall (nThreadId : Nat) (s : Send) : SendCall → Send
  | .text szMsgA => (sendTextMessage e nThreadId s szMsgA).2
  | .binary lpData => (sendBinaryMessage e nThreadId s (some lpData)).2

/-- A whole message. -/
def sendMessage (nThreadId : Nat) (type : MessageType) (calls : List SendCall) (s : Send) :
    Send :=
  (endMessage e nThreadId (calls.foldl (sendCall e nThreadId) (beginMessage nThreadId type s))).2

end Model

/-- The frames carry the data as one message of the given type: a data frame and
continuation frames, the last one final. -/
structure Faithful (type : MessageType) (data : List Byte) (frames : List SentFrame) : Prop where
  ne_nil : frames ≠ []
  opcode : ∀ i f, frames[i]? = some f →
    f.sFrameHeader.nOpcode = if i = 0 then type.opcode else opcodeContinuation
  final : ∀ i f, frames[i]? = some f → f.sFrameHeader.nFin = decide (i + 1 = frames.length)
  length : ∀ f ∈ frames, f.sFrameHeader.payloadLength = f.payload.length
  data_eq : frames.flatMap SentFrame.data = data

section Proofs

variable {e : BuildEnv} {nThreadId : Nat} {type : MessageType} {sent : List SentFrame}

theorem flushFrame_filled_lt (s : Send) : (flushFrame e s).nFilledFrame < sendPayloadSize := by
  rw [flushFrame]
  split
  · simp [sendPayloadSize]
  · omega

/-- **Every turn sends something.** -/
theorem sendTurn_measure (c c' : Send × List Byte) (h : sendTurn e c = .inl c') :
    c'.2.length < c.2.length := by
  obtain ⟨s, lpData⟩ := c
  cases lpData with
  | nil => cases h
  | cons b rest =>
    obtain rfl := Sum.inl.inj h
    have hlt := flushFrame_filled_lt (e := e) s
    simp only [copyToFrame, List.length_drop, List.length_cons]
    omega

/-! ### The frames and the buffer as one stream -/

/-- The bytes in the frames and in the buffer. -/
def stream (frames : List SentFrame) (s : Send) : List Byte :=
  frames.flatMap SentFrame.data ++ readBytes s.cFrameBuffer s.nFilledFrame

/-- A frame of a message that is not its last one. -/
structure FullFrame (f : SentFrame) : Prop where
  data_length : f.data.length = sendPayloadSize
  length : f.sFrameHeader.payloadLength = f.payload.length
  final : f.sFrameHeader.nFin = false

variable (nThreadId type sent) in
/-- The socket while `n` bytes of a message have been sent by the given frames and
the buffer. -/
structure Sending (n : Nat) (frames : List SentFrame) (s : Send) : Prop where
  locked : s.nSendInProgressMutex = nThreadId
  sent_eq : s.sent = sent ++ frames
  full : ∀ f ∈ frames, FullFrame f
  opcodes : ∀ i f, frames[i]? = some f →
    f.sFrameHeader.nOpcode = if i = 0 then type.opcode else opcodeContinuation
  opcode : s.nOpcode = if frames.length = 0 then type.opcode else opcodeContinuation
  offset : s.lpFrameData.getD 0 = 0
  filled_le : s.nFilledFrame ≤ sendPayloadSize
  total : n = sendPayloadSize * frames.length + s.nFilledFrame

variable (nThreadId type sent) in
theorem sending_begin (buf : Nat → Byte) :
    Sending nThreadId type sent 0 [] (beginMessage nThreadId type (.idle buf sent)) where
  locked := rfl
  sent_eq := (List.append_nil _).symm
  full := by simp
  opcodes := by simp
  opcode := rfl
  offset := rfl
  filled_le := Nat.zero_le _
  total := rfl

/-- The frame that `InternalSendFrame` hands to the connection. -/
theorem internalSendFrame_spec (bFinalFrame : Bool) (s : Send)
    (hle : s.nFilledFrame ≤ sendPayloadSize) :
    ∃ f buf, internalSendFrame e bFinalFrame s =
        { s with cFrameBuffer := buf, sent := s.sent ++ [f] } ∧
      f.sFrameHeader.nOpcode = s.nOpcode ∧ f.sFrameHeader.nFin = bFinalFrame ∧
      f.sFrameHeader.payloadLength = f.payload.length ∧
      f.data = readBytes s.cFrameBuffer s.nFilledFrame := by
  have hn : (readBytes s.cFrameBuffer s.nFilledFrame).length < 2 ^ 32 := by
    rw [length_readBytes]
    simp only [sendPayloadSize] at hle
    omega
  obtain ⟨hop, hfin, hlen, hlen', hdata⟩ := buildFrame_spec e s.sent.length
    (readBytes s.cFrameBuffer s.nFilledFrame) s.nOpcode bFinalFrame hn
  exact ⟨_, _, rfl, hop, hfin, hlen.trans hlen'.symm, hdata⟩

/-- The opcodes of the frames of a message stay right when a frame is added. -/
theorem opcodes_append {frames : List SentFrame} {f : SentFrame}
    (h : ∀ i g, frames[i]? = some g →
      g.sFrameHeader.nOpcode = if i = 0 then type.opcode else opcodeContinuation)
    (hf : f.sFrameHeader.nOpcode = if frames.length = 0 then type.opcode else opcodeContinuation) :
    ∀ i g, (frames ++ [f])[i]? = some g →
      g.sFrameHeader.nOpcode = if i = 0 then type.opcode else opcodeContinuation := by
  intro i g hg
  by_cases hi : i < frames.length
  · rw [List.getElem?_append_left hi] at hg
    exact h i g hg
  · rw [List.getElem?_append_right (by omega)] at hg
    have hlen : i - frames.length = 0 := by
      by_contra hne
      rw [List.getElem?_eq_none (by simp; omega)] at hg
      cases hg
    rw [hlen, List.getElem?_cons_zero, Option.some.injEq] at hg
    obtain rfl : i = frames.length := by omega
    rw [← hg]
    exact hf

/-- **Flushing moves the bytes of a full buffer to a frame.** -/
theorem flushFrame_spec {n : Nat} {frames : List SentFrame} {s : Send}
    (hs : Sending nThreadId type sent n frames s) :
    ∃ frames', Sending nThreadId type sent n frames' (flushFrame e s) ∧
      stream frames' (flushFrame e s) = stream frames s := by
  by_cases hfull : s.nFilledFrame ≥ sendPayloadSize
  · have hfilled : s.nFilledFrame = sendPayloadSize := Nat.le_antisymm hs.filled_le hfull
    obtain ⟨f, buf, hsend, hop, hfin, hlen, hdata⟩ :=
      internalSendFrame_spec (e := e) false s hs.filled_le
    have hflush : flushFrame e s =
        { s with
          nOpcode := opcodeContinuation, cFrameBuffer := buf, lpFrameData := none,
          nFilledFrame := 0, sent := s.sent ++ [f] } := by
      rw [flushFrame, if_pos hfull, hsend]
    have hf : FullFrame f := ⟨by rw [hdata, length_readBytes, hfilled], hlen, hfin⟩
    rw [hflush]
    refine ⟨frames ++ [f], ⟨hs.locked, ?_, ?_, ?_, ?_, rfl, Nat.zero_le _, ?_⟩, ?_⟩
    · simp [hs.sent_eq]
    · intro g hg
      rcases List.mem_append.mp hg with hg | hg
      · exact hs.full g hg
      · rw [List.mem_singleton.mp hg]
        exact hf
    · exact opcodes_append hs.opcodes (hop.trans hs.opcode)
    · simp
    · rw [List.length_append, List.length_singleton, hs.total, hfilled]
      simp only [Nat.mul_add, Nat.mul_one, Nat.add_zero]
    · simp [stream, hdata]
  · rw [flushFrame, if_neg hfull]
    exact ⟨frames, hs, rfl⟩

theorem length_flatMap_full {frames : List SentFrame} (h : ∀ f ∈ frames, FullFrame f) :
    (frames.flatMap SentFrame.data).length = sendPayloadSize * frames.length := by
  induction frames with
  | nil => rfl
  | cons f frames ih =>
    rw [List.flatMap_cons, List.length_append, (h f List.mem_cons_self).data_length,
      ih fun g hg => h g (List.mem_cons_of_mem _ hg), List.length_cons]
    ring

/-- The number of bytes a turn copies. -/
def turnLength (s : Send) (lpData : List Byte) : Nat :=
  min (sendPayloadSize - s.nFilledFrame) lpData.length

/-- What is copied is put at the start of the buffer, wherever the message is. -/
theorem copyToFrame_spec {n : Nat} {frames : List SentFrame} {s : Send}
    (hs : Sending nThreadId type sent n frames s) (lpData : List Byte) :
    (copyToFrame s lpData).2 = lpData.drop (turnLength s lpData) ∧
      Sending nThreadId type sent (n + turnLength s lpData) frames (copyToFrame s lpData).1 ∧
      (copyToFrame s lpData).1.nFilledFrame = s.nFilledFrame + turnLength s lpData ∧
      (copyToFrame s lpData).1.cFrameBuffer =
        memCopy s.cFrameBuffer 0 (lpData.take (turnLength s lpData)) := by
  have hfilled : s.nFilledFrame + turnLength s lpData ≤ sendPayloadSize := by
    have hle := hs.filled_le
    rw [turnLength]
    omega
  refine ⟨rfl, ⟨hs.locked, hs.sent_eq, hs.full, hs.opcodes, hs.opcode, hs.offset, hfilled, ?_⟩,
    rfl, ?_⟩
  · rw [hs.total, Nat.add_assoc]
    rfl
  · exact congrArg (fun k => memCopy s.cFrameBuffer k (lpData.take (turnLength s lpData))) hs.offset

/-- Into an empty buffer the copy adds to the stream. -/
theorem stream_copyToFrame {n : Nat} {frames : List SentFrame} {s : Send}
    (hs : Sending nThreadId type sent n frames s) (h0 : s.nFilledFrame = 0) (lpData : List Byte) :
    stream frames (copyToFrame s lpData).1 =
      stream frames s ++ lpData.take (turnLength s lpData) := by
  obtain ⟨-, -, hfilled, hbuf⟩ := copyToFrame_spec hs lpData
  have hlen : (lpData.take (turnLength s lpData)).length = turnLength s lpData := by
    rw [List.length_take, turnLength]
    omega
  have hread := readBytes_memCopy_zero s.cFrameBuffer (lpData.take (turnLength s lpData))
  rw [hlen] at hread
  rw [stream, stream, hfilled, hbuf, h0, Nat.zero_add, hread, readBytes_zero, List.append_nil]

/-- Into any buffer the copy puts its first byte at the start of the frame, and
leaves the frames before it as they are. -/
theorem getElem?_stream_copyToFrame {n : Nat} {frames : List SentFrame} {s : Send}
    (hs : Sending nThreadId type sent n frames s) (hlt : s.nFilledFrame < sendPayloadSize)
    (b : Byte) (rest : List Byte) :
    (stream frames (copyToFrame s (b :: rest)).1)[sendPayloadSize * frames.length]? = some b ∧
      ∀ i, i < sendPayloadSize * frames.length →
        (stream frames (copyToFrame s (b :: rest)).1)[i]? = (stream frames s)[i]? := by
  obtain ⟨-, -, hfilled, hbuf⟩ := copyToFrame_spec hs (b :: rest)
  have hlen := length_flatMap_full hs.full
  obtain ⟨k, hk⟩ : ∃ k, turnLength s (b :: rest) = k + 1 :=
    ⟨turnLength s (b :: rest) - 1, by rw [turnLength, List.length_cons]; omega⟩
  constructor
  · rw [stream, List.getElem?_append_right (by omega), hlen, Nat.sub_self,
      getElem?_readBytes (by omega), hbuf, hk, List.take_succ_cons, memCopy_zero_zero]
  · intro i hi
    rw [stream, stream, List.getElem?_append_left (by omega),
      List.getElem?_append_left (by omega)]

/-! ### One call -/

/-- The state a call of `SendBinaryMessage` with these data leaves. -/
def afterCall (e : BuildEnv) (s : Send) (lpData : List Byte) : Send :=
  Loop.exec (sendTurn e) (fun c => c.2.length) s (s, lpData)

theorem afterCall_nil (s : Send) : afterCall e s [] = s :=
  Loop.exec_inr _ rfl

theorem sendCall_eq {s : Send} (h : s.nSendInProgressMutex = nThreadId) (call : SendCall) :
    sendCall e nThreadId s call = afterCall e s call.data := by
  cases call <;> simp [sendCall, sendTextMessage, sendBinaryMessage, h, SendCall.data, afterCall]

/-- **What every turn keeps of the message sent so far and of the data left holds
when the call is over.** -/
theorem afterCall_induct (P : Nat → List Byte → List SentFrame → Send → Prop)
    (hturn : ∀ n b rest frames s, Sending nThreadId type sent n frames s →
      s.nFilledFrame < sendPayloadSize → P n (b :: rest) frames s →
      P (n + turnLength s (b :: rest)) ((b :: rest).drop (turnLength s (b :: rest))) frames
        (copyToFrame s (b :: rest)).1)
    (hflush : ∀ n b rest frames s frames', stream frames' (flushFrame e s) = stream frames s →
      P n (b :: rest) frames s → P n (b :: rest) frames' (flushFrame e s)) :
    ∀ (m n : Nat) (lpData : List Byte) (frames : List SentFrame) (s : Send), lpData.length ≤ m →
      Sending nThreadId type sent n frames s → P n lpData frames s →
      ∃ frames', Sending nThreadId type sent (n + lpData.length) frames' (afterCall e s lpData) ∧
        P (n + lpData.length) [] frames' (afterCall e s lpData) := by
  intro m
  induction m with
  | zero =>
    intro n lpData frames s hm hs hP
    obtain rfl := List.length_eq_zero_iff.mp (Nat.le_zero.mp hm)
    rw [afterCall_nil]
    exact ⟨frames, hs, hP⟩
  | succ m ih =>
    intro n lpData frames s hm hs hP
    cases lpData with
    | nil =>
      rw [afterCall_nil]
      exact ⟨frames, hs, hP⟩
    | cons b rest =>
      have hlt := flushFrame_filled_lt (e := e) s
      obtain ⟨frames₁, hs₁, hstream⟩ := flushFrame_spec (e := e) hs
      have hP₁ := hturn n b rest frames₁ _ hs₁ hlt (hflush n b rest frames s frames₁ hstream hP)
      obtain ⟨hdrop, hs₂, -, -⟩ := copyToFrame_spec hs₁ (b :: rest)
      have hk : 0 < turnLength (flushFrame e s) (b :: rest) := by
        rw [turnLength, List.length_cons]
        omega
      have hle : turnLength (flushFrame e s) (b :: rest) ≤ (b :: rest).length :=
        Nat.min_le_right _ _
      have hnext : afterCall e s (b :: rest) =
          afterCall e (copyToFrame (flushFrame e s) (b :: rest)).1
            ((b :: rest).drop (turnLength (flushFrame e s) (b :: rest))) := by
        rw [afterCall, Loop.exec_inl sendTurn_measure _ (rfl : sendTurn e (s, b :: rest) = _),
          ← hdrop]
        exact Loop.exec_dflt sendTurn_measure _ _ _
      obtain ⟨frames', hs', hP'⟩ := ih _ _ frames₁ _
        (by rw [List.length_drop]; omega) hs₂ hP₁
      rw [hnext]
      rw [List.length_drop, Nat.add_assoc, Nat.add_sub_cancel' hle] at hs' hP'
      exact ⟨frames', hs', hP'⟩

/-! ### Aligned calls -/

/-- A message that is sent faithfully so far: what is left of it starts a frame. -/
def OnTrack (data : List Byte) (n : Nat) (rest : List Byte) (frames : List SentFrame)
    (s : Send) : Prop :=
  (rest ≠ [] → sendPayloadSize ∣ n) ∧ stream frames s ++ rest = data

theorem onTrack_copyToFrame {data : List Byte} {n : Nat} {b : Byte} {rest : List Byte}
    {frames : List SentFrame} {s : Send} (hs : Sending nThreadId type sent n frames s)
    (hlt : s.nFilledFrame < sendPayloadSize) (h : OnTrack data n (b :: rest) frames s) :
    OnTrack data (n + turnLength s (b :: rest)) ((b :: rest).drop (turnLength s (b :: rest)))
      frames (copyToFrame s (b :: rest)).1 := by
  obtain ⟨hdvd, hstream⟩ := h
  have hn := hdvd (List.cons_ne_nil b rest)
  have h0 : s.nFilledFrame = 0 := by
    rw [hs.total, Nat.dvd_add_right (Nat.dvd_mul_right _ _)] at hn
    exact Nat.eq_zero_of_dvd_of_lt hn hlt
  refine ⟨fun hne => ?_, ?_⟩
  · -- data are left, so the turn has filled a whole frame
    have hk : turnLength s (b :: rest) = sendPayloadSize := by
      have hlen : turnLength s (b :: rest) < (b :: rest).length := by
        by_contra hge
        exact hne (List.drop_eq_nil_of_le (by omega))
      rw [turnLength] at hlen ⊢
      omega
    rw [hk]
    exact Nat.dvd_add hn (Nat.dvd_refl _)
  · rw [stream_copyToFrame hs h0, List.append_assoc, List.take_append_drop, hstream]

/-- **A call that starts a frame adds its data to the stream.** -/
theorem afterCall_aligned {n : Nat} {frames : List SentFrame} {s : Send}
    (hs : Sending nThreadId type sent n frames s) (lpData : List Byte)
    (hn : lpData ≠ [] → sendPayloadSize ∣ n) :
    ∃ frames', Sending nThreadId type sent (n + lpData.length) frames' (afterCall e s lpData) ∧
      stream frames' (afterCall e s lpData) = stream frames s ++ lpData := by
  obtain ⟨frames', hs', -, hstream⟩ := afterCall_induct (e := e)
    (OnTrack (stream frames s ++ lpData))
    (fun _ _ _ _ _ hs hlt h => onTrack_copyToFrame hs hlt h)
    (fun _ _ _ _ _ _ hstream h => ⟨h.1, by rw [hstream, h.2]⟩)
    _ n lpData frames s le_rfl hs ⟨hn, rfl⟩
  exact ⟨frames', hs', by rw [← hstream, List.append_nil]⟩

/-- Once something was sent, the buffer is not empty. -/
theorem afterCall_filled_pos {n : Nat} {frames : List SentFrame} {s : Send}
    (hs : Sending nThreadId type sent n frames s) (h : 0 < n → 0 < s.nFilledFrame)
    (lpData : List Byte) (hpos : 0 < n + lpData.length) :
    0 < (afterCall e s lpData).nFilledFrame := by
  cases lpData with
  | nil =>
    rw [afterCall_nil]
    exact h (by simpa using hpos)
  | cons b rest =>
    have hturn : ∀ n b rest frames s, Sending nThreadId type sent n frames s →
        s.nFilledFrame < sendPayloadSize → 0 < (copyToFrame s (b :: rest)).1.nFilledFrame := by
      intro n b rest frames s hs hlt
      obtain ⟨-, -, hfilled, -⟩ := copyToFrame_spec hs (b :: rest)
      rw [hfilled, turnLength, List.length_cons]
      omega
    obtain ⟨frames', -, hP⟩ := afterCall_induct (e := e)
      (fun _ rest _ s => rest = [] → 0 < s.nFilledFrame)
      (fun n b rest frames s hs hlt _ _ => hturn n b rest frames s hs hlt)
      (fun _ _ _ _ _ _ _ _ hnil => by cases hnil)
      _ n (b :: rest) frames s le_rfl hs (fun hnil => by cases hnil)
    exact hP rfl

/-! ### Calls that start inside a frame -/

/-- The byte at the start of a frame is lost, or will be when the rest is sent: the
stream has a zero there, or the rest starts inside that frame. -/
def Losing (nStart n : Nat) (rest : List Byte) (frames : List SentFrame) (s : Send) : Prop :=
  nStart < n ∧ (∀ b ∈ rest, b = 0) ∧
    (rest ≠ [] ∧ nStart = sendPayloadSize * (n / sendPayloadSize) ∨
      (stream frames s)[nStart]? = some 0)

theorem losing_copyToFrame {nStart n : Nat} {b : Byte} {rest : List Byte}
    {frames : List SentFrame} {s : Send} (hs : Sending nThreadId type sent n frames s)
    (hlt : s.nFilledFrame < sendPayloadSize) (hdvd : sendPayloadSize ∣ nStart)
    (h : Losing nStart n (b :: rest) frames s) :
    Losing nStart (n + turnLength s (b :: rest)) ((b :: rest).drop (turnLength s (b :: rest)))
      frames (copyToFrame s (b :: rest)).1 := by
  obtain ⟨hn, hzero, h⟩ := h
  obtain ⟨hfirst, hbefore⟩ := getElem?_stream_copyToFrame hs hlt b rest
  refine ⟨by omega, fun b' hb' => hzero b' (List.mem_of_mem_drop hb'), Or.inr ?_⟩
  have hquot : n / sendPayloadSize = frames.length := by
    rw [hs.total, Nat.mul_add_div (by decide), Nat.div_eq_of_lt hlt, Nat.add_zero]
  obtain ⟨k, rfl⟩ := hdvd
  have hk : k ≤ frames.length := by
    rw [← hquot, Nat.le_div_iff_mul_le (by decide), Nat.mul_comm]
    exact hn.le
  rcases Nat.lt_or_eq_of_le hk with hk | rfl
  · have hlt' : sendPayloadSize * k < sendPayloadSize * frames.length :=
      Nat.mul_lt_mul_of_pos_left hk (by decide)
    rcases h with ⟨-, h⟩ | h
    · rw [hquot] at h
      omega
    · rw [hbefore _ hlt', h]
  · rw [hfirst, hzero b List.mem_cons_self]

/-- **What is lost stays lost** while zeros are sent. -/
theorem afterCall_losing {nStart n : Nat} {frames : List SentFrame} {s : Send}
    (hs : Sending nThreadId type sent n frames s) (hdvd : sendPayloadSize ∣ nStart)
    {lpData : List Byte} (h : Losing nStart n lpData frames s) :
    ∃ frames', Sending nThreadId type sent (n + lpData.length) frames' (afterCall e s lpData) ∧
      nStart < n + lpData.length ∧
      (stream frames' (afterCall e s lpData))[nStart]? = some 0 := by
  obtain ⟨frames', hs', hn, -, hlost⟩ := afterCall_induct (e := e) (Losing nStart)
    (fun _ _ _ _ _ hs hlt h => losing_copyToFrame hs hlt hdvd h)
    (fun _ _ _ _ _ _ hstream h => ⟨h.1, h.2.1, by rw [hstream]; exact h.2.2⟩)
    _ n lpData frames s le_rfl hs h
  exact ⟨frames', hs', hn, hlost.resolve_left fun h => h.1 rfl⟩

/-! ### A whole message -/

theorem foldl_sendCall_cons {s : Send} (h : s.nSendInProgressMutex = nThreadId) (call : SendCall)
    (calls : List SendCall) : (call :: calls).foldl (sendCall e nThreadId) s =
      calls.foldl (sendCall e nThreadId) (afterCall e s call.data) := by
  rw [List.foldl_cons, sendCall_eq h]

/-- The bytes sent by some calls. -/
def callsData (calls : List SendCall) : List Byte := calls.flatMap SendCall.data

/-- From `n` bytes on, every call that sends something starts a frame. -/
def AlignedFrom : Nat → List Nat → Prop
  | _, [] => True
  | n, len :: lens => (len ≠ 0 → sendPayloadSize ∣ n) ∧ AlignedFrom (n + len) lens

/-- **Aligned calls add all their data to the stream.** -/
theorem foldl_sendCall_aligned (calls : List SendCall) : ∀ {n : Nat} {frames : List SentFrame}
    {s : Send}, Sending nThreadId type sent n frames s → (0 < n → 0 < s.nFilledFrame) →
    AlignedFrom n (calls.map fun call => call.data.length) →
    ∃ frames', Sending nThreadId type sent (n + (callsData calls).length) frames'
        (calls.foldl (sendCall e nThreadId) s) ∧
      (0 < n + (callsData calls).length → 0 < (calls.foldl (sendCall e nThreadId) s).nFilledFrame) ∧
      stream frames' (calls.foldl (sendCall e nThreadId) s) =
        stream frames s ++ callsData calls := by
  induction calls with
  | nil =>
    intro n frames s hs hpos _
    exact ⟨frames, hs, hpos, (List.append_nil _).symm⟩
  | cons call calls ih =>
    intro n frames s hs hpos ⟨hdvd, hrest⟩
    obtain ⟨frames₁, hs₁, hstream₁⟩ := afterCall_aligned (e := e) hs call.data
      (fun hne => hdvd fun h0 => hne (List.length_eq_zero_iff.mp h0))
    obtain ⟨frames', hs', hpos', hstream'⟩ :=
      ih hs₁ (afterCall_filled_pos hs hpos call.data) hrest
    rw [foldl_sendCall_cons hs.locked]
    have hlen : n + (callsData (call :: calls)).length =
        n + call.data.length + (callsData calls).length := by
      rw [callsData, List.flatMap_cons, List.length_append, ← Nat.add_assoc]
      rfl
    rw [hlen]
    refine ⟨frames', hs', hpos', ?_⟩
    rw [hstream', hstream₁, List.append_assoc]
    rfl

/-- Calls that send only zeros do not bring back what is lost. -/
theorem foldl_sendCall_lost {nStart : Nat} (hdvd : sendPayloadSize ∣ nStart)
    (calls : List SendCall) : ∀ {n : Nat} {frames : List SentFrame} {s : Send},
    Sending nThreadId type sent n frames s → nStart < n → (∀ b ∈ callsData calls, b = 0) →
    (stream frames s)[nStart]? = some 0 →
    ∃ frames', Sending nThreadId type sent (n + (callsData calls).length) frames'
        (calls.foldl (sendCall e nThreadId) s) ∧
      (stream frames' (calls.foldl (sendCall e nThreadId) s))[nStart]? = some 0 := by
  induction calls with
  | nil =>
    intro n frames s hs _ _ hlost
    exact ⟨frames, hs, hlost⟩
  | cons call calls ih =>
    intro n frames s hs hn hzero hstream
    have hdata : callsData (call :: calls) = call.data ++ callsData calls := rfl
    rw [hdata] at hzero
    obtain ⟨frames₁, hs₁, hn₁, hstream₁⟩ := afterCall_losing (e := e) hs hdvd
      ⟨hn, fun b hb => hzero b (List.mem_append_left _ hb), Or.inr hstream⟩
    obtain ⟨frames', hs', hstream'⟩ :=
      ih hs₁ hn₁ (fun b hb => hzero b (List.mem_append_right _ hb)) hstream₁
    rw [foldl_sendCall_cons hs.locked, hdata, List.length_append, ← Nat.add_assoc]
    exact ⟨frames', hs', hstream'⟩

/-- Calls keep the socket sending, whatever they overwrite. -/
theorem foldl_sendCall_sending (calls : List SendCall) : ∀ {n : Nat} {frames : List SentFrame}
    {s : Send}, Sending nThreadId type sent n frames s →
    ∃ frames', Sending nThreadId type sent (n + (callsData calls).length) frames'
        (calls.foldl (sendCall e nThreadId) s) := by
  induction calls with
  | nil => exact fun hs => ⟨_, hs⟩
  | cons call calls ih =>
    intro n frames s hs
    obtain ⟨frames₁, hs₁, -⟩ := afterCall_induct (e := e) (fun _ _ _ _ => True)
      (fun _ _ _ _ _ _ _ _ => trivial) (fun _ _ _ _ _ _ _ _ => trivial)
      _ n call.data frames s le_rfl hs trivial
    obtain ⟨frames', hs'⟩ := ih hs₁
    have hdata : callsData (call :: calls) = call.data ++ callsData calls := rfl
    rw [foldl_sendCall_cons hs.locked, hdata, List.length_append, ← Nat.add_assoc]
    exact ⟨frames', hs'⟩

/-- **The end of a message sends what is in the buffer as its last frame.** -/
theorem endMessage_sent {n : Nat} {frames : List SentFrame} {s : Send}
    (hs : Sending nThreadId type sent n frames s) :
    ∃ last, (endMessage e nThreadId s).2.sent = sent ++ (frames ++ last) ∧
      (frames ++ last).flatMap SentFrame.data = stream frames s ∧
      (0 < s.nFilledFrame → Faithful type (stream frames s) (frames ++ last)) ∧
      (s.nFilledFrame = 0 → last = []) := by
  by_cases hpos : 0 < s.nFilledFrame
  · obtain ⟨f, buf, hsend, hop, hfin, hlen, hdata⟩ :=
      internalSendFrame_spec (e := e) true s hs.filled_le
    have hstream : (frames ++ [f]).flatMap SentFrame.data = stream frames s := by
      simp [stream, hdata]
    refine ⟨[f], ?_, hstream, fun _ => ?_, fun h0 => absurd h0 (by omega)⟩
    · rw [endMessage, if_neg (by simp [hs.locked]), if_pos hpos, hsend]
      simp [Send.idle, hs.sent_eq]
    · refine ⟨by simp, opcodes_append hs.opcodes (hop.trans hs.opcode), ?_, ?_, hstream⟩
      · intro i g hg
        by_cases hi : i < frames.length
        · rw [List.getElem?_append_left hi] at hg
          rw [(hs.full g (List.mem_of_getElem? hg)).final]
          simp
          omega
        · have hi' : i < (frames ++ [f]).length := by
            by_contra hge
            rw [List.getElem?_eq_none (by omega)] at hg
            cases hg
          obtain rfl : i = frames.length := by simp at hi'; omega
          rw [List.getElem?_append_right le_rfl, Nat.sub_self, List.getElem?_cons_zero,
            Option.some.injEq] at hg
          rw [← hg, hfin]
          simp
      · intro g hg
        rcases List.mem_append.mp hg with hg | hg
        · exact (hs.full g hg).length
        · rw [List.mem_singleton.mp hg]
          exact hlen
  · have h0 : s.nFilledFrame = 0 := by omega
    refine ⟨[], ?_, ?_, fun h => absurd h hpos, fun _ => rfl⟩
    · rw [endMessage, if_neg (by simp [hs.locked]), if_neg hpos]
      simp [Send.idle, hs.sent_eq]
    · simp [stream, h0]

/-- The frames a message hands to the connection. -/
def messageFrames (e : BuildEnv) (nThreadId : Nat) (type : MessageType) (calls : List SendCall)
    (cFrameBuffer : Nat → Byte) (sent : List SentFrame) : List SentFrame :=
  (sendMessage e nThreadId type calls (.idle cFrameBuffer sent)).sent.drop sent.length

/-- The payloads of a message are the stream its calls leave. -/
theorem messageFrames_data {n : Nat} {frames : List SentFrame} {calls : List SendCall}
    {buf : Nat → Byte} (hs : Sending nThreadId type sent n frames
      (calls.foldl (sendCall e nThreadId) (beginMessage nThreadId type (.idle buf sent)))) :
    (messageFrames e nThreadId type calls buf sent).flatMap SentFrame.data = stream frames
      (calls.foldl (sendCall e nThreadId) (beginMessage nThreadId type (.idle buf sent))) := by
  obtain ⟨last, hsent, hdata, -, -⟩ := endMessage_sent (e := e) hs
  rw [messageFrames, sendMessage, hsent, List.drop_left, hdata]

/-- **A message whose calls are aligned is sent faithfully**, unless it is empty. -/
theorem messageFrames_faithful (e : BuildEnv) (nThreadId : Nat) (type : MessageType)
    (buf : Nat → Byte) (sent : List SentFrame) {calls : List SendCall}
    (hpos : 0 < (callsData calls).length)
    (halign : AlignedFrom 0 (calls.map fun call => call.data.length)) :
    Faithful type (callsData calls) (messageFrames e nThreadId type calls buf sent) := by
  obtain ⟨frames, hs, hfilled, hstream⟩ := foldl_sendCall_aligned (e := e) calls
    (sending_begin nThreadId type sent buf)
    (fun h => absurd h (by omega)) halign
  obtain ⟨last, hsent, -, hfaithful, -⟩ := endMessage_sent (e := e) hs
  rw [messageFrames, sendMessage, hsent, List.drop_left]
  have hdata := hfaithful (hfilled (by omega))
  rw [hstream] at hdata
  exact hdata

/-- An empty message hands no frame to the connection. -/
theorem messageFrames_empty {calls : List SendCall} {buf : Nat → Byte}
    (hdata : callsData calls = []) : messageFrames e nThreadId type calls buf sent = [] := by
  obtain ⟨frames, hs⟩ := foldl_sendCall_sending (e := e) calls
    (sending_begin nThreadId type sent buf)
  obtain ⟨last, hsent, -, -, hlast⟩ := endMessage_sent (e := e) hs
  have htotal := hs.total
  rw [hdata, List.length_nil, Nat.zero_add] at htotal
  have hframes : frames = [] := by
    have hmul : sendPayloadSize * frames.length = 0 := by omega
    exact List.length_eq_zero_iff.mp ((Nat.mul_eq_zero.mp hmul).resolve_left (by decide))
  rw [messageFrames, sendMessage, hsent, List.drop_left, hframes, hlast (by omega)]
  rfl

/-- Calls with the given lengths that together send the data. -/
def callsOf : List Byte → List Nat → List SendCall
  | _, [] => []
  | data, len :: lens => .binary (data.take len) :: callsOf (data.drop len) lens

theorem callsOf_spec (lens : List Nat) : ∀ {data : List Byte}, data.length = lens.sum →
    ((callsOf data lens).map fun call => call.data.length) = lens ∧
      callsData (callsOf data lens) = data := by
  induction lens with
  | nil =>
    intro data h
    obtain rfl := List.length_eq_zero_iff.mp h
    exact ⟨rfl, rfl⟩
  | cons len lens ih =>
    intro data h
    rw [List.sum_cons] at h
    have hrest : (data.drop len).length = lens.sum := by rw [List.length_drop]; omega
    obtain ⟨hlens, hdata⟩ := ih hrest
    constructor
    · rw [callsOf, List.map_cons, hlens]
      simp only [SendCall.data, List.length_take]
      rw [Nat.min_eq_left (by omega)]
    · rw [callsOf, callsData, List.flatMap_cons]
      exact (congrArg (data.take len ++ ·) hdata).trans (List.take_append_drop len data)

/-- Lengths that are not aligned have a first call that starts inside a frame. -/
theorem exists_of_not_alignedFrom (lens : List Nat) : ∀ {n : Nat}, ¬ AlignedFrom n lens →
    ∃ pre len post, lens = pre ++ len :: post ∧ len ≠ 0 ∧ ¬ sendPayloadSize ∣ n + pre.sum := by
  induction lens with
  | nil => exact fun h => absurd trivial h
  | cons len lens ih =>
    intro n h
    by_cases hlen : len ≠ 0 → sendPayloadSize ∣ n
    · obtain ⟨pre, len', post, rfl, hne, hdvd⟩ := ih (n := n + len) fun hrest => h ⟨hlen, hrest⟩
      exact ⟨len :: pre, len', post, rfl, hne, by rwa [List.sum_cons, ← Nat.add_assoc]⟩
    · obtain ⟨hne, hdvd⟩ := Classical.not_imp.mp hlen
      exact ⟨[], len, lens, rfl, hne, hdvd⟩

/-- **A call that starts inside a frame loses the byte at the start of that frame**,
so that some data of these lengths are not sent faithfully. -/
theorem exists_not_faithful (e : BuildEnv) (nThreadId : Nat) (type : MessageType)
    (buf : Nat → Byte) (sent : List SentFrame) {pre post : List Nat} {len : Nat} (hlen : len ≠ 0)
    (hdvd : ¬ sendPayloadSize ∣ pre.sum) :
    ∃ calls : List SendCall, (calls.map fun call => call.data.length) = pre ++ len :: post ∧
      ¬ Faithful type (callsData calls) (messageFrames e nThreadId type calls buf sent) := by
  -- the frame that the call starts in begins at `nStart`, where the data have a one
  obtain ⟨nStart, hnStart⟩ : ∃ k, k = sendPayloadSize * (pre.sum / sendPayloadSize) := ⟨_, rfl⟩
  have hlt : nStart < pre.sum := by
    have hdiv := Nat.div_add_mod pre.sum sendPayloadSize
    have hmod : pre.sum % sendPayloadSize ≠ 0 := fun h => hdvd (Nat.dvd_of_mod_eq_zero h)
    omega
  obtain ⟨first, hfirst⟩ : ∃ l, l = List.replicate nStart (0 : Byte) ++
    1 :: List.replicate (pre.sum - nStart - 1) 0 := ⟨_, rfl⟩
  have hfirstLen : first.length = pre.sum := by
    simp [hfirst]
    omega
  obtain ⟨hlens₁, hdata₁⟩ := callsOf_spec pre hfirstLen
  have hzeros : (List.replicate post.sum (0 : Byte)).length = post.sum := List.length_replicate
  obtain ⟨hlens₂, hdata₂⟩ := callsOf_spec post hzeros
  refine ⟨callsOf first pre ++
    .binary (List.replicate len 0) :: callsOf (List.replicate post.sum 0) post, ?_, ?_⟩
  · rw [List.map_append, List.map_cons, hlens₁, hlens₂]
    simp [SendCall.data]
  intro hfaithful
  have hdata : callsData (callsOf first pre ++
      .binary (List.replicate len 0) :: callsOf (List.replicate post.sum 0) post) =
      first ++ (List.replicate len 0 ++ List.replicate post.sum 0) := by
    rw [callsData, List.flatMap_append, List.flatMap_cons]
    exact congr (congrArg _ hdata₁) (congrArg (List.replicate len 0 ++ ·) hdata₂)
  obtain ⟨frames₁, hs₁⟩ := foldl_sendCall_sending (e := e) (callsOf first pre)
    (sending_begin nThreadId type sent buf)
  rw [Nat.zero_add, hdata₁, hfirstLen] at hs₁
  have hlosing : ∀ s, Losing nStart pre.sum (List.replicate len 0) frames₁ s := fun _ =>
    ⟨hlt, fun b hb => List.eq_of_mem_replicate hb, Or.inl ⟨by simpa using hlen, hnStart⟩⟩
  obtain ⟨frames₂, hs₂, hn₂, hlost₂⟩ := afterCall_losing (e := e) hs₁
    (Nat.dvd_of_mod_eq_zero (by rw [hnStart, Nat.mul_mod_right])) (hlosing _)
  obtain ⟨frames, hs, hlost⟩ := foldl_sendCall_lost (e := e)
    (Nat.dvd_of_mod_eq_zero (by rw [hnStart, Nat.mul_mod_right]))
    (callsOf (List.replicate post.sum 0) post) hs₂ hn₂
    (by rw [hdata₂]; exact fun b hb => List.eq_of_mem_replicate hb) hlost₂
  have hfold := @List.foldl_append _ _ (sendCall e nThreadId)
    (beginMessage nThreadId type (.idle buf sent)) (callsOf first pre)
    (.binary (List.replicate len 0) :: callsOf (List.replicate post.sum 0) post)
  rw [foldl_sendCall_cons hs₁.locked] at hfold
  simp only [SendCall.data] at hfold
  have hsent := messageFrames_data (e := e) (by rw [hfold]; exact hs)
  rw [hfaithful.data_eq, hfold] at hsent
  rw [← hsent, hdata, hfirst] at hlost
  simp at hlost

/-- **Whatever the data, a message is sent faithfully exactly when it is not empty
and each call that sends something starts a frame.** -/
theorem sendMessage_faithful_iff (e : BuildEnv) (nThreadId : Nat) (type : MessageType)
    (buf : Nat → Byte) (sent : List SentFrame) (lens : List Nat) :
    (∀ calls : List SendCall, (calls.map fun call => call.data.length) = lens →
      Faithful type (callsData calls) (messageFrames e nThreadId type calls buf sent)) ↔
    0 < lens.sum ∧ AlignedFrom 0 lens := by
  have hsum : ∀ calls : List SendCall, (calls.map fun call => call.data.length) = lens →
      (callsData calls).length = lens.sum := by
    rintro calls rfl
    exact List.length_flatMap
  constructor
  · intro h
    refine ⟨?_, ?_⟩
    · by_contra hzero
      have hnil : ([] : List Byte).length = lens.sum := by rw [List.length_nil]; omega
      obtain ⟨hlens, hdata⟩ := callsOf_spec lens hnil
      exact (h _ hlens).ne_nil (messageFrames_empty hdata)
    · by_contra halign
      obtain ⟨pre, len, post, rfl, hlen, hdvd⟩ := exists_of_not_alignedFrom lens halign
      rw [Nat.zero_add] at hdvd
      obtain ⟨calls, hcalls, hnot⟩ := exists_not_faithful e nThreadId type buf sent hlen hdvd
      exact hnot (h calls hcalls)
  · rintro ⟨hpos, halign⟩ calls hcalls
    exact messageFrames_faithful e nThreadId type buf sent (by rw [hsum calls hcalls]; exact hpos)
      (by rw [hcalls]; exact halign)

end Proofs

/-- Two calls of one byte each are not sent faithfully: the second byte replaces
the first one. -/
theorem sendMessage_twoCalls_unfaithful :
    ¬ Faithful .binary (callsData [.binary [0x61], .binary [0x62]])
      (messageFrames ⟨true, 0, fun _ => 0⟩ 1 .binary [.binary [0x61], .binary [0x62]]
        (fun _ => 0) []) := by
  intro h
  exact absurd h.data_eq (by decide)

end MxLib.Http.WebSockets
