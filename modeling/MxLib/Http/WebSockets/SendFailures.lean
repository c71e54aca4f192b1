import MxLib.Http.WebSockets.Send

/-!
# Sending to a connection that may fail

The calls of `Send`, to a connection whose `SendMsg` may fail, and from any number of
threads: the mutex lets one of them in, the others wait in `BeginTextMessage` and are
refused by the other calls.

A call that fails does not reset the frame that it leaves.  `SendBinaryMessage` of null
data and `EndMessage` unlock, so the next message finds the bytes of this one in its first
frame; `SendBinaryMessage` does not even unlock when the connection fails.  Runs that stay
clear of this are sent faithfully (`exec_faithful`).
-/

namespace MxLib.Http.WebSockets

open MxLib.Library

/-- What a socket is connected to: `SendMsg` returns `sendMsg k` when it is called for
the `k`-th time. -/
structure SendEnv extends BuildEnv where
  sendMsg : Nat → HResult

/-- `sSend`, and how often `SendMsg` has been called. -/
structure Socket where
  sSend : Send
  nMsgs : Nat

/-- One call of a thread. -/
inductive MessageCall
  /-- `BeginTextMessage` or `BeginBinaryMessage` -/
  | begin (type : MessageType)
  /-- `SendBinaryMessage`; a null `lpData` with a length is `none` -/
  | send (lpData : Option (List Byte))
  /-- `EndMessage` -/
  | finish

namespace Socket

section Model

variable (e : SendEnv)

/-- `InternalSendFrame`.  When the payload is not taken, the header is with the
connection nevertheless. -/
def internalSendFrame (bFinalFrame : Bool) (k : Socket) : HResult × Socket :=
  let (h, payload) := buildFrame e.toBuildEnv k.nMsgs
    (readBytes k.sSend.cFrameBuffer k.sSend.nFilledFrame) k.sSend.nOpcode bFinalFrame
  let s := { k.sSend with cFrameBuffer := memCopy k.sSend.cFrameBuffer 0 payload }
  if (e.sendMsg k.nMsgs).failed then (e.sendMsg k.nMsgs, ⟨s, k.nMsgs + 1⟩)
  else if (e.sendMsg (k.nMsgs + 1)).failed then
    (e.sendMsg (k.nMsgs + 1), ⟨{ s with sent := s.sent ++ [⟨h, []⟩] }, k.nMsgs + 2⟩)
  else (e.sendMsg (k.nMsgs + 1), ⟨{ s with sent := s.sent ++ [⟨h, payload⟩] }, k.nMsgs + 2⟩)

/-- A full frame is sent and a new one prepared. -/
def flushFrame (k : Socket) : HResult × Socket :=
  if k.sSend.nFilledFrame ≥ sendPayloadSize then
    match internalSendFrame e false k with
    | (hRes, k) =>
      if hRes.failed then (hRes, k)
      else
        (.sOk, ⟨{ k.sSend with
          nOpcode := opcodeContinuation, lpFrameData := none, nFilledFrame := 0 }, k.nMsgs⟩)
  else (.sOk, k)

/-- One turn of the loop of `SendBinaryMessage`. -/
def sendTurn : Socket × List Byte → (Socket × List Byte) ⊕ (HResult × Socket)
  | (k, []) => .inr (.sOk, k)
  | (k, b :: rest) =>
    match flushFrame e k with
    | (hRes, k) =>
      if hRes.failed then .inr (hRes, k)
      else .inl (⟨(copyToFrame k.sSend (b :: rest)).1, k.nMsgs⟩, (copyToFrame k.sSend (b :: rest)).2)

/-- The loop of `SendBinaryMessage` -/
def sendLoop (k : Socket) (lpData : List Byte) : HResult × Socket :=
  Loop.exec (sendTurn e) (fun c => c.2.length) (.sOk, k) (k, lpData)

/-- `SendBinaryMessage`; a null `lpData` with a length is `none`. -/
def sendBinaryMessage (nThreadId : Nat) (k : Socket) (lpData : Option (List Byte)) :
    HResult × Socket :=
  if k.sSend.nSendInProgressMutex ≠ nThreadId then (.mxNotReady, k)
  else
    match lpData with
    | none => (.ePointer, { k with sSend := { k.sSend with nSendInProgressMutex := 0 } })
    | some lpData => sendLoop e k lpData

/-- `EndMessage` -/
def endMessage (nThreadId : Nat) (k : Socket) : HResult × Socket :=
  if k.sSend.nSendInProgressMutex ≠ nThreadId then (.mxNotReady, k)
  else
    match if k.sSend.nFilledFrame > 0 then internalSendFrame e true k else (.sOk, k) with
    | (hRes, k) =>
      if hRes.failed then (hRes, { k with sSend := { k.sSend with nSendInProgressMutex := 0 } })
      else (.sOk, ⟨Send.idle k.sSend.cFrameBuffer k.sSend.sent, k.nMsgs⟩)

/-- A call of a thread; the first one locks. -/
def call (nThreadId : Nat) (k : Socket) : MessageCall → HResult × Socket
  | .begin type => (.sOk, { k with sSend := beginMessage nThreadId type k.sSend })
  | .send lpData => sendBinaryMessage e nThreadId k lpData
  | .finish => endMessage e nThreadId k

/-- The socket behind calls of threads. -/
def exec (k : Socket) (calls : List (Nat × MessageCall)) : Socket :=
  calls.foldl (fun k c => (call e c.1 k c.2).2) k

/-- Something about every call of a run and the socket it finds. -/
def Along (P : Socket → Nat × MessageCall → Prop) (k : Socket) : List (Nat × MessageCall) → Prop
  | [] => True
  | c :: calls => P k c ∧ Along P (call e c.1 k c.2).2 calls

end Model

section Proofs

variable {e : SendEnv} {nThreadId : Nat} {type : MessageType} {sent : List SentFrame}

/-- The clock of one frame. -/
def frameEnv (e : SendEnv) (k : Socket) : BuildEnv :=
  { e.toBuildEnv with getTickCount := fun _ => e.getTickCount k.nMsgs }

/-- **A connection that takes a frame** is the one of `Send`. -/
theorem internalSendFrame_ok (bFinalFrame : Bool) {k : Socket} (h : (e.sendMsg k.nMsgs).failed = false)
    (h' : (e.sendMsg (k.nMsgs + 1)).failed = false) :
    internalSendFrame e bFinalFrame k = (e.sendMsg (k.nMsgs + 1),
      ⟨WebSockets.internalSendFrame (frameEnv e k) bFinalFrame k.sSend, k.nMsgs + 2⟩) := by
  rw [internalSendFrame]
  simp only [h, h', Bool.false_eq_true, if_false]
  rfl

/-- A frame that fails changes the bytes of the buffer and what the connection has. -/
theorem internalSendFrame_frame (e : SendEnv) (bFinalFrame : Bool) (k : Socket) :
    ∃ buf sent nMsgs, (internalSendFrame e bFinalFrame k).2 =
      ⟨{ k.sSend with cFrameBuffer := buf, sent := sent }, nMsgs⟩ := by
  rw [internalSendFrame]
  dsimp only
  split
  · exact ⟨_, _, _, rfl⟩
  · split <;> exact ⟨_, _, _, rfl⟩

theorem internalSendFrame_failed (bFinalFrame : Bool) {k : Socket}
    (h : (internalSendFrame e bFinalFrame k).1.failed = false) :
    (e.sendMsg k.nMsgs).failed = false ∧ (e.sendMsg (k.nMsgs + 1)).failed = false := by
  rw [internalSendFrame] at h
  dsimp only at h
  split at h
  next hfailed => exact absurd hfailed (by simpa using h)
  next hfailed =>
    split at h
    next hfailed' => exact absurd hfailed' (by simpa using h)
    next hfailed' => exact ⟨by simpa using hfailed, by simpa using hfailed'⟩

theorem flushFrame_ok {k : Socket} (h : k.sSend.nFilledFrame ≥ sendPayloadSize →
      (e.sendMsg k.nMsgs).failed = false ∧ (e.sendMsg (k.nMsgs + 1)).failed = false) :
    flushFrame e k = (.sOk, ⟨WebSockets.flushFrame (frameEnv e k) k.sSend,
      if k.sSend.nFilledFrame ≥ sendPayloadSize then k.nMsgs + 2 else k.nMsgs⟩) := by
  rw [flushFrame, WebSockets.flushFrame]
  by_cases hfull : k.sSend.nFilledFrame ≥ sendPayloadSize
  · obtain ⟨hh, hp⟩ := h hfull
    rw [if_pos hfull, internalSendFrame_ok false hh hp, if_pos hfull, if_pos hfull]
    simp only [hp, Bool.false_eq_true, if_false]
  · rw [if_neg hfull, if_neg hfull, if_neg hfull]

theorem flushFrame_filled_lt {k : Socket} (h : (flushFrame e k).1.failed = false) :
    (flushFrame e k).2.sSend.nFilledFrame < sendPayloadSize := by
  rw [flushFrame] at h ⊢
  split
  next hfull =>
    rw [if_pos hfull] at h
    cases hsend : internalSendFrame e false k with
    | mk hRes k' =>
      rw [hsend] at h
      dsimp only at h ⊢
      split
      next hfailed =>
        rw [if_pos hfailed] at h
        exact absurd hfailed (by simpa using h)
      next => exact Nat.succ_pos _
  next hfull => exact Nat.lt_of_not_le hfull

/-- **Every turn sends something.** -/
theorem sendTurn_measure (c c' : Socket × List Byte) (h : sendTurn e c = .inl c') :
    c'.2.length < c.2.length := by
  obtain ⟨k, lpData⟩ := c
  cases lpData with
  | nil => cases h
  | cons b rest =>
    have hlt := flushFrame_filled_lt (e := e) (k := k)
    rw [sendTurn] at h
    cases hf : flushFrame e k with
    | mk hRes k' =>
      rw [hf] at h hlt
      dsimp only at h hlt
      split at h
      · cases h
      next hfailed =>
        obtain rfl := Sum.inl.inj h
        have hlt' := hlt (by simpa using hfailed)
        simp only [copyToFrame, List.length_drop, List.length_cons]
        omega

theorem sendLoop_nil (k : Socket) : sendLoop e k [] = (.sOk, k) := Loop.exec_inr _ rfl

theorem sendLoop_cons {k k' : Socket} (h : flushFrame e k = (.sOk, k')) (b : Byte) (rest : List Byte) :
    sendLoop e k (b :: rest) = sendLoop e ⟨(copyToFrame k'.sSend (b :: rest)).1, k'.nMsgs⟩
      (copyToFrame k'.sSend (b :: rest)).2 := by
  have hturn : sendTurn e (k, b :: rest) =
      .inl (⟨(copyToFrame k'.sSend (b :: rest)).1, k'.nMsgs⟩, (copyToFrame k'.sSend (b :: rest)).2) := by
    rw [sendTurn, h]
    rfl
  rw [sendLoop, Loop.exec_inl sendTurn_measure _ hturn]
  exact Loop.exec_dflt sendTurn_measure _ _ _

theorem flushFrame_locked (e : SendEnv) (k : Socket) :
    (flushFrame e k).2.sSend.nSendInProgressMutex = k.sSend.nSendInProgressMutex := by
  rw [flushFrame]
  split
  · obtain ⟨buf, sent, nMsgs, hframe⟩ := internalSendFrame_frame e false k
    dsimp only
    rw [hframe]
    split <;> rfl
  · rfl

/-- **`SendBinaryMessage` keeps the lock**, also when the connection fails. -/
theorem sendLoop_locked (e : SendEnv) (k : Socket) (lpData : List Byte) :
    (sendLoop e k lpData).2.sSend.nSendInProgressMutex = k.sSend.nSendInProgressMutex := by
  obtain ⟨c, hreach, hleave⟩ := Loop.exists_reach_exec (sendTurn_measure (e := e)) (.sOk, k) (k, lpData)
  have hc : c.1.sSend.nSendInProgressMutex = k.sSend.nSendInProgressMutex := by
    refine Loop.reach_induct (fun c => c.1.sSend.nSendInProgressMutex = k.sSend.nSendInProgressMutex)
      (fun c c' hc hturn => ?_) rfl hreach
    obtain ⟨k₁, data⟩ := c
    cases data with
    | nil => cases hturn
    | cons b rest =>
      rw [sendTurn] at hturn
      dsimp only at hturn
      split at hturn
      · cases hturn
      · rw [← Sum.inl.inj hturn]
        exact (flushFrame_locked e k₁).trans hc
  change (sendLoop e k lpData).2.sSend.nSendInProgressMutex = _
  rw [← hc]
  obtain ⟨k₁, data⟩ := c
  cases data with
  | nil => exact congrArg (fun r => r.2.sSend.nSendInProgressMutex) (Sum.inr.inj hleave).symm
  | cons b rest =>
    rw [sendTurn] at hleave
    dsimp only at hleave
    split at hleave
    · rw [sendLoop, ← Sum.inr.inj hleave]
      exact flushFrame_locked e k₁
    · cases hleave

/-- The connection takes the frames that some data fill. -/
def Takes (e : SendEnv) (k : Socket) (lpData : List Byte) : Prop :=
  ∀ i, i < 2 * ((k.sSend.nFilledFrame + lpData.length - 1) / sendPayloadSize) →
    (e.sendMsg (k.nMsgs + i)).failed = false

theorem flushFrame_filled (e : BuildEnv) (s : Send) : (WebSockets.flushFrame e s).nFilledFrame =
    if s.nFilledFrame ≥ sendPayloadSize then 0 else s.nFilledFrame := by
  rw [WebSockets.flushFrame]
  split <;> rfl

/-- The data behind a turn fill the frames that are left. -/
theorem takes_rest {k : Socket} {s : Send} {len w : Nat} {rest : List Byte}
    (hle : k.sSend.nFilledFrame ≤ sendPayloadSize)
    (h : ∀ i, i < 2 * ((k.sSend.nFilledFrame + len - 1) / sendPayloadSize) →
      (e.sendMsg (k.nMsgs + i)).failed = false)
    (hpos : 0 < len) (hrest : rest.length = len - w)
    (hfilled : s.nFilledFrame = (WebSockets.flushFrame (frameEnv e k) k.sSend).nFilledFrame + w)
    (hw : w = min (sendPayloadSize - (WebSockets.flushFrame (frameEnv e k) k.sSend).nFilledFrame) len) :
    Takes e ⟨s, if k.sSend.nFilledFrame ≥ sendPayloadSize then k.nMsgs + 2 else k.nMsgs⟩ rest := by
  intro i hi
  rw [flushFrame_filled] at hfilled hw
  dsimp only at hi ⊢
  by_cases hfull : k.sSend.nFilledFrame ≥ sendPayloadSize
  · have hdiv : (k.sSend.nFilledFrame + len - 1) / sendPayloadSize = (len - 1) / sendPayloadSize + 1 := by
      rw [Nat.le_antisymm hle hfull, Nat.add_sub_assoc hpos, Nat.add_div_left _ (by decide)]
    rw [if_pos hfull] at hfilled hw ⊢
    have htotal : s.nFilledFrame + rest.length - 1 = len - 1 := by omega
    rw [htotal] at hi
    rw [Nat.add_right_comm, Nat.add_assoc]
    exact h (i + 2) (by omega)
  · rw [if_neg hfull] at hfilled hw ⊢
    have htotal : s.nFilledFrame + rest.length - 1 = k.sSend.nFilledFrame + len - 1 := by omega
    rw [htotal] at hi
    exact h i hi

/-- **Data that start a frame are added to the stream** while the connection takes the
frames that they fill. -/
theorem sendLoop_spec (m : Nat) : ∀ {n : Nat} {frames : List SentFrame} {k : Socket} {lpData : List Byte},
    lpData.length ≤ m → Sending nThreadId type sent n frames k.sSend →
    (lpData ≠ [] → sendPayloadSize ∣ n) → (lpData ≠ [] → Takes e k lpData) →
    ∃ frames', (sendLoop e k lpData).1 = .sOk ∧
      Sending nThreadId type sent (n + lpData.length) frames' (sendLoop e k lpData).2.sSend ∧
      stream frames' (sendLoop e k lpData).2.sSend = stream frames k.sSend ++ lpData := by
  induction m with
  | zero =>
    intro n frames k lpData hm hs _ _
    obtain rfl := List.length_eq_zero_iff.mp (Nat.le_zero.mp hm)
    rw [sendLoop_nil]
    exact ⟨frames, rfl, hs, (List.append_nil _).symm⟩
  | succ m ih =>
    intro n frames k lpData hm hs hdvd htakes
    cases lpData with
    | nil =>
      rw [sendLoop_nil]
      exact ⟨frames, rfl, hs, (List.append_nil _).symm⟩
    | cons b rest =>
      have hne := List.cons_ne_nil b rest
      have hcount := htakes hne
      have hpos : 0 < (b :: rest).length := Nat.succ_pos _
      obtain ⟨len, hlen⟩ : ∃ len, len = (b :: rest).length := ⟨_, rfl⟩
      rw [Takes, ← hlen] at hcount
      have hflush := flushFrame_ok (e := e) (k := k) fun hfull => by
        have hdiv : 1 ≤ (k.sSend.nFilledFrame + len - 1) / sendPayloadSize :=
          (Nat.one_le_div_iff (by decide)).mpr (by omega)
        exact ⟨hcount 0 (by omega), hcount 1 (by omega)⟩
      obtain ⟨frames₁, hs₁, hstream₁⟩ := flushFrame_spec (e := frameEnv e k) hs
      have hlt := WebSockets.flushFrame_filled_lt (e := frameEnv e k) k.sSend
      have htrack : OnTrack (stream frames k.sSend ++ b :: rest) n (b :: rest) frames₁
          (WebSockets.flushFrame (frameEnv e k) k.sSend) := ⟨fun _ => hdvd hne, by rw [hstream₁]⟩
      have hon := onTrack_copyToFrame hs₁ hlt htrack
      obtain ⟨hdrop, hs₂, hfilled, -⟩ := copyToFrame_spec hs₁ (b :: rest)
      rw [sendLoop_cons hflush]
      obtain ⟨w, hw⟩ : ∃ w, w = turnLength (WebSockets.flushFrame (frameEnv e k) k.sSend) (b :: rest) :=
        ⟨_, rfl⟩
      have hwdef := hw
      rw [turnLength, ← hlen] at hwdef
      rw [← hw] at hon hs₂ hfilled hdrop
      have hrest : ((b :: rest).drop w).length = len - w := by rw [List.length_drop, hlen]
      rw [hdrop]
      obtain ⟨frames', hok, hs', hstream'⟩ := @ih (n + w) frames₁
        ⟨(copyToFrame (WebSockets.flushFrame (frameEnv e k) k.sSend) (b :: rest)).1,
          if k.sSend.nFilledFrame ≥ sendPayloadSize then k.nMsgs + 2 else k.nMsgs⟩ ((b :: rest).drop w)
        (by omega) hs₂ hon.1 (fun _ => takes_rest hs.filled_le hcount (by omega) hrest hfilled hwdef)
      refine ⟨frames', hok, ?_, hstream'.trans hon.2⟩
      rw [hrest, show n + w + (len - w) = n + len by omega, hlen] at hs'
      exact hs'

/-! ### Runs -/

/-- A call that a thread can make: it waits for the lock to begin a message. -/
def Possible (k : Socket) (c : Nat × MessageCall) : Prop :=
  c.1 ≠ 0 ∧
    match c.2 with
    | .begin _ => k.sSend.nSendInProgressMutex = 0
    | .send _ | .finish => True

/-- A call that does not meet what an earlier one has left: a message is begun with an
empty frame; data are sent from the start of a frame on, to a connection that takes the
frames they fill; a message is ended with something in its frame. -/
def Clean (e : SendEnv) (k : Socket) (c : Nat × MessageCall) : Prop :=
  match c.2 with
  | .begin _ => k.sSend.nFilledFrame = 0
  | .send none => True
  | .send (some lpData) => k.sSend.nSendInProgressMutex = c.1 → lpData ≠ [] →
      (k.sSend.nFilledFrame = 0 ∨ k.sSend.nFilledFrame = sendPayloadSize) ∧ Takes e k lpData
  | .finish => k.sSend.nSendInProgressMutex = c.1 → 0 < k.sSend.nFilledFrame

instance (k : Socket) : (c : Nat × MessageCall) → Decidable (Possible k c)
  | (_, .begin _) => inferInstanceAs (Decidable (_ ∧ _))
  | (_, .send _) => inferInstanceAs (Decidable (_ ∧ True))
  | (_, .finish) => inferInstanceAs (Decidable (_ ∧ True))

instance (e : SendEnv) (k : Socket) (lpData : List Byte) : Decidable (Takes e k lpData) :=
  inferInstanceAs (Decidable (∀ i, i < _ → _))

instance (e : SendEnv) (k : Socket) : (c : Nat × MessageCall) → Decidable (Clean e k c)
  | (_, .begin _) => inferInstanceAs (Decidable (_ = _))
  | (_, .send none) => .isTrue trivial
  | (_, .send (some _)) => inferInstanceAs (Decidable (_ = _ → _ ≠ _ → _ ∧ Takes _ _ _))
  | (_, .finish) => inferInstanceAs (Decidable (_ = _ → _ < _))

instance {P : Socket → Nat × MessageCall → Prop} [∀ k c, Decidable (P k c)] :
    (k : Socket) → (calls : List (Nat × MessageCall)) → Decidable (Along e P k calls)
  | _, [] => .isTrue trivial
  | k, c :: calls =>
    have : Decidable (Along e P (call e c.1 k c.2).2 calls) := instDecidableAlong _ calls
    inferInstanceAs (Decidable (_ ∧ _))

/-- The calls of a thread while it sends a message: data, and nothing fails. -/
def Sends (e : SendEnv) (nThreadId : Nat) (k : Socket) (c : Nat × MessageCall) : Prop :=
  c.1 = nThreadId → (∃ lpData, c.2 = .send lpData) ∧ (call e c.1 k c.2).1.failed = false

/-- The data that a thread sends. -/
def dataOf (nThreadId : Nat) (calls : List (Nat × MessageCall)) : List Byte :=
  calls.flatMap fun c =>
    match c.2 with
    | .send (some lpData) => if c.1 = nThreadId then lpData else []
    | _ => []

/-- What holds of the socket between the calls of a clean run. -/
structure Steady (k : Socket) : Prop where
  offset : k.sSend.lpFrameData.getD 0 = 0
  filled_le : k.sSend.nFilledFrame ≤ sendPayloadSize
  sending : k.sSend.nSendInProgressMutex ≠ 0 → ∃ type sent n frames,
    Sending k.sSend.nSendInProgressMutex type sent n frames k.sSend

theorem steady_of_sending {n : Nat} {frames : List SentFrame} {k : Socket}
    (h : Sending nThreadId type sent n frames k.sSend) : Steady k :=
  ⟨h.offset, h.filled_le, fun _ => h.locked ▸ ⟨type, sent, n, frames, h⟩⟩

theorem dvd_of_clean {n : Nat} {frames : List SentFrame} {k : Socket} {lpData : List Byte}
    (hs : Sending nThreadId type sent n frames k.sSend) (h : Clean e k (nThreadId, .send (some lpData)))
    (hne : lpData ≠ []) : sendPayloadSize ∣ n := by
  rw [hs.total, Nat.dvd_add_right (Nat.dvd_mul_right _ _)]
  rcases (h hs.locked hne).1 with h0 | hfull
  · rw [h0]
    exact Nat.dvd_zero _
  · rw [hfull]

/-- **A clean send** adds its data to the message. -/
theorem call_send {n : Nat} {frames : List SentFrame} {k : Socket} {lpData : List Byte}
    (hs : Sending nThreadId type sent n frames k.sSend)
    (h : Clean e k (nThreadId, .send (some lpData))) :
    ∃ frames', (call e nThreadId k (.send (some lpData))).1 = .sOk ∧
      Sending nThreadId type sent (n + lpData.length) frames'
        (call e nThreadId k (.send (some lpData))).2.sSend ∧
      stream frames' (call e nThreadId k (.send (some lpData))).2.sSend =
        stream frames k.sSend ++ lpData := by
  have hcall : call e nThreadId k (.send (some lpData)) = sendLoop e k lpData := by
    rw [call, sendBinaryMessage, if_neg (by simp [hs.locked])]
  rw [hcall]
  exact sendLoop_spec _ le_rfl hs (dvd_of_clean hs h) fun hne => (h hs.locked hne).2

theorem call_begin {k : Socket} (h : Steady k) (hfilled : k.sSend.nFilledFrame = 0)
    (nThreadId : Nat) (type : MessageType) :
    Sending nThreadId type k.sSend.sent 0 [] (call e nThreadId k (.begin type)).2.sSend where
  locked := rfl
  sent_eq := (List.append_nil _).symm
  full := by simp
  opcodes := by simp
  opcode := rfl
  offset := h.offset
  filled_le := h.filled_le
  total := by
    change 0 = sendPayloadSize * 0 + k.sSend.nFilledFrame
    rw [hfilled]
    rfl

/-- Calls of a thread that does not hold the lock change nothing. -/
theorem call_of_ne {k : Socket} {c : Nat × MessageCall} (hpossible : Possible k c)
    (hlocked : k.sSend.nSendInProgressMutex ≠ 0) (hne : k.sSend.nSendInProgressMutex ≠ c.1) :
    (call e c.1 k c.2).2 = k := by
  obtain ⟨t, c⟩ := c
  cases c with
  | begin type => exact absurd hpossible.2 hlocked
  | send lpData =>
    change (sendBinaryMessage e t k lpData).2 = k
    rw [sendBinaryMessage.eq_def, if_pos hne]
  | finish => rw [call, endMessage, if_pos hne]

/-- **The end of a message** whose frame is not empty. -/
theorem call_finish {k : Socket} (hlocked : k.sSend.nSendInProgressMutex = nThreadId)
    (hpos : 0 < k.sSend.nFilledFrame) :
    ((call e nThreadId k .finish).1.failed = true ∧ ∃ buf sent nMsgs,
      (call e nThreadId k .finish).2 = ⟨{ k.sSend with
        nSendInProgressMutex := 0, cFrameBuffer := buf, sent := sent }, nMsgs⟩) ∨
    call e nThreadId k .finish =
      (.sOk, ⟨(WebSockets.endMessage (frameEnv e k) nThreadId k.sSend).2, k.nMsgs + 2⟩) := by
  rw [call, endMessage, if_neg (by simp [hlocked]), if_pos hpos]
  cases hfailed : (internalSendFrame e true k).1.failed with
  | true =>
    obtain ⟨buf, sent, nMsgs, hframe⟩ := internalSendFrame_frame e true k
    refine .inl ?_
    dsimp only
    rw [if_pos hfailed]
    exact ⟨hfailed, buf, sent, nMsgs, by rw [hframe]⟩
  | false =>
    obtain ⟨hh, hp⟩ := internalSendFrame_failed true hfailed
    refine .inr ?_
    dsimp only
    rw [if_neg (by simp [hfailed]), internalSendFrame_ok true hh hp, WebSockets.endMessage,
      if_neg (by simp [hlocked]), if_pos hpos]

/-- **A clean call** leaves the socket steady, and does not keep the lock when it fails. -/
theorem steady_call {k : Socket} (h : Steady k) {c : Nat × MessageCall} (hpossible : Possible k c)
    (hclean : Clean e k c) :
    Steady (call e c.1 k c.2).2 ∧ ((call e c.1 k c.2).1.failed = true →
      (call e c.1 k c.2).2.sSend.nSendInProgressMutex ≠ c.1) := by
  obtain ⟨t, c⟩ := c
  have hzero : 0 ≠ t := fun hz => hpossible.1 hz.symm
  cases c with
  | begin type =>
    exact ⟨steady_of_sending (call_begin h hclean t type), fun hfailed => by cases hfailed⟩
  | send lpData =>
    by_cases hlocked : k.sSend.nSendInProgressMutex = t
    · cases lpData with
      | none =>
        have hcall : call e t k (.send none) =
            (.ePointer, { k with sSend := { k.sSend with nSendInProgressMutex := 0 } }) := by
          rw [call, sendBinaryMessage, if_neg (by simp [hlocked])]
        dsimp only
        rw [hcall]
        exact ⟨⟨h.offset, h.filled_le, fun hne => absurd rfl hne⟩, fun _ => hzero⟩
      | some lpData =>
        obtain ⟨type, sent, n, frames, hs⟩ := h.sending (hlocked ▸ hzero.symm)
        rw [hlocked] at hs
        obtain ⟨frames', hok, hs', -⟩ := call_send hs hclean
        refine ⟨steady_of_sending hs', fun hfailed => ?_⟩
        rw [hok] at hfailed
        cases hfailed
    · have hcall : call e t k (.send lpData) = (.mxNotReady, k) := by
        change sendBinaryMessage e t k lpData = _
        rw [sendBinaryMessage.eq_def, if_pos hlocked]
      dsimp only
      rw [hcall]
      exact ⟨h, fun _ => hlocked⟩
  | finish =>
    by_cases hlocked : k.sSend.nSendInProgressMutex = t
    · rcases call_finish (e := e) hlocked (hclean hlocked) with ⟨-, buf, sent, nMsgs, hcall⟩ | hcall
      · dsimp only
        rw [hcall]
        exact ⟨⟨h.offset, h.filled_le, fun hne => absurd rfl hne⟩, fun _ => hzero⟩
      · dsimp only
        rw [hcall, WebSockets.endMessage, if_neg (by simp [hlocked])]
        exact ⟨⟨rfl, Nat.zero_le _, fun hne => absurd rfl hne⟩, fun hfailed => by cases hfailed⟩
    · have hcall : call e t k .finish = (.mxNotReady, k) := by rw [call, endMessage, if_pos hlocked]
      dsimp only
      rw [hcall]
      exact ⟨h, fun _ => hlocked⟩

theorem along_append {P : Socket → Nat × MessageCall → Prop} {pre post : List (Nat × MessageCall)} :
    ∀ {k : Socket}, Along e P k (pre ++ post) ↔ Along e P k pre ∧ Along e P (exec e k pre) post := by
  induction pre with
  | nil => exact fun {k} => ⟨fun h => ⟨trivial, h⟩, fun h => h.2⟩
  | cons c pre ih =>
    intro k
    rw [List.cons_append, Along, Along, ih, and_assoc]
    rfl

theorem exec_append (k : Socket) (pre post : List (Nat × MessageCall)) :
    exec e k (pre ++ post) = exec e (exec e k pre) post := List.foldl_append

/-- **Every state of a clean run is steady.** -/
theorem steady_exec {calls : List (Nat × MessageCall)} : ∀ {k : Socket}, Steady k →
    Along e Possible k calls → Along e (Clean e) k calls → Steady (exec e k calls) := by
  induction calls with
  | nil => exact fun h _ _ => h
  | cons c calls ih => exact fun h hp hc => ih (steady_call h hp.1 hc.1).1 hp.2 hc.2

/-- **The calls between the beginning and the end of a message** add their data to it,
whatever the other threads try. -/
theorem exec_sends {body : List (Nat × MessageCall)} : ∀ {n : Nat} {frames : List SentFrame} {k : Socket},
    nThreadId ≠ 0 → Sending nThreadId type sent n frames k.sSend → Along e Possible k body →
    Along e (Clean e) k body → Along e (Sends e nThreadId) k body →
    ∃ n' frames', Sending nThreadId type sent n' frames' (exec e k body).sSend ∧
      stream frames' (exec e k body).sSend = stream frames k.sSend ++ dataOf nThreadId body := by
  induction body with
  | nil => exact fun _ hs _ _ _ => ⟨_, _, hs, (List.append_nil _).symm⟩
  | cons c body ih =>
    intro n frames k hne hs hpossible hclean hsends
    obtain ⟨t, c⟩ := c
    by_cases ht : t = nThreadId
    · subst ht
      obtain ⟨⟨lpData, rfl⟩, hok⟩ := hsends.1 rfl
      cases lpData with
      | none =>
        have hcall : (call e t k (.send none)).1 = .ePointer := by
          rw [call, sendBinaryMessage, if_neg (by simp [hs.locked])]
        rw [hcall] at hok
        cases hok
      | some lpData =>
        obtain ⟨frames₁, -, hs₁, hstream₁⟩ := call_send hs hclean.1
        obtain ⟨n', frames', hs', hstream'⟩ := ih hne hs₁ hpossible.2 hclean.2 hsends.2
        refine ⟨n', frames', hs', ?_⟩
        have hdata : dataOf t ((t, .send (some lpData)) :: body) = lpData ++ dataOf t body := by
          rw [dataOf, List.flatMap_cons]
          dsimp only
          rw [if_pos rfl]
          rfl
        rw [hdata, ← List.append_assoc, ← hstream₁]
        exact hstream'
    · have hcall : (call e t k c).2 = k := call_of_ne (c := (t, c)) hpossible.1
        (hs.locked ▸ hne) (hs.locked ▸ fun h => ht h.symm)
      have hdata : dataOf nThreadId ((t, c) :: body) = dataOf nThreadId body := by
        rw [dataOf, List.flatMap_cons]
        dsimp only
        split
        · rw [if_neg ht]
          rfl
        · rfl
      have htail := @ih n frames k hne hs (hcall ▸ hpossible.2) (hcall ▸ hclean.2) (hcall ▸ hsends.2)
      rw [hdata]
      have hexec : exec e k ((t, c) :: body) = exec e k body := by
        change exec e (call e t k c).2 body = _
        rw [hcall]
      rw [hexec]
      exact htail

/-- **A message** of a clean run, from its beginning to its end. -/
theorem message_faithful {k kBody : Socket} (h : Steady k) {body : List (Nat × MessageCall)}
    (hbody : kBody = exec e (call e nThreadId k (.begin type)).2 body)
    (hpossible : Along e Possible k ((nThreadId, .begin type) :: body))
    (hclean : Along e (Clean e) k ((nThreadId, .begin type) :: body))
    (hsends : Along e (Sends e nThreadId) (call e nThreadId k (.begin type)).2 body)
    (hfinish : Clean e kBody (nThreadId, .finish))
    (hok : (call e nThreadId kBody .finish).1.failed = false) :
    Faithful type (dataOf nThreadId body)
      ((call e nThreadId kBody .finish).2.sSend.sent.drop k.sSend.sent.length) := by
  have hs := call_begin (e := e) h hclean.1 nThreadId type
  obtain ⟨n, frames, hs', hstream⟩ := exec_sends hpossible.1.1 hs hpossible.2 hclean.2 hsends
  rw [← hbody] at hs' hstream
  have hpos : 0 < kBody.sSend.nFilledFrame := hfinish hs'.locked
  have hempty : stream [] (call e nThreadId k (.begin type)).2.sSend = [] := by
    have hfilled : (call e nThreadId k (.begin type)).2.sSend.nFilledFrame = 0 := hclean.1
    rw [stream, hfilled, readBytes_zero]
    rfl
  rw [hempty, List.nil_append] at hstream
  rcases call_finish hs'.locked hpos with ⟨hfailed, -⟩ | hcall
  · rw [hfailed] at hok
    cases hok
  · obtain ⟨last, hsent, -, hfaithful, -⟩ := endMessage_sent (e := frameEnv e kBody) hs'
    rw [hcall]
    dsimp only
    rw [hsent, List.drop_left, ← hstream]
    exact hfaithful hpos

end Proofs

/-- The socket before the first call. -/
def start (cFrameBuffer : Nat → Byte) : Socket := ⟨.idle cFrameBuffer [], 0⟩

/-- Every message of a run that a thread begins and ends, and of which no call fails, is
handed to the connection: its frames have its opcode and its data. -/
def SendsMessages (e : SendEnv) (k : Socket) (calls : List (Nat × MessageCall)) : Prop :=
  ∀ pre nThreadId type body, pre ++ (nThreadId, .begin type) :: body ++ [(nThreadId, .finish)] <+: calls →
    Along e (Sends e nThreadId) (exec e k (pre ++ [(nThreadId, .begin type)])) body →
    (call e nThreadId (exec e k (pre ++ (nThreadId, .begin type) :: body)) .finish).1.failed = false →
      Faithful type (dataOf nThreadId body)
        ((exec e k (pre ++ (nThreadId, .begin type) :: body ++ [(nThreadId, .finish)])).sSend.sent.drop
          (exec e k pre).sSend.sent.length)

/-- No call that fails leaves the lock with its thread. -/
def Unlocks (e : SendEnv) (k : Socket) (calls : List (Nat × MessageCall)) : Prop :=
  ∀ pre nThreadId c, pre ++ [(nThreadId, c)] <+: calls →
    (call e nThreadId (exec e k pre) c).1.failed = true →
      (exec e k (pre ++ [(nThreadId, c)])).sSend.nSendInProgressMutex ≠ nThreadId

/-- **Clean runs**: a failure does not reach the messages after it. -/
theorem exec_faithful (e : SendEnv) (cFrameBuffer : Nat → Byte) (calls : List (Nat × MessageCall))
    (hpossible : Along e Possible (start cFrameBuffer) calls)
    (hclean : Along e (Clean e) (start cFrameBuffer) calls) :
    SendsMessages e (start cFrameBuffer) calls ∧ Unlocks e (start cFrameBuffer) calls := by
  have hstart : Steady (start cFrameBuffer) := ⟨rfl, Nat.zero_le _, fun hne => absurd rfl hne⟩
  constructor
  · rintro pre t type body ⟨post, rfl⟩ hsends hok
    rw [List.append_assoc, List.append_assoc] at hpossible hclean
    obtain ⟨hpre, hpossible⟩ := along_append.mp hpossible
    obtain ⟨hpre', hclean⟩ := along_append.mp hclean
    obtain ⟨hp, hpossible⟩ := along_append.mp hpossible
    obtain ⟨hc, hclean⟩ := along_append.mp hclean
    have hsteady := steady_exec hstart hpre hpre'
    rw [exec_append] at hsends hok
    rw [exec_append, exec_append]
    exact message_faithful hsteady rfl hp hc hsends hclean.1 hok
  · rintro pre t c ⟨post, rfl⟩ hfailed
    rw [List.append_assoc] at hpossible hclean
    obtain ⟨hpre, hp, -⟩ := along_append.mp hpossible
    obtain ⟨hpre', hc, -⟩ := along_append.mp hclean
    rw [exec_append]
    exact (steady_call (steady_exec hstart hpre hpre') hp hc).2 hfailed

/-- Null data before the first byte of a message, and a thread that is refused. -/
theorem exec_faithful_refused :
    let e : SendEnv := ⟨⟨true, 0, fun _ => 0⟩, fun _ => .sOk⟩
    let calls := [(1, .begin .text), (1, .send none), (2, .begin .binary), (1, .send (some [0x61])),
      (2, .send (some [0x62])), (2, .finish)]
    SendsMessages e (start fun _ => 0) calls ∧ Unlocks e (start fun _ => 0) calls := by
  exact exec_faithful _ _ _ (by decide) (by decide)

/-- Null data after two bytes: they are in the frame of the next message. -/
theorem not_sendsMessages_null :
    ¬ ∀ (e : SendEnv) (cFrameBuffer : Nat → Byte) (calls : List (Nat × MessageCall)),
      Along e Possible (start cFrameBuffer) calls →
        SendsMessages e (start cFrameBuffer) calls ∧ Unlocks e (start cFrameBuffer) calls := by
  intro h
  have hsends := (h ⟨⟨true, 0, fun _ => 0⟩, fun _ => .sOk⟩ (fun _ => 0)
    [(1, .begin .binary), (1, .send (some [0x61, 0x62])), (1, .send none), (1, .begin .text),
      (1, .send (some [0x63])), (1, .finish)] (by decide)).1
  have hfaithful := hsends [(1, .begin .binary), (1, .send (some [0x61, 0x62])), (1, .send none)] 1 .text
    [(1, .send (some [0x63]))] ⟨[], rfl⟩ ⟨fun _ => ⟨⟨_, rfl⟩, by decide⟩, trivial⟩ (by decide)
  exact absurd hfaithful.data_eq (by decide)

end Socket

end MxLib.Http.WebSockets
