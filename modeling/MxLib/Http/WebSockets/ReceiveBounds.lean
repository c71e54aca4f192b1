import MxLib.Http.WebSockets.ReceiveBytes

/-!
# The bounds of the receiver

The lengths in a header are chosen by the peer, and a data frame adds to what the
frames before it have stored.  `Step` is a step of the loops of
`OnSocketDataReceived`: a byte of a header, a turn of the loop over a payload, the end
of a frame.  `Bounded` is kept by every step; it bounds what is stored of a control
frame and of a message in every state the receiver reaches.
-/

namespace MxLib.Http.WebSockets

open MxLib.Library MxLib.Library.Stream

/-- The number of blocks of the message that are full. -/
def CurrentMessage.completedBlocks (m : CurrentMessage) : Nat :=
  match m.lpData with
  | some _ => m.aReceivedDataList.length - 1
  | none => m.aReceivedDataList.length

/-- The bytes in the block that is being filled. -/
def CurrentMessage.openFill (m : CurrentMessage) : Nat :=
  match m.lpData with
  | some _ => m.nFilledFrame
  | none => 0

/-- What is stored is within its buffers and is counted right. -/
structure Stored (s : Receive) : Prop where
  control : s.isControl = true → s.sCurrentControlFrame.nFilledFrame + s.nPayloadLen ≤ 125
  filled : s.sCurrentMessage.nFilledFrame ≤ receiveDataBlockSize
  total : s.sCurrentMessage.nTotalDataLength =
    receiveDataBlockSize * s.sCurrentMessage.completedBlocks + s.sCurrentMessage.openFill

/-- The message, while frames of it are read. -/
structure MessageBounded (nMax : Nat) (m : CurrentMessage) : Prop where
  filled : m.nFilledFrame ≤ receiveDataBlockSize
  total : m.nTotalDataLength = receiveDataBlockSize * m.completedBlocks + m.openFill
  block : m.lpData ≠ none → m.nFilledFrame < receiveDataBlockSize ∧ m.aReceivedDataList ≠ []
  fits : m.nTotalDataLength ≤ nMax

/-- The invariant of the receiver. -/
structure Bounded (nMax : Nat) (s : Receive) : Prop where
  state : s.nState ≤ 16
  first : s.nState < 2 → s.nPayloadLen = 0
  long : 2 ≤ s.nState → s.nState < 12 → s.isControl = false
  size : s.nPayloadLen < 2 ^ 64
  unread : s.nState < 16 ∨ s.isControl = false → s.sCurrentControlFrame.nFilledFrame = 0
  control : s.isControl = true → s.sCurrentControlFrame.nFilledFrame + s.nPayloadLen ≤ 125
  data : s.nState = 16 → s.isControl = false →
    s.sCurrentMessage.nTotalDataLength + s.nPayloadLen ≤ nMax
  message : MessageBounded nMax s.sCurrentMessage

theorem Bounded.stored {nMax : Nat} {s : Receive} (hs : Bounded nMax s) : Stored s :=
  ⟨hs.control, hs.message.filled, hs.message.total⟩

section Steps

variable (e : ReceiveEnv)

/-- A step of the loops of `OnSocketDataReceived`. -/
inductive Step : Receive → Receive → Prop
  | header {s t : Receive} {b : Byte} : s.nState < 16 → headerByte e s b = .ok t → Step s t
  | data {s t : Receive} {lpMsg rest : List Byte} : ¬ s.nState < 16 → s.isControl = false →
      dataTurn (s, lpMsg) = .inl (t, rest) → Step s t
  | control {s : Receive} (lpMsg : List Byte) : ¬ s.nState < 16 → s.isControl = true →
      Step s (readControl s lpMsg).1
  | frame {s t : Receive} : ¬ s.nState < 16 → s.nPayloadLen = 0 → endFrame e s = .ok t → Step s t
  | close {s t : Receive} {hRes : HResult} : ¬ s.nState < 16 → s.nPayloadLen = 0 →
      endFrame e s = .error (hRes, t) → Step s t

/-- A state of the receiver of a new socket. -/
def Reachable (memory : Nat → Nat → Byte) (s : Receive) : Prop :=
  Relation.ReflTransGen (Step e) (.create memory) s

variable {e}

/-! ### The header -/

theorem setByte_lt {n k : Nat} (hn : n < 2 ^ 64) (hk : k < 8) (b : Byte) :
    setByte n k b < 2 ^ 64 := by
  have hb := b.toNat_lt
  rw [setByte]
  obtain rfl | rfl | rfl | rfl | rfl | rfl | rfl | rfl :
      k = 0 ∨ k = 1 ∨ k = 2 ∨ k = 3 ∨ k = 4 ∨ k = 5 ∨ k = 6 ∨ k = 7 := by omega
  all_goals omega

/-- A length that is accepted does not wrap and fits. -/
theorem validateMessageLength_fits {s t : Receive} (hpay : s.nPayloadLen < 2 ^ 64)
    (htotal : s.sCurrentMessage.nTotalDataLength < 2 ^ 64)
    (h : validateMessageLength e s = .ok t) :
    t = s ∧ s.sCurrentMessage.nTotalDataLength + s.nPayloadLen ≤ e.nMaxMessageSize.toNat := by
  rw [validateMessageLength] at h
  split_ifs at h with hwrap hmax
  refine ⟨(Except.ok.inj h).symm, ?_⟩
  have hnowrap : s.sCurrentMessage.nTotalDataLength + s.nPayloadLen < 2 ^ 64 := by omega
  rw [Nat.mod_eq_of_lt hnowrap] at hmax
  omega

/-- The opcode of a message may change, nothing else. -/
theorem validateOpcode_message {s t : Receive} (h : validateOpcode s = .ok t) :
    ∃ nOpcode, t = { s with sCurrentMessage := { s.sCurrentMessage with nOpcode := nOpcode } } := by
  simp only [validateOpcode] at h
  split_ifs at h <;> obtain rfl := Except.ok.inj h
  · exact ⟨_, rfl⟩
  · exact ⟨_, rfl⟩
  · exact ⟨_, rfl⟩
  · exact ⟨_, rfl⟩

theorem MessageBounded.withOpcode {nMax : Nat} {m : CurrentMessage} (hm : MessageBounded nMax m)
    (nOpcode : Byte) : MessageBounded nMax { m with nOpcode := nOpcode } :=
  ⟨hm.filled, hm.total, hm.block, hm.fits⟩

/-- A state in which the header is read. -/
theorem bounded_header {nMax : Nat} {s : Receive} (hstate : s.nState < 16)
    (hfirst : s.nState < 2 → s.nPayloadLen = 0)
    (hlong : 2 ≤ s.nState → s.nState < 12 → s.isControl = false) (hsize : s.nPayloadLen < 2 ^ 64)
    (hfilled : s.sCurrentControlFrame.nFilledFrame = 0)
    (hcontrol : s.isControl = true → s.nPayloadLen ≤ 125)
    (hm : MessageBounded nMax s.sCurrentMessage) : Bounded nMax s := by
  refine ⟨by omega, hfirst, hlong, hsize, fun _ => hfilled, ?_, fun h => by omega, hm⟩
  intro hc
  have := hcontrol hc
  omega

/-- The header is complete: the length is checked. -/
theorem bounded_validate {s t : Receive} (h : validateMessageLength e s = .ok t)
    (hstate : s.nState = 16) (hsize : s.nPayloadLen < 2 ^ 64)
    (hfilled : s.sCurrentControlFrame.nFilledFrame = 0)
    (hcontrol : s.isControl = true → s.nPayloadLen ≤ 125)
    (hm : MessageBounded e.nMaxMessageSize.toNat s.sCurrentMessage) :
    Bounded e.nMaxMessageSize.toNat t := by
  have htotal := hm.fits
  have hmax := e.nMaxMessageSize.toNat_lt
  obtain ⟨rfl, hfits⟩ := validateMessageLength_fits hsize (by omega) h
  refine ⟨by omega, by omega, by omega, hsize, fun _ => hfilled, ?_, fun _ _ => hfits, hm⟩
  intro hc
  have := hcontrol hc
  omega

/-- The length is read: the mask follows, or the payload. -/
theorem bounded_jump {s t : Receive} (h : jumpToMaskKeyOrPayloadData e s = .ok t)
    (hsize : s.nPayloadLen < 2 ^ 64) (hfilled : s.sCurrentControlFrame.nFilledFrame = 0)
    (hcontrol : s.isControl = true → s.nPayloadLen ≤ 125)
    (hm : MessageBounded e.nMaxMessageSize.toNat s.sCurrentMessage) :
    Bounded e.nMaxMessageSize.toNat t := by
  rw [jumpToMaskKeyOrPayloadData] at h
  split at h
  · obtain rfl := Except.ok.inj h
    refine bounded_header ?_ ?_ ?_ hsize hfilled hcontrol hm
    · exact (by decide : 12 < 16)
    · exact fun hlt => absurd hlt (by decide : ¬ 12 < 2)
    · exact fun _ hlt => absurd hlt (by decide : ¬ 12 < 12)
  · exact bounded_validate h rfl hsize hfilled hcontrol hm

/-- A byte of a header. -/
theorem bounded_headerByte {s t : Receive} {b : Byte} (hs : Bounded e.nMaxMessageSize.toNat s)
    (hstate : s.nState < 16) (h : headerByte e s b = .ok t) :
    Bounded e.nMaxMessageSize.toNat t := by
  have hfilled := hs.unread (Or.inl hstate)
  have hsize := hs.size
  have hm := hs.message
  simp only [headerByte] at h
  split_ifs at h with h0 hrsv h1 hshort hctl h126 hlt4 heq4 hlt12 hend heq16
  · -- the opcode
    obtain ⟨nOpcode, rfl⟩ := validateOpcode_message h
    have hzero := hs.first (by omega)
    refine bounded_header ?_ (fun _ => hzero) ?_ hsize hfilled (fun _ => ?_) (hm.withOpcode nOpcode)
    · exact (by decide : 1 < 16)
    · exact fun hle => absurd hle (by decide : ¬ 2 ≤ 1)
    · exact hzero ▸ Nat.zero_le _
  · -- a length of seven bits
    have hlen : (Receive.nPayloadLen7 { s with header1 := b, nState := 2 }).toNat < 126 :=
      UInt8.lt_iff_toNat_lt.mp hshort
    refine bounded_jump h ?_ hfilled ?_ hm
    · exact Nat.lt_trans hlen (by decide)
    · exact fun _ => Nat.le_of_lt_succ hlen
  · -- 16 bits follow
    obtain rfl := Except.ok.inj h
    refine bounded_header ?_ (fun _ => rfl) ?_ ?_ hfilled (fun _ => Nat.zero_le _) hm
    · exact (by decide : 2 < 16)
    · exact fun _ _ => Bool.eq_false_iff.mpr hctl
    · exact (by decide : 0 < 2 ^ 64)
  · -- 64 bits follow
    obtain rfl := Except.ok.inj h
    refine bounded_header ?_ (fun _ => rfl) ?_ ?_ hfilled (fun _ => Nat.zero_le _) hm
    · exact (by decide : 4 < 16)
    · exact fun _ _ => Bool.eq_false_iff.mpr hctl
    · exact (by decide : 0 < 2 ^ 64)
  · -- the last byte of a length of 16 bits
    have hctl := hs.long (by omega) (by omega)
    refine bounded_jump h ?_ hfilled ?_ hm
    · exact setByte_lt hsize (by omega) b
    · exact fun hc => absurd (hctl.symm.trans hc) (by decide)
  · obtain rfl := Except.ok.inj h
    have hctl := hs.long (by omega) (by omega)
    refine bounded_header ?_ ?_ (fun _ _ => hctl) ?_ hfilled ?_ hm
    · dsimp only
      omega
    · dsimp only
      omega
    · exact setByte_lt hsize (by omega) b
    · exact fun hc => absurd (hctl.symm.trans hc) (by decide)
  · -- the last byte of a length of 64 bits, and no mask
    have hctl := hs.long (by omega) (by omega)
    refine bounded_validate h ?_ ?_ hfilled ?_ hm
    · rfl
    · exact setByte_lt hsize (by omega) b
    · exact fun hc => absurd (hctl.symm.trans hc) (by decide)
  · obtain rfl := Except.ok.inj h
    have hctl := hs.long (by omega) (by omega)
    refine bounded_header ?_ ?_ (fun _ _ => hctl) ?_ hfilled ?_ hm
    · dsimp only
      omega
    · dsimp only
      omega
    · exact setByte_lt hsize (by omega) b
    · exact fun hc => absurd (hctl.symm.trans hc) (by decide)
  · -- the last byte of the mask
    have hcontrol : s.isControl = true → s.nPayloadLen ≤ 125 := by
      intro hc
      have := hs.control hc
      omega
    exact bounded_validate h heq16 hsize hfilled hcontrol hm
  · obtain rfl := Except.ok.inj h
    have hcontrol : s.isControl = true → s.nPayloadLen ≤ 125 := by
      intro hc
      have := hs.control hc
      omega
    refine bounded_header ?_ ?_ ?_ hsize hfilled hcontrol hm
    · dsimp only at heq16 ⊢
      omega
    · dsimp only
      omega
    · dsimp only
      omega

/-! ### The payload -/

theorem messageBounded_provideBlock {nMax : Nat} {s : Receive}
    (hm : MessageBounded nMax s.sCurrentMessage) :
    MessageBounded nMax (provideBlock s).sCurrentMessage ∧
      (provideBlock s).sCurrentMessage.nTotalDataLength = s.sCurrentMessage.nTotalDataLength ∧
      (provideBlock s).sCurrentControlFrame = s.sCurrentControlFrame := by
  cases hdata : s.sCurrentMessage.lpData with
  | some p => rw [provideBlock_of_some hdata]; exact ⟨hm, rfl, rfl⟩
  | none =>
    have htotal := hm.total
    simp only [CurrentMessage.completedBlocks, CurrentMessage.openFill, hdata] at htotal
    rw [provideBlock, hdata]
    dsimp only
    rw [getReceiveBufferFromCache]
    cases s.sReceiveCache.getLast? <;>
      refine ⟨⟨Nat.zero_le _, ?_, fun _ => ⟨by simp [receiveDataBlockSize], by simp⟩, hm.fits⟩,
        rfl, rfl⟩ <;>
      simpa [CurrentMessage.completedBlocks, CurrentMessage.openFill] using htotal

theorem messageBounded_copyToBlock {nMax : Nat} {s : Receive} {blk n : Nat} {l : List Byte}
    (hm : MessageBounded nMax s.sCurrentMessage)
    (hblk : s.sCurrentMessage.lpData = some (blk, n))
    (hroom : s.sCurrentMessage.nFilledFrame + l.length ≤ receiveDataBlockSize)
    (hfits : s.sCurrentMessage.nTotalDataLength + l.length ≤ nMax) :
    MessageBounded nMax (copyToBlock s l).sCurrentMessage := by
  obtain ⟨hlt, hne⟩ := hm.block (by simp [hblk])
  have hlen : 0 < s.sCurrentMessage.aReceivedDataList.length := List.length_pos_iff.mpr hne
  have htotal := hm.total
  simp only [CurrentMessage.completedBlocks, CurrentMessage.openFill, hblk] at htotal
  simp only [copyToBlock, hblk]
  by_cases hfull : s.sCurrentMessage.nFilledFrame + l.length = receiveDataBlockSize
  · refine ⟨hroom, ?_, fun h => absurd (if_pos hfull) h, hfits⟩
    have hblocks : receiveDataBlockSize * s.sCurrentMessage.aReceivedDataList.length =
        receiveDataBlockSize * (s.sCurrentMessage.aReceivedDataList.length - 1) +
          receiveDataBlockSize := by
      rw [← Nat.mul_succ, Nat.succ_eq_add_one, Nat.sub_add_cancel hlen]
    simp only [CurrentMessage.completedBlocks, CurrentMessage.openFill, if_pos hfull]
    omega
  · refine ⟨hroom, ?_, fun _ => ⟨Nat.lt_of_le_of_ne hroom hfull, hne⟩, hfits⟩
    simp only [CurrentMessage.completedBlocks, CurrentMessage.openFill, if_neg hfull]
    omega

/-- A turn of the loop over the payload of a data frame. -/
theorem bounded_dataTurn {nMax : Nat} {s t : Receive} {lpMsg rest : List Byte}
    (hs : Bounded nMax s) (hstate : ¬ s.nState < 16) (hctl : s.isControl = false)
    (h : dataTurn (s, lpMsg) = .inl (t, rest)) : Bounded nMax t := by
  have h16 : s.nState = 16 := by have := hs.state; omega
  have hdata := hs.data h16 hctl
  obtain ⟨⟨blk, n⟩, hblk⟩ := exists_lpData_provideBlock s
  obtain ⟨hpay, hst, hhead⟩ := nPayloadLen_provideBlock s
  obtain ⟨hm, htotal, hcontrol⟩ := messageBounded_provideBlock hs.message
  by_cases hstop : lpMsg = [] ∨ s.nPayloadLen = 0
  · simp only [dataTurn, if_pos hstop] at h
    cases h
  simp only [dataTurn, if_neg hstop] at h
  obtain ⟨k, hk⟩ : ∃ k, k = min (min (receiveDataBlockSize -
    (provideBlock s).sCurrentMessage.nFilledFrame) lpMsg.length) (provideBlock s).nPayloadLen :=
    ⟨_, rfl⟩
  rw [← hk] at h
  obtain ⟨rfl, -⟩ := Prod.mk.inj (Sum.inl.inj h)
  have hlen : (lpMsg.take k).length = k := by
    rw [List.length_take]
    omega
  have hfill := hm.filled
  obtain ⟨-, hpay', hst', hhead'⟩ := copyToBlock_spec hblk (lpMsg.take k) (by omega)
  have hctl' : (copyToBlock (provideBlock s) (lpMsg.take k)).isControl = false := by
    rw [Receive.isControl, Receive.nOpcode, hhead', hhead]
    exact hctl
  have hm' := messageBounded_copyToBlock hm hblk (l := lpMsg.take k) (by omega) (by omega)
  have htotal' : (copyToBlock (provideBlock s) (lpMsg.take k)).sCurrentMessage.nTotalDataLength =
      s.sCurrentMessage.nTotalDataLength + k := by
    simp only [copyToBlock, hblk, htotal, hlen]
  have hcontrol' : (copyToBlock (provideBlock s) (lpMsg.take k)).sCurrentControlFrame =
      s.sCurrentControlFrame := by
    simp only [copyToBlock, hblk, hcontrol]
  have hsize := hs.size
  refine ⟨by omega, by omega, by omega, by omega, fun _ => ?_, ?_, ?_, hm'⟩
  · rw [hcontrol']
    exact hs.unread (Or.inr hctl)
  · exact fun hc => absurd (hctl'.symm.trans hc) (by decide)
  · intro _ _
    omega

/-- The payload of a control frame. -/
theorem bounded_readControl {nMax : Nat} {s : Receive} (hs : Bounded nMax s)
    (hstate : ¬ s.nState < 16) (hctl : s.isControl = true) (lpMsg : List Byte) :
    Bounded nMax (readControl s lpMsg).1 := by
  have hcontrol := hs.control hctl
  have hsize := hs.size
  have hle := hs.state
  refine ⟨hle, fun h => absurd h ?_, fun _ h => absurd h ?_, ?_, fun h => ?_, fun _ => ?_,
    fun _ hc => ?_, hs.message⟩
  · change ¬ s.nState < 2
    omega
  · change ¬ s.nState < 12
    omega
  · simp only [readControl]
    omega
  · rcases h with h | h
    · exact absurd h hstate
    · exact absurd (hctl.symm.trans h) (by decide)
  · simp only [readControl]
    omega
  · exact absurd (hctl.symm.trans hc) (by decide)

/-! ### The end of a frame -/

/-- The fields `Bounded` is about are the same. -/
theorem Bounded.congr {nMax : Nat} {s t : Receive} (hs : Bounded nMax s)
    (hstate : t.nState = s.nState) (hhead : t.header0 = s.header0)
    (hpay : t.nPayloadLen = s.nPayloadLen)
    (hctl : t.sCurrentControlFrame = s.sCurrentControlFrame)
    (hm : t.sCurrentMessage = s.sCurrentMessage) : Bounded nMax t := by
  have hc : t.isControl = s.isControl := by
    rw [Receive.isControl, Receive.isControl, Receive.nOpcode, Receive.nOpcode, hhead]
  constructor
  · rw [hstate]; exact hs.state
  · rw [hstate, hpay]; exact hs.first
  · rw [hstate, hc]; exact hs.long
  · rw [hpay]; exact hs.size
  · rw [hstate, hc, hctl]; exact hs.unread
  · rw [hc, hctl, hpay]; exact hs.control
  · rw [hstate, hc, hm, hpay]; exact hs.data
  · rw [hm]; exact hs.message

theorem bounded_closeFrame {nMax : Nat} {s : Receive} (hs : Bounded nMax s) :
    Bounded nMax (closeFrame e s) := by
  simp only [closeFrame]
  cases s.hrCloseError with
  | some hRes => exact hs
  | none =>
    dsimp only
    split_ifs <;> exact hs.congr rfl rfl rfl rfl rfl

theorem messageBounded_none (nMax : Nat) (nOpcode : Byte) :
    MessageBounded nMax ⟨nOpcode, [], none, 0, 0⟩ :=
  ⟨Nat.zero_le _, rfl, fun h => absurd rfl h, Nat.zero_le _⟩

/-- A socket that waits for the next frame. -/
theorem bounded_next {nMax : Nat} {s : Receive} (hstate : s.nState = 0) (hpay : s.nPayloadLen = 0)
    (hfilled : s.sCurrentControlFrame.nFilledFrame = 0)
    (hm : MessageBounded nMax s.sCurrentMessage) : Bounded nMax s :=
  bounded_header (by omega) (fun _ => hpay) (by omega) (by omega) hfilled (fun _ => by omega) hm

/-- The end of a frame.  The buffer for control frames is empty after it. -/
theorem bounded_endFrame {nMax : Nat} {s t : Receive} (hs : Bounded nMax s)
    (hpay : s.nPayloadLen = 0) (h : endFrame e s = .ok t) : Bounded nMax t := by
  rw [endFrame] at h
  split_ifs at h with hclose hctl hping hpong hfin
  · obtain rfl := Except.ok.inj h
    exact bounded_next rfl hpay rfl hs.message
  · obtain rfl := Except.ok.inj h
    exact bounded_next rfl hpay rfl hs.message
  · obtain rfl := Except.ok.inj h
    exact bounded_next rfl hpay rfl hs.message
  · obtain rfl := Except.ok.inj h
    have hfilled := hs.unread (Or.inr (Bool.eq_false_iff.mpr hctl))
    rw [endMessageFrame]
    split
    · exact bounded_next rfl hpay hfilled (messageBounded_none nMax _)
    · exact bounded_next rfl hpay hfilled (messageBounded_none nMax _)
  · obtain rfl := Except.ok.inj h
    have hfilled := hs.unread (Or.inr (Bool.eq_false_iff.mpr hctl))
    exact bounded_next rfl hpay hfilled hs.message

/-! ### A run -/

theorem bounded_create (nMax : Nat) (memory : Nat → Nat → Byte) :
    Bounded nMax (.create memory) :=
  bounded_next rfl rfl rfl (messageBounded_none nMax _)

/-- **Every step keeps the bounds.** -/
theorem bounded_step {s t : Receive} (hs : Bounded e.nMaxMessageSize.toNat s) (h : Step e s t) :
    Bounded e.nMaxMessageSize.toNat t := by
  cases h with
  | header hstate hb => exact bounded_headerByte hs hstate hb
  | data hstate hctl hturn => exact bounded_dataTurn hs hstate hctl hturn
  | control lpMsg hstate hctl => exact bounded_readControl hs hstate hctl lpMsg
  | frame _ hpay hend => exact bounded_endFrame hs hpay hend
  | close _ _ hend =>
    rw [endFrame] at hend
    split_ifs at hend
    obtain ⟨-, rfl⟩ := Prod.mk.inj (Except.error.inj hend)
    exact bounded_closeFrame hs

theorem bounded_of_reachable {memory : Nat → Nat → Byte} {s : Receive}
    (h : Reachable e memory s) : Bounded e.nMaxMessageSize.toNat s := by
  induction h with
  | refl => exact bounded_create _ memory
  | tail _ hstep ih => exact bounded_step ih hstep

/-! ### A header that is refused -/

theorem validateMessageLength_refused {s t : Receive} {hRes : HResult}
    (h : validateMessageLength e s = .error (hRes, t)) : t = s := by
  rw [validateMessageLength] at h
  split_ifs at h <;> exact (Prod.mk.inj (Except.error.inj h)).2.symm

theorem jumpToMaskKeyOrPayloadData_refused {s t : Receive} {hRes : HResult}
    (h : jumpToMaskKeyOrPayloadData e s = .error (hRes, t)) : t = { s with nState := 16 } := by
  rw [jumpToMaskKeyOrPayloadData] at h
  split at h
  · cases h
  · exact validateMessageLength_refused h

theorem validateOpcode_refused {s t : Receive} {hRes : HResult}
    (h : validateOpcode s = .error (hRes, t)) : t = s := by
  simp only [validateOpcode] at h
  split_ifs at h <;> exact (Prod.mk.inj (Except.error.inj h)).2.symm

/-- What is stored when a header is refused is as it was, and a control frame that is
refused is no longer than it may be. -/
theorem headerByte_refused {nMax : Nat} {s t : Receive} {b : Byte} {hRes : HResult}
    (hs : Bounded nMax s) (hstate : s.nState < 16) (h : headerByte e s b = .error (hRes, t)) :
    t.sCurrentMessage = s.sCurrentMessage ∧ t.sCurrentControlFrame = s.sCurrentControlFrame ∧
      (t.isControl = true → t.nPayloadLen ≤ 125) := by
  simp only [headerByte] at h
  split_ifs at h with h0 hrsv h1 hshort hctl hlt4 heq4 hlt12 hend heq16
  · obtain ⟨-, rfl⟩ := Prod.mk.inj (Except.error.inj h)
    exact ⟨rfl, rfl, fun _ => hs.first (by omega) ▸ Nat.zero_le _⟩
  · obtain rfl := validateOpcode_refused h
    exact ⟨rfl, rfl, fun _ => hs.first (by omega) ▸ Nat.zero_le _⟩
  · obtain rfl := jumpToMaskKeyOrPayloadData_refused h
    exact ⟨rfl, rfl, fun _ => Nat.le_of_lt_succ (UInt8.lt_iff_toNat_lt.mp hshort)⟩
  · obtain ⟨-, rfl⟩ := Prod.mk.inj (Except.error.inj h)
    exact ⟨rfl, rfl, fun _ => hs.first (by omega) ▸ Nat.zero_le _⟩
  · obtain rfl := jumpToMaskKeyOrPayloadData_refused h
    have hctl := hs.long (by omega) (by omega)
    exact ⟨rfl, rfl, fun hc => absurd (hctl.symm.trans hc) (by decide)⟩
  · obtain rfl := validateMessageLength_refused h
    have hctl := hs.long (by omega) (by omega)
    exact ⟨rfl, rfl, fun hc => absurd (hctl.symm.trans hc) (by decide)⟩
  · obtain rfl := validateMessageLength_refused h
    refine ⟨rfl, rfl, fun hc => ?_⟩
    have := hs.control hc
    dsimp only
    omega

theorem stored_headerByte_refused {nMax : Nat} {s t : Receive} {b : Byte} {hRes : HResult}
    (hs : Bounded nMax s) (hstate : s.nState < 16) (h : headerByte e s b = .error (hRes, t)) :
    Stored t := by
  obtain ⟨hm, hcontrol, hlen⟩ := headerByte_refused hs hstate h
  refine ⟨fun hc => ?_, hm ▸ hs.message.filled, hm ▸ hs.message.total⟩
  have := hlen hc
  rw [hcontrol, hs.unread (Or.inl hstate)]
  omega

/-! ### The states of a run -/

/-- **What is received stays within its bounds** in every state that is reached, and
also when a header is refused: at most 125 bytes of a control frame, and of a message
what the blocks are said to hold and no more than `GetMaxMessageSize`. -/
theorem bounds_of_reachable {memory : Nat → Nat → Byte} {s : Receive}
    (h : Reachable e memory s) :
    Stored s ∧
      (s.nState = 16 → s.isControl = false →
        s.sCurrentMessage.nTotalDataLength + s.nPayloadLen ≤ e.nMaxMessageSize.toNat) ∧
      ∀ b hRes t, s.nState < 16 → headerByte e s b = .error (hRes, t) → Stored t := by
  have hs := bounded_of_reachable h
  exact ⟨hs.stored, hs.data, fun b hRes t hstate hb => stored_headerByte_refused hs hstate hb⟩

/-- The header of a text frame of three bytes, on a socket that takes 1024 bytes. -/
theorem bounds_textHeader : ∃ t, Reachable ⟨⟨true, 0, fun _ => 0⟩, 1024⟩ (fun _ _ => 0) t ∧
    t.nState = 16 ∧ t.nPayloadLen = 3 ∧ Stored t ∧
    t.sCurrentMessage.nTotalDataLength + t.nPayloadLen ≤ 1024 := by
  let e : ReceiveEnv := ⟨⟨true, 0, fun _ => 0⟩, 1024⟩
  let s : Receive := .create fun _ _ => 0
  let u : Receive :=
    { s with header0 := 0x81, nState := 1, sCurrentMessage := ⟨opcodeText, [], none, 0, 0⟩ }
  let t : Receive := { u with header1 := 0x03, nPayloadLen := 3, nState := 16 }
  have hrsv : ((0x81 : Byte) >>> 4) &&& 7 = 0 := by decide
  have hopcode : (0x81 : Byte) &&& 0x0F = 1 := by decide
  have hmask : (0x03 : Byte) >>> 7 = 0 := by decide
  have hlen : (0x03 : Byte) &&& 0x7F = 3 := by decide
  have hfirst : headerByte e s 0x81 = .ok u := by
    simp [headerByte, validateOpcode, Receive.nRsv, Receive.nOpcode, opcodeContinuation, opcodeText,
      opcodeNone, s, u, Receive.create, hrsv, hopcode]
  have hsecond : headerByte e u 0x03 = .ok t := by
    simp [headerByte, jumpToMaskKeyOrPayloadData, validateMessageLength, Receive.nMask,
      Receive.nPayloadLen7, s, u, t, e, Receive.create, hmask, hlen]
  have ht : Reachable e (fun _ _ => 0) t :=
    (Relation.ReflTransGen.single (Step.header (by decide : 0 < 16) hfirst)).tail
      (Step.header (by decide : 1 < 16) hsecond)
  obtain ⟨hstored, hfits, -⟩ := bounds_of_reachable ht
  exact ⟨t, ht, rfl, rfl, hstored, hfits rfl (by decide)⟩

/-! ### The calls make these steps -/

/-- A state a call leaves, with its result: one that is reached, or the one with the
header that is refused. -/
def Left (e : ReceiveEnv) (memory : Nat → Nat → Byte) (hRes : HResult) (t : Receive) : Prop :=
  Reachable e memory t ∨
    ∃ s b, Reachable e memory s ∧ s.nState < 16 ∧ headerByte e s b = .error (hRes, t)

section Calls

variable {memory : Nat → Nat → Byte}

theorem reachable_readHeader (l : List Byte) : ∀ {s : Receive}, Reachable e memory s →
    (∀ t rest, readHeader e s l = .ok (t, rest) → Reachable e memory t) ∧
      ∀ hRes t, readHeader e s l = .error (hRes, t) → Left e memory hRes t := by
  induction l with
  | nil =>
    intro s hs
    refine ⟨fun t rest h => ?_, fun hRes t h => by cases h⟩
    obtain ⟨rfl, -⟩ := Prod.mk.inj (Except.ok.inj h)
    exact hs
  | cons b l ih =>
    intro s hs
    rw [readHeader]
    by_cases hstate : s.nState < 16
    · rw [if_pos hstate]
      cases hb : headerByte e s b with
      | ok u => exact ih (hs.tail (.header hstate hb))
      | error r =>
        refine ⟨(fun t rest h => by cases h), fun hRes t h => ?_⟩
        obtain rfl := Except.error.inj h
        exact Or.inr ⟨s, b, hs, hstate, hb⟩
    · rw [if_neg hstate]
      refine ⟨fun t rest h => ?_, fun hRes t h => by cases h⟩
      obtain ⟨rfl, -⟩ := Prod.mk.inj (Except.ok.inj h)
      exact hs

theorem dataTurn_head {s t : Receive} {lpMsg rest : List Byte}
    (h : dataTurn (s, lpMsg) = .inl (t, rest)) : t.nState = s.nState ∧ t.header0 = s.header0 := by
  obtain ⟨⟨blk, n⟩, hblk⟩ := exists_lpData_provideBlock s
  obtain ⟨-, hst, hhead⟩ := nPayloadLen_provideBlock s
  simp only [dataTurn] at h
  split_ifs at h
  obtain ⟨rfl, -⟩ := Prod.mk.inj (Sum.inl.inj h)
  simp only [copyToBlock, hblk, hst, hhead, and_self]

/-- What the loop over the payload of a data frame keeps. -/
def ReadsData (e : ReceiveEnv) (memory : Nat → Nat → Byte) (c : Receive × List Byte) : Prop :=
  Reachable e memory c.1 ∧ ¬ c.1.nState < 16 ∧ c.1.isControl = false

theorem readsData_dataTurn (c c' : Receive × List Byte) (hc : ReadsData e memory c)
    (h : dataTurn c = .inl c') : ReadsData e memory c' := by
  obtain ⟨u, l⟩ := c
  obtain ⟨v, l'⟩ := c'
  obtain ⟨hu, hst, hctl⟩ := hc
  obtain ⟨hst', hhead⟩ := dataTurn_head h
  refine ⟨hu.tail (.data hst hctl h), hst' ▸ hst, ?_⟩
  rw [Receive.isControl, Receive.nOpcode, hhead]
  exact hctl

theorem readsData_leave (c c' : Receive × List Byte) (hc : ReadsData e memory c)
    (h : dataTurn c = .inr c') : ReadsData e memory c' := by
  obtain ⟨u, l⟩ := c
  simp only [dataTurn] at h
  split_ifs at h
  obtain rfl := Sum.inr.inj h
  exact hc

theorem reachable_readPayload {s : Receive} (hs : Reachable e memory s) (hstate : ¬ s.nState < 16)
    (l : List Byte) :
    Reachable e memory (readPayload s l).1 ∧ ¬ (readPayload s l).1.nState < 16 := by
  cases hctl : s.isControl with
  | true =>
    rw [readPayload, if_pos hctl]
    exact ⟨hs.tail (.control l hstate hctl), hstate⟩
  | false =>
    have hinit : ReadsData e memory (s, l) := ⟨hs, hstate, hctl⟩
    have hexec : ReadsData e memory
        (Loop.exec dataTurn (fun c => c.2.length) (s, l) (s, l)) := by
      rw [Loop.exec]
      cases hrun : Loop.run dataTurn (l.length + 1) (s, l) with
      | none => exact hinit
      | some c => exact Loop.run_induct _ _ readsData_dataTurn readsData_leave hinit hrun
    rw [readPayload, if_neg (by simp [hctl])]
    exact ⟨hexec.1, hexec.2.1⟩

theorem reachable_processMsg {s : Receive} (hs : Reachable e memory s) (l : List Byte) :
    (∀ t rest, processMsg e s l = .ok (t, rest) → Reachable e memory t) ∧
      ∀ hRes t, processMsg e s l = .error (hRes, t) → Left e memory hRes t := by
  obtain ⟨hok, herror⟩ := reachable_readHeader (e := e) l hs
  rw [processMsg]
  cases hread : readHeader e s l with
  | error r =>
    refine ⟨(fun t rest h => by cases h), fun hRes t h => ?_⟩
    obtain rfl := Except.error.inj h
    exact herror _ _ hread
  | ok r =>
    obtain ⟨u, lpMsg⟩ := r
    have hu := hok u lpMsg hread
    by_cases hstate : u.nState < 16
    · simp only [if_pos hstate]
      refine ⟨fun t rest h => ?_, fun hRes t h => by cases h⟩
      obtain ⟨rfl, -⟩ := Prod.mk.inj (Except.ok.inj h)
      exact hu
    · obtain ⟨hpay, hst⟩ := reachable_readPayload (e := e) hu hstate lpMsg
      simp only [if_neg hstate]
      by_cases hzero : (readPayload u lpMsg).1.nPayloadLen = 0
      · simp only [if_pos hzero]
        cases hend : endFrame e (readPayload u lpMsg).1 with
        | ok v =>
          refine ⟨fun t rest h => ?_, fun hRes t h => by cases h⟩
          obtain ⟨rfl, -⟩ := Prod.mk.inj (Except.ok.inj h)
          exact hpay.tail (.frame hst hzero hend)
        | error r =>
          refine ⟨(fun t rest h => by cases h), fun hRes t h => ?_⟩
          obtain rfl := Except.error.inj h
          exact Or.inl (hpay.tail (.close hst hzero hend))
      · simp only [if_neg hzero]
        refine ⟨fun t rest h => ?_, fun hRes t h => by cases h⟩
        obtain ⟨rfl, -⟩ := Prod.mk.inj (Except.ok.inj h)
        exact hpay

theorem Left.reachable {hRes : HResult} {t : Receive} (h : Left e memory hRes t)
    (hok : hRes.failed = false) : Reachable e memory t := by
  rcases h with h | ⟨s, b, -, -, hb⟩
  · exact h
  · have hfail := headerByte_error hb
    rw [hok] at hfail
    cases hfail

theorem reachable_receiveTurnBy {size : Nat → Nat} (c c' : Receive × List Byte × Nat)
    (hc : Reachable e memory c.1) (h : receiveTurnBy e size c = .inl c') :
    Reachable e memory c'.1 := by
  obtain ⟨s, buffered, k⟩ := c
  simp only [receiveTurnBy] at h
  split_ifs at h
  cases hout : processMsg e s (buffered.take (size k)) with
  | error r =>
    rw [hout] at h
    cases h
  | ok r =>
    rw [hout] at h
    obtain rfl := Sum.inl.inj h
    exact (reachable_processMsg hc _).1 _ _ hout

theorem left_receiveTurnBy {size : Nat → Nat} (c : Receive × List Byte × Nat)
    (r : HResult × Receive × List Byte × Nat) (hc : Reachable e memory c.1)
    (h : receiveTurnBy e size c = .inr r) : Left e memory r.1 r.2.1 := by
  obtain ⟨s, buffered, k⟩ := c
  simp only [receiveTurnBy] at h
  split_ifs at h
  · obtain rfl := Sum.inr.inj h
    exact Or.inl hc
  cases hout : processMsg e s (buffered.take (size k)) with
  | error r' =>
    rw [hout] at h
    obtain rfl := Sum.inr.inj h
    exact (reachable_processMsg hc _).2 _ _ hout
  | ok r' =>
    rw [hout] at h
    cases h

theorem left_onSocketDataReceivedBy (size : Nat → Nat) {s : Receive}
    (hs : Reachable e memory s) (buffered : List Byte) (k : Nat) :
    Left e memory (onSocketDataReceivedBy e size s buffered k).1
      (onSocketDataReceivedBy e size s buffered k).2.1 := by
  rw [onSocketDataReceivedBy, Loop.exec]
  cases hrun : Loop.run (receiveTurnBy e size) (receiveMeasure (s, buffered) + 1)
    (s, buffered, k) with
  | none => exact Or.inl hs
  | some r =>
    exact Loop.run_induct (fun c => Reachable e memory c.1) (fun r => Left e memory r.1 r.2.1)
      reachable_receiveTurnBy left_receiveTurnBy hs hrun

theorem left_receiveAllBy (size : Nat → Nat) (chunks : List (List Byte)) :
    ∀ {s : Receive} (buffered : List Byte) (k : Nat), Reachable e memory s →
      Left e memory (receiveAllBy e size s buffered k chunks).1
        (receiveAllBy e size s buffered k chunks).2 := by
  induction chunks with
  | nil => exact fun _ _ hs => Or.inl hs
  | cons chunk chunks ih =>
    intro s buffered k hs
    have hleft := left_onSocketDataReceivedBy size hs (buffered ++ chunk) k
    rw [receiveAllBy]
    generalize onSocketDataReceivedBy e size s (buffered ++ chunk) k = r at hleft
    obtain ⟨hRes, t, rest, k'⟩ := r
    dsimp only at hleft ⊢
    split
    · exact hleft
    · next hok => exact ih rest k' (hleft.reachable (by simpa using hok))

/-- **Whatever is received and however it is returned, the calls end in a state that
is reached**, or with a header that is refused. -/
theorem left_receive {stream : List Byte} (d : Delivery stream) :
    Left e memory (d.receive e (.create memory)).1 (d.receive e (.create memory)).2 :=
  left_receiveAllBy d.size d.chunks [] 0 .refl

end Calls

end Steps

end MxLib.Http.WebSockets
