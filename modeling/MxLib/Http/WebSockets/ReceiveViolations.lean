import MxLib.Http.WebSockets.ReceiveMessages

/-!
# Frames that break the rules

`Violation` lists the ways in which a frame breaks the rules of fragmentation and of
control frames, after the frames before it.  The socket checks the reserved bits, the
opcode and whether a message is in progress.  It does not look at the final bit of a
control frame, and a text or binary frame passes for a continuation when its opcode
is that of the message in progress (`Missed`).  `refused_iff` says that these are the
only frames it misses, as long as it still listens.
-/

namespace MxLib.Http.WebSockets

open MxLib.Library MxLib.Library.Stream

/-! ### The rules -/

namespace RawFrame

/-- What the opcode says, unless it is reserved. -/
def kind (f : RawFrame) : Option FrameKind :=
  if f.opcode = opcodeContinuation then some .continuation
  else if f.opcode = opcodeText then some (.start .text)
  else if f.opcode = opcodeBinary then some (.start .binary)
  else if f.opcode = opcodeConnectionClose then some .close
  else if f.opcode = opcodePing then some .ping
  else if f.opcode = opcodePong then some .pong
  else none

/-- The message in progress after a frame. -/
def next (cur : Option MessageType) (f : RawFrame) : Option MessageType :=
  match f.kind with
  | some (.start type) => if f.fin then none else some type
  | some .continuation => if f.fin then none else cur
  | _ => cur

/-- The length of the message in progress after a frame. -/
def total (n : Nat) (f : RawFrame) : Nat :=
  match f.kind with
  | some (.start _) => if f.fin then 0 else n + f.payload.length
  | some .continuation => if f.fin then 0 else n + f.payload.length
  | _ => n

end RawFrame

/-- A frame that breaks the rules, while the given message is in progress. -/
inductive Violation (cur : Option MessageType) (f : RawFrame) : Prop
  | rsv : f.rsv ≠ 0 → Violation cur f
  | opcode : f.kind = none → Violation cur f
  | continuation : f.kind = some .continuation → cur = none → Violation cur f
  | start {type : MessageType} : f.kind = some (.start type) → cur ≠ none → Violation cur f
  | fin {kind : FrameKind} : f.kind = some kind → kind.isControl = true → f.fin = false →
      Violation cur f
  | long {kind : FrameKind} : f.kind = some kind → kind.isControl = true →
      125 < f.payload.length → Violation cur f

/-- Frames that keep the rules. -/
def Conforms : Option MessageType → List RawFrame → Prop
  | _, [] => True
  | cur, f :: frames => ¬ Violation cur f ∧ Conforms (f.next cur) frames

/-- The message in progress after some frames. -/
def openAfter (cur : Option MessageType) (frames : List RawFrame) : Option MessageType :=
  frames.foldl RawFrame.next cur

/-! ### What the socket misses -/

/-- The violations the socket does not see. -/
def Missed (cur : Option MessageType) (f : RawFrame) : Prop :=
  f.rsv = 0 ∧
    ((∃ type, cur = some type ∧ f.kind = some (.start type)) ∨
      ∃ kind, f.kind = some kind ∧ kind.isControl = true ∧ f.fin = false)

/-- A frame that is refused for its length: a control frame with one of the longer
forms, or a payload that does not fit with the `n` bytes of the message. -/
def TooLong (nMax n : Nat) (f : RawFrame) : Prop :=
  (f.isControl = true ∧ f.form ≠ .short) ∨ nMax < n + f.payload.length

/-- One of the frames up to the first close frame is refused for its length. -/
def Stops (nMax : Nat) : Nat → List RawFrame → Prop
  | _, [] => False
  | n, f :: frames =>
    TooLong nMax n f ∨ (f.kind ≠ some .close ∧ Stops nMax (f.total n) frames)

/-- The socket answers a list of frames and a frame after it with an error, whatever
follows, and delivers the messages of the list only. -/
def Refused (e : ReceiveEnv) (memory : Nat → Nat → Byte) (frames : List RawFrame)
    (f : RawFrame) : Prop :=
  ∀ (rest : List Byte) (d : Delivery ((frames ++ [f]).flatMap RawFrame.wire ++ rest))
    (d' : Delivery (frames.flatMap RawFrame.wire)),
    (d.receive e (.create memory)).1.failed = true ∧
      messages (d.receive e (.create memory)).2.events =
        messages (d'.receive e (.create memory)).2.events

/-! ### The first byte -/

section Violations

variable {e : ReceiveEnv}

theorem RawFrame.kind_eq_some {f : RawFrame} {kind : FrameKind} (h : f.kind = some kind) :
    f.opcode = kind.opcode := by
  rw [RawFrame.kind] at h
  split_ifs at h with h0 h1 h2 h8 h9 h10 <;> obtain rfl := Option.some.inj h <;> assumption

theorem RawFrame.kind_eq_none {f : RawFrame} (h : f.kind = none) :
    f.opcode ≠ opcodeContinuation ∧ f.opcode ≠ opcodeText ∧ f.opcode ≠ opcodeBinary ∧
      f.opcode ≠ opcodeConnectionClose ∧ f.opcode ≠ opcodePing ∧ f.opcode ≠ opcodePong := by
  rw [RawFrame.kind] at h
  split_ifs at h with h0 h1 h2 h8 h9 h10
  exact ⟨h0, h1, h2, h8, h9, h10⟩

theorem RawFrame.isControl_of_kind {f : RawFrame} {kind : FrameKind} (h : f.kind = some kind) :
    f.isControl = kind.isControl := by
  rw [RawFrame.isControl, f.kind_eq_some h, Frame.opcode_control]

/-- The socket between two frames. -/
structure Waiting (nMax : Nat) (s : Receive) (cur : Option MessageType) (n : Nat) : Prop where
  nState : s.nState = 0
  opcode : s.sCurrentMessage.nOpcode = (cur.map MessageType.opcode).getD opcodeNone
  blocks : ∃ content, Blocks s content ∧ content.length = n
  fits : n ≤ nMax

theorem waiting_create (nMax : Nat) (memory : Nat → Nat → Byte) :
    Waiting nMax (.create memory) none 0 :=
  ⟨rfl, rfl, ⟨[], (receiving_create memory).blocks, rfl⟩, Nat.zero_le _⟩

/-- A frame whose first byte is refused. -/
theorem feed_wire_refused {f : RawFrame} {s : Receive} {r : Stop} (hstate : s.nState = 0)
    (h : headerByte e s f.first = .error r) : feed (receiveByte e) s f.wire = .error r := by
  rw [RawFrame.wire, feed_header_cons (by omega), h]
  rfl

theorem headerByte_rsv {f : RawFrame} {s : Receive} (hstate : s.nState = 0) (hrsv : f.rsv ≠ 0) :
    headerByte e s f.first = .error (.mxUnsupported, { s with header0 := f.first, nState := 1 }) := by
  have hne : (f.first >>> 4 &&& 7 != 0) = true := by simpa [RawFrame.rsv] using hrsv
  simp only [headerByte, hstate, if_true, Receive.nRsv, hne]

theorem headerByte_opcode {f : RawFrame} {s : Receive} (hstate : s.nState = 0)
    (hrsv : f.rsv = 0) :
    headerByte e s f.first = validateOpcode { s with header0 := f.first, nState := 1 } := by
  have hne : (f.first >>> 4 &&& 7 != 0) = false := by simpa [RawFrame.rsv] using hrsv
  simp only [headerByte, hstate, if_true, Receive.nRsv, hne]
  rfl

/-- A frame the opcode of which the socket refuses while the message is in progress. -/
inductive WrongOpcode (cur : Option MessageType) (f : RawFrame) : Prop
  | reserved : f.kind = none → WrongOpcode cur f
  | continuation : f.kind = some .continuation → cur = none → WrongOpcode cur f
  | start {type type' : MessageType} : f.kind = some (.start type) → cur = some type' →
      type' ≠ type → WrongOpcode cur f

theorem validateOpcode_wrong {nMax n : Nat} {f : RawFrame} {s : Receive}
    {cur : Option MessageType} (hs : Waiting nMax s cur n) (h : WrongOpcode cur f) :
    ∃ hRes, validateOpcode { s with header0 := f.first, nState := 1 } =
      .error (hRes, { s with header0 := f.first, nState := 1 }) := by
  have hop : Receive.nOpcode { s with header0 := f.first, nState := 1 } = f.opcode := rfl
  have hcur := hs.opcode
  simp only [validateOpcode, hop]
  cases h with
  | reserved hkind =>
    obtain ⟨h0, h1, h2, h8, h9, h10⟩ := f.kind_eq_none hkind
    simp [h0, h1, h2, h8, h9, h10]
  | continuation hkind hnone =>
    rw [hnone] at hcur
    rw [f.kind_eq_some hkind, hcur]
    exact ⟨_, rfl⟩
  | @start type type' hkind hsome hne =>
    rw [hsome] at hcur
    rw [f.kind_eq_some hkind, hcur]
    cases type <;> cases type' <;> first | exact absurd rfl hne | exact ⟨_, rfl⟩

/-- The opcode of the message when a frame is accepted. -/
def messageOpcode (cur : Option MessageType) (f : RawFrame) : Byte :=
  match f.kind with
  | some (.start type) => type.opcode
  | _ => (cur.map MessageType.opcode).getD opcodeNone

theorem validateOpcode_right {nMax n : Nat} {f : RawFrame} {s : Receive}
    {cur : Option MessageType} (hs : Waiting nMax s cur n) (h : ¬ WrongOpcode cur f) :
    validateOpcode { s with header0 := f.first, nState := 1 } =
      .ok { s with
        header0 := f.first, nState := 1
        sCurrentMessage := { s.sCurrentMessage with nOpcode := messageOpcode cur f } } := by
  have hop : Receive.nOpcode { s with header0 := f.first, nState := 1 } = f.opcode := rfl
  have hcur := hs.opcode
  cases hkind : f.kind with
  | none => exact absurd (.reserved hkind) h
  | some kind =>
    simp only [validateOpcode, hop, f.kind_eq_some hkind, messageOpcode, hkind, ← hcur]
    cases kind with
    | start type =>
      cases cur with
      | none =>
        rw [hcur]
        cases type <;> rfl
      | some type' =>
        have heq : type' = type := by
          by_contra hne
          exact h (.start hkind rfl hne)
        have hop : s.sCurrentMessage.nOpcode = type.opcode := by rw [hcur, heq]; rfl
        have hcont : (s.sCurrentMessage.nOpcode == opcodeContinuation) = false := by
          rw [hop]
          cases type <;> rfl
        have hdata : (s.sCurrentMessage.nOpcode == opcodeText ||
            s.sCurrentMessage.nOpcode == opcodeBinary) = true := by
          rw [hop]
          cases type <;> rfl
        have hnone : (s.sCurrentMessage.nOpcode == opcodeNone) = false := by
          rw [hop]
          cases type <;> rfl
        simp only [FrameKind.opcode, ← hop, hcont, hdata, hnone, bne_self_eq_false, if_true]
        rfl
    | continuation =>
      cases cur with
      | none => exact absurd (.continuation hkind rfl) h
      | some type =>
        have hnone : (s.sCurrentMessage.nOpcode == opcodeNone) = false := by
          rw [hcur]
          cases type <;> rfl
        simp only [hnone]
        rfl
    | close => rfl
    | ping => rfl
    | pong => rfl

/-! ### A frame that is refused -/

/-- The header of a control frame with one of the longer forms is refused. -/
theorem headerByte_second_refused {s : Receive} {b : Byte} (hstate : s.nState = 1)
    (hle : ¬ b &&& 0x7F < 126) (hctl : s.isControl = true) :
    headerByte e s b = .error (.mxInvalidData, { s with header1 := b, nState := 2 }) := by
  simp only [headerByte, hstate, if_neg (show ¬ 1 = 0 by decide), if_true, Receive.nPayloadLen7]
  exact (if_neg hle).trans (if_pos hctl)

/-- A frame that is refused before its payload is read. -/
def StopsAt (e : ReceiveEnv) (s : Receive) (f : RawFrame) : Prop :=
  ∃ hRes t, feed (receiveByte e) s f.wire = .error (hRes, t) ∧ hRes.failed = true ∧
    t.events = s.events

theorem stopsAt_rsv {f : RawFrame} {s : Receive} (hstate : s.nState = 0) (hrsv : f.rsv ≠ 0) :
    StopsAt e s f :=
  ⟨_, _, feed_wire_refused hstate (headerByte_rsv hstate hrsv), rfl, rfl⟩

theorem stopsAt_wrongOpcode {nMax n : Nat} {f : RawFrame} {s : Receive}
    {cur : Option MessageType} (hs : Waiting nMax s cur n) (h : WrongOpcode cur f) :
    StopsAt e s f := by
  by_cases hrsv : f.rsv = 0
  · obtain ⟨hRes, hop⟩ := validateOpcode_wrong hs h
    have hfirst := (headerByte_opcode (e := e) hs.nState hrsv).trans hop
    exact ⟨_, _, feed_wire_refused hs.nState hfirst, headerByte_error hfirst, rfl⟩
  · exact stopsAt_rsv hs.nState hrsv

theorem RawFrame.second_long {f : RawFrame} (h : f.form ≠ .short) : ¬ f.second &&& 0x7F < 126 := by
  have hlen := f.second_spec.1
  intro hlt
  have hlt' := UInt8.lt_iff_toNat_lt.mp hlt
  rw [hlen] at hlt'
  cases hform : f.form with
  | short => exact h hform
  | medium =>
    rw [hform] at hlt'
    exact absurd hlt' (by decide : ¬ 126 < 126)
  | long =>
    rw [hform] at hlt'
    exact absurd hlt' (by decide : ¬ 127 < 126)

theorem RawFrame.length_lt (f : RawFrame) : f.payload.length < 2 ^ 64 := by
  refine Nat.lt_of_lt_of_le f.fits ?_
  cases f.form <;> decide

/-- A frame that is too long is refused. -/
theorem stopsAt_tooLong {n : Nat} {f : RawFrame} {s : Receive} {cur : Option MessageType}
    (hs : Waiting e.nMaxMessageSize.toNat s cur n) (h : TooLong e.nMaxMessageSize.toNat n f) :
    StopsAt e s f := by
  by_cases hrsv : f.rsv = 0
  · by_cases hwrong : WrongOpcode cur f
    · exact stopsAt_wrongOpcode hs hwrong
    · have hop := validateOpcode_right hs hwrong
      by_cases hctl : f.isControl = true ∧ f.form ≠ .short
      · obtain ⟨u, hu⟩ : ∃ u, u = { s with
            header0 := f.first, nState := 1
            sCurrentMessage := { s.sCurrentMessage with nOpcode := messageOpcode cur f } } :=
          ⟨_, rfl⟩
        rw [← hu] at hop
        have hstate : u.nState = 1 := by rw [hu]
        have hctl' : u.isControl = true := by rw [hu]; exact hctl.1
        have hsecond := headerByte_second_refused (e := e) hstate (f.second_long hctl.2) hctl'
        refine ⟨.mxInvalidData, { u with header1 := f.second, nState := 2 }, ?_, rfl, by rw [hu]⟩
        rw [RawFrame.wire, feed_header_cons (by rw [hs.nState]; decide),
          headerByte_first hs.nState hrsv hop, continueWith_ok (by omega),
          feed_header_cons (by omega), hsecond]
        rfl
      · have hform : f.isControl = true → f.form = .short := by
          intro hc
          by_contra hne
          exact hctl ⟨hc, hne⟩
        obtain ⟨content, hblocks, hlen⟩ := hs.blocks
        have htotal := hblocks.total
        have hle := hs.fits
        have hunfit := h.resolve_left hctl
        obtain ⟨hRes, hval, hfail⟩ := validateMessageLength_unfit (e := e)
          (s := f.headerDone s (messageOpcode cur f)) (by simp only [RawFrame.headerDone]; omega)
          f.length_lt (by simp only [RawFrame.headerDone]; omega)
        refine ⟨hRes, f.headerDone s (messageOpcode cur f), ?_, hfail, rfl⟩
        rw [RawFrame.feed_header hs.nState hrsv hop hform, hval]
        rfl
  · exact stopsAt_rsv hs.nState hrsv

/-- **A violation that is not missed is refused.** -/
theorem stopsAt_violation {n : Nat} {f : RawFrame} {s : Receive} {cur : Option MessageType}
    (hs : Waiting e.nMaxMessageSize.toNat s cur n) (h : Violation cur f) (hmissed : ¬ Missed cur f) :
    StopsAt e s f := by
  by_cases hrsv : f.rsv = 0
  · cases h with
    | rsv hne => exact absurd hrsv hne
    | opcode hkind => exact stopsAt_wrongOpcode hs (.reserved hkind)
    | continuation hkind hnone => exact stopsAt_wrongOpcode hs (.continuation hkind hnone)
    | @start type hkind hne =>
      obtain ⟨type', hsome⟩ := Option.ne_none_iff_exists'.mp hne
      refine stopsAt_wrongOpcode hs (.start hkind hsome ?_)
      rintro rfl
      exact hmissed ⟨hrsv, Or.inl ⟨type', hsome, hkind⟩⟩
    | @fin kind hkind hctl hfin => exact absurd ⟨hrsv, Or.inr ⟨kind, hkind, hctl, hfin⟩⟩ hmissed
    | @long kind hkind hctl hlen =>
      refine stopsAt_tooLong hs (Or.inl ⟨(f.isControl_of_kind hkind).trans hctl, ?_⟩)
      intro hform
      have hfits := f.fits
      rw [hform] at hfits
      exact absurd hlen (by simpa [LengthForm.limit] using Nat.le_of_lt_succ hfits)
  · exact stopsAt_rsv hs.nState hrsv

/-! ### A frame that is read -/

/-- A frame that is accepted is read to its end. -/
theorem feed_wire_right {n : Nat} {f : RawFrame} {s : Receive} {cur : Option MessageType}
    (hs : Waiting e.nMaxMessageSize.toNat s cur n) (hrsv : f.rsv = 0) (hright : ¬ WrongOpcode cur f)
    (hfits : ¬ TooLong e.nMaxMessageSize.toNat n f) :
    feed (receiveByte e) s f.wire =
      endFrame e (f.payload.foldl payloadByte (f.headerDone s (messageOpcode cur f))) := by
  obtain ⟨hform, hle⟩ := not_or.mp hfits
  have hform' : f.isControl = true → f.form = .short := by
    intro hc
    by_contra hne
    exact hform ⟨hc, hne⟩
  obtain ⟨content, hblocks, hlen⟩ := hs.blocks
  have htotal := hblocks.total
  have hdone : Blocks (f.headerDone s (messageOpcode cur f)) content :=
    hblocks.congr rfl rfl rfl rfl
  rw [RawFrame.feed_header hs.nState hrsv (validateOpcode_right hs hright) hform',
    validateMessageLength_fit (by simp only [RawFrame.headerDone]; omega)]
  exact continueWith_payload hdone.blockOpen rfl rfl

/-- The message a data frame belongs to. -/
theorem messageOpcode_data {f : RawFrame} {cur : Option MessageType} {kind : FrameKind}
    (hkind : f.kind = some kind) (hdata : kind.isControl = false) (hright : ¬ WrongOpcode cur f) :
    ∃ type : MessageType, messageOpcode cur f = type.opcode ∧
      f.next cur = if f.fin then none else some type := by
  rw [messageOpcode, RawFrame.next, hkind]
  cases kind with
  | start type => exact ⟨type, rfl, rfl⟩
  | continuation =>
    cases cur with
    | none => exact absurd (.continuation hkind rfl) hright
    | some type => exact ⟨type, rfl, rfl⟩
  | close => cases hdata
  | ping => cases hdata
  | pong => cases hdata

theorem total_data {f : RawFrame} {kind : FrameKind} (hkind : f.kind = some kind)
    (hdata : kind.isControl = false) (n : Nat) :
    f.total n = if f.fin then 0 else n + f.payload.length := by
  rw [RawFrame.total, hkind]
  cases kind with
  | start type => rfl
  | continuation => rfl
  | close => cases hdata
  | ping => cases hdata
  | pong => cases hdata

/-- **A data frame is added to the message in progress**, and ends it if it is final. -/
theorem feed_wire_data {n : Nat} {f : RawFrame} {s : Receive} {cur : Option MessageType}
    {kind : FrameKind} (hs : Waiting e.nMaxMessageSize.toNat s cur n) (hrsv : f.rsv = 0)
    (hkind : f.kind = some kind) (hdata : kind.isControl = false) (hright : ¬ WrongOpcode cur f)
    (hfits : ¬ TooLong e.nMaxMessageSize.toNat n f) :
    ∃ t, feed (receiveByte e) s f.wire = .ok t ∧
      Waiting e.nMaxMessageSize.toNat t (f.next cur) (f.total n) := by
  obtain ⟨type, htype, hnext⟩ := messageOpcode_data hkind hdata hright
  obtain ⟨content, hblocks, hlen⟩ := hs.blocks
  have hdone : Blocks (f.headerDone s (messageOpcode cur f)) content :=
    hblocks.congr rfl rfl rfl rfl
  have hctl : (f.headerDone s (messageOpcode cur f)).isControl = false :=
    (f.isControl_of_kind hkind).trans hdata
  have hfold := foldl_payloadByte f.payload hdone.blockOpen (Nat.le_refl f.payload.length)
  rw [hctl, if_neg (by decide)] at hfold
  obtain ⟨hread, hsame, -⟩ := blocks_foldl_dataByte f.payload hdone
  have hfeed := feed_wire_right hs hrsv hright hfits
  rw [hfold] at hfeed
  have hlen' : (content ++ unmaskFrom (f.headerDone s (messageOpcode cur f)) content.length
      f.payload).length = n + f.payload.length := by
    rw [List.length_append, length_unmaskFrom, hlen]
  generalize f.payload.foldl dataByte (f.headerDone s (messageOpcode cur f)) = u at *
  generalize content ++ unmaskFrom (f.headerDone s (messageOpcode cur f)) content.length
      f.payload = content' at hread hlen'
  have hctl' : u.isControl = false := by
    rw [Receive.isControl, Receive.nOpcode, hsame.header0]
    exact hctl
  have hfin : u.nFin = f.fin := by
    rw [Receive.nFin, hsame.header0]
    rfl
  have hop : u.sCurrentMessage.nOpcode = type.opcode := hsame.opcode.trans htype
  rw [hfeed, endFrame_data hctl', hfin, hnext, total_data hkind hdata]
  have hle := (not_or.mp hfits).2
  cases f.fin with
  | true =>
    obtain ⟨hempty, hnone, -, -⟩ := endMessageFrame_spec hread hop
    exact ⟨_, rfl, rfl, hnone, ⟨[], hempty.congr rfl rfl rfl rfl, rfl⟩, Nat.zero_le _⟩
  | false =>
    exact ⟨_, rfl, rfl, hop, ⟨content', hread.congr rfl rfl rfl rfl, hlen'⟩, by simpa using hle⟩

/-- The payload of a control frame leaves the message alone. -/
theorem feed_wire_control {n : Nat} {f : RawFrame} {s : Receive} {cur : Option MessageType}
    {kind : FrameKind} (hs : Waiting e.nMaxMessageSize.toNat s cur n) (hrsv : f.rsv = 0)
    (hkind : f.kind = some kind) (hcontrol : kind.isControl = true)
    (hfits : ¬ TooLong e.nMaxMessageSize.toNat n f) :
    ∃ t, feed (receiveByte e) s f.wire = endFrame e t ∧ t.nOpcode = kind.opcode ∧
      t.isControl = true ∧
      t.sCurrentMessage.nOpcode = (cur.map MessageType.opcode).getD opcodeNone ∧
      ∃ content, Blocks t content ∧ content.length = n := by
  have hright : ¬ WrongOpcode cur f := by
    intro h
    cases h with
    | reserved h => rw [hkind] at h; cases h
    | continuation h _ =>
      obtain rfl := Option.some.inj (hkind.symm.trans h)
      cases hcontrol
    | start h _ _ =>
      obtain rfl := Option.some.inj (hkind.symm.trans h)
      cases hcontrol
  have hopcode : messageOpcode cur f = (cur.map MessageType.opcode).getD opcodeNone := by
    rw [messageOpcode, hkind]
    cases kind with
    | start type => cases hcontrol
    | _ => rfl
  obtain ⟨content, hblocks, hlen⟩ := hs.blocks
  have hdone : Blocks (f.headerDone s (messageOpcode cur f)) content :=
    hblocks.congr rfl rfl rfl rfl
  have hctl : (f.headerDone s (messageOpcode cur f)).isControl = true :=
    (f.isControl_of_kind hkind).trans hcontrol
  have hfold := foldl_payloadByte f.payload hdone.blockOpen (Nat.le_refl f.payload.length)
  obtain ⟨control, hread⟩ := foldl_controlByte (l := f.payload)
    (s := f.headerDone s (messageOpcode cur f)) rfl
  rw [hctl, if_pos rfl, hread] at hfold
  refine ⟨_, feed_wire_right hs hrsv hright hfits, ?_⟩
  rw [hfold]
  exact ⟨f.kind_eq_some hkind, hctl, hopcode, content, hdone.congr rfl rfl rfl rfl, hlen⟩

/-- A ping or a pong. -/
theorem feed_wire_pingPong {n : Nat} {f : RawFrame} {s : Receive} {cur : Option MessageType}
    {kind : FrameKind} (hs : Waiting e.nMaxMessageSize.toNat s cur n) (hrsv : f.rsv = 0)
    (hkind : f.kind = some kind) (hcontrol : kind.isControl = true) (hclose : kind ≠ .close)
    (hfits : ¬ TooLong e.nMaxMessageSize.toNat n f) :
    ∃ t, feed (receiveByte e) s f.wire = .ok t ∧
      Waiting e.nMaxMessageSize.toNat t (f.next cur) (f.total n) := by
  obtain ⟨t, hfeed, hop, hctl, hopcode, content, hblocks, hlen⟩ :=
    feed_wire_control hs hrsv hkind hcontrol hfits
  have hne : (t.nOpcode == opcodeConnectionClose) = false := by
    rw [hop]
    cases kind with
    | start type => cases hcontrol
    | continuation => cases hcontrol
    | close => exact absurd rfl hclose
    | ping => rfl
    | pong => rfl
  have hsame : f.next cur = cur ∧ f.total n = n := by
    rw [RawFrame.next, RawFrame.total, hkind]
    cases kind with
    | start type => cases hcontrol
    | continuation => cases hcontrol
    | _ => exact ⟨rfl, rfl⟩
  rw [hfeed, hsame.1, hsame.2]
  simp only [endFrame, hctl, hne, Bool.and_false, if_true]
  refine ⟨_, rfl, rfl, ?_, ⟨content, ?_, hlen⟩, hs.fits⟩
  · split_ifs <;> exact hopcode
  · split_ifs <;> exact hblocks.congr rfl rfl rfl rfl

/-- A close frame ends the call without an error. -/
theorem feed_wire_close {n : Nat} {f : RawFrame} {s : Receive} {cur : Option MessageType}
    (hs : Waiting e.nMaxMessageSize.toNat s cur n) (hrsv : f.rsv = 0)
    (hkind : f.kind = some .close) (hfits : ¬ TooLong e.nMaxMessageSize.toNat n f) :
    ∃ t, feed (receiveByte e) s f.wire = .error (.sOk, t) := by
  obtain ⟨t, hfeed, hop, hctl, -⟩ := feed_wire_control hs hrsv hkind rfl hfits
  have hclose : (t.nOpcode == opcodeConnectionClose) = true := by rw [hop]; rfl
  rw [hfeed, endFrame, hctl, hclose, if_pos rfl]
  exact ⟨_, rfl⟩

/-- A frame that keeps the rules has an opcode the socket accepts. -/
theorem conforming_spec {f : RawFrame} {cur : Option MessageType} (h : ¬ Violation cur f) :
    f.rsv = 0 ∧ (∃ kind, f.kind = some kind) ∧ ¬ WrongOpcode cur f := by
  refine ⟨by_contra fun hne => h (.rsv hne), ?_, ?_⟩
  · cases hkind : f.kind with
    | none => exact absurd (.opcode hkind) h
    | some kind => exact ⟨kind, rfl⟩
  · intro hwrong
    cases hwrong with
    | reserved hkind => exact h (.opcode hkind)
    | continuation hkind hnone => exact h (.continuation hkind hnone)
    | start hkind hsome _ => exact h (.start hkind (by simp [hsome]))

/-- A frame that is accepted, unless it is a close frame. -/
theorem feed_wire_accepted {n : Nat} {f : RawFrame} {s : Receive} {cur : Option MessageType}
    (hs : Waiting e.nMaxMessageSize.toNat s cur n) (hrsv : f.rsv = 0)
    (hkind : ∃ kind, f.kind = some kind) (hright : ¬ WrongOpcode cur f)
    (hclose : f.kind ≠ some .close) (hfits : ¬ TooLong e.nMaxMessageSize.toNat n f) :
    ∃ t, feed (receiveByte e) s f.wire = .ok t ∧
      Waiting e.nMaxMessageSize.toNat t (f.next cur) (f.total n) := by
  obtain ⟨kind, hkind⟩ := hkind
  cases hctl : kind.isControl with
  | true =>
    refine feed_wire_pingPong hs hrsv hkind hctl ?_ hfits
    rintro rfl
    exact hclose hkind
  | false => exact feed_wire_data hs hrsv hkind hctl hright hfits

/-! ### Frames one after the other -/

/-- What is to be shown of frames that keep the rules: they are read, unless one of
them is refused for its length or closes the socket. -/
def Reads (e : ReceiveEnv) (s : Receive) (cur : Option MessageType) (n : Nat)
    (frames : List RawFrame) : Prop :=
  (Stops e.nMaxMessageSize.toNat n frames ∧
      ∃ hRes t, feed (receiveByte e) s (frames.flatMap RawFrame.wire) = .error (hRes, t) ∧
        hRes.failed = true) ∨
  (¬ Stops e.nMaxMessageSize.toNat n frames ∧ (∃ f ∈ frames, f.kind = some .close) ∧
      ∃ t, feed (receiveByte e) s (frames.flatMap RawFrame.wire) = .error (.sOk, t)) ∨
  (¬ Stops e.nMaxMessageSize.toNat n frames ∧ (∀ f ∈ frames, f.kind ≠ some .close) ∧
      ∃ t, feed (receiveByte e) s (frames.flatMap RawFrame.wire) = .ok t ∧
        Waiting e.nMaxMessageSize.toNat t (openAfter cur frames) (frames.foldl RawFrame.total n))

/-- A frame that is read, before frames that keep the rules. -/
theorem reads_cons {n : Nat} {f : RawFrame} {frames : List RawFrame} {s t : Receive}
    {cur : Option MessageType} (hfits : ¬ TooLong e.nMaxMessageSize.toNat n f)
    (hclose : f.kind ≠ some .close) (hfeed : feed (receiveByte e) s f.wire = .ok t)
    (hrest : Reads e t (f.next cur) (f.total n) frames) : Reads e s cur n (f :: frames) := by
  have hstops : Stops e.nMaxMessageSize.toNat n (f :: frames) ↔
      Stops e.nMaxMessageSize.toNat (f.total n) frames :=
    ⟨fun h => (h.resolve_left hfits).2, fun h => Or.inr ⟨hclose, h⟩⟩
  rw [Reads, List.flatMap_cons, feed_append hfeed, hstops]
  rcases hrest with h | ⟨hno, ⟨g, hg, hkind⟩, h⟩ | ⟨hno, hall, h⟩
  · exact Or.inl h
  · exact Or.inr (Or.inl ⟨hno, ⟨g, List.mem_cons_of_mem f hg, hkind⟩, h⟩)
  · exact Or.inr (Or.inr ⟨hno, List.forall_mem_cons.mpr ⟨hclose, hall⟩, h⟩)

theorem reads_of_conforms (frames : List RawFrame) : ∀ {s : Receive} {cur : Option MessageType}
    {n : Nat}, Waiting e.nMaxMessageSize.toNat s cur n → Conforms cur frames →
    Reads e s cur n frames := by
  induction frames with
  | nil =>
    intro s cur n hs _
    exact Or.inr (Or.inr ⟨id, fun f hf => absurd hf List.not_mem_nil, s, rfl, hs⟩)
  | cons f frames ih =>
    intro s cur n hs hconforms
    obtain ⟨hf, hrest⟩ := hconforms
    obtain ⟨hrsv, hkind, hright⟩ := conforming_spec hf
    by_cases hlong : TooLong e.nMaxMessageSize.toNat n f
    · obtain ⟨hRes, t, hfeed, hfail, -⟩ := stopsAt_tooLong hs hlong
      rw [Reads, List.flatMap_cons, feed_append_error hfeed]
      exact Or.inl ⟨Or.inl hlong, hRes, t, rfl, hfail⟩
    · by_cases hclose : f.kind = some .close
      · obtain ⟨t, hfeed⟩ := feed_wire_close hs hrsv hclose hlong
        rw [Reads, List.flatMap_cons, feed_append_error hfeed]
        refine Or.inr (Or.inl ⟨?_, ⟨f, List.mem_cons_self, hclose⟩, t, rfl⟩)
        exact fun h => (h.resolve_left hlong).1 hclose
      · obtain ⟨t, hfeed, ht⟩ := feed_wire_accepted hs hrsv hkind hright hclose hlong
        exact reads_cons hlong hclose hfeed (ih ht hrest)

/-- A frame after the others is refused for its length if it is too long. -/
theorem stops_append (nMax : Nat) (frames : List RawFrame) (f : RawFrame) : ∀ n,
    Stops nMax n (frames ++ [f]) ↔ Stops nMax n frames ∨
      (∀ g ∈ frames, g.kind ≠ some .close) ∧ TooLong nMax (frames.foldl RawFrame.total n) f := by
  induction frames with
  | nil =>
    intro n
    simp [Stops]
  | cons g frames ih =>
    intro n
    simp only [List.cons_append, Stops, ih, List.forall_mem_cons, List.foldl_cons]
    by_cases hlong : TooLong nMax n g
    · simp [hlong]
    · by_cases hclose : g.kind = some .close
      · simp [hlong, hclose]
      · simp [hlong, hclose]

/-- A missed violation is accepted. -/
theorem missed_spec {f : RawFrame} {cur : Option MessageType} (h : Missed cur f) :
    f.rsv = 0 ∧ (∃ kind, f.kind = some kind) ∧ ¬ WrongOpcode cur f := by
  obtain ⟨hrsv, ⟨type, hcur, hkind⟩ | ⟨kind, hkind, hctl, -⟩⟩ := h
  · refine ⟨hrsv, ⟨_, hkind⟩, fun hwrong => ?_⟩
    cases hwrong with
    | reserved hk => rw [hkind] at hk; cases hk
    | continuation hk _ => rw [hkind] at hk; cases hk
    | start hk hsome hne =>
      rw [hkind] at hk
      rw [hcur] at hsome
      cases hk
      cases hsome
      exact hne rfl
  · refine ⟨hrsv, ⟨_, hkind⟩, fun hwrong => ?_⟩
    cases hwrong with
    | reserved hk => rw [hkind] at hk; cases hk
    | continuation hk _ =>
      rw [hkind] at hk
      cases hk
      cases hctl
    | start hk _ _ =>
      rw [hkind] at hk
      cases hk
      cases hctl

/-- What a way of receiving a stream ends with. -/
theorem receive_eq_outcome {stream : List Byte} (d : Delivery stream)
    (memory : Nat → Nat → Byte) :
    d.receive e (.create memory) = outcome (feed (receiveByte e) (.create memory) stream) := by
  rw [Delivery.receive, receiveAllBy_eq d.size_pos d.chunks 0 (ready_create memory),
    d.flatten_chunks]
  cases feed (receiveByte e) (.create memory) stream <;> rfl

/-- A frame is refused when the machine fails on it, or before it. -/
theorem refused_of_error {memory : Nat → Nat → Byte} {frames : List RawFrame} {f : RawFrame}
    {hRes : HResult} {t : Receive}
    (hfeed : feed (receiveByte e) (.create memory) ((frames ++ [f]).flatMap RawFrame.wire) =
      .error (hRes, t)) (hfail : hRes.failed = true)
    (hevents : t.events = (outcome
      (feed (receiveByte e) (.create memory) (frames.flatMap RawFrame.wire))).2.events) :
    Refused e memory frames f := by
  intro rest d d'
  rw [receive_eq_outcome, receive_eq_outcome, feed_append_error hfeed, ← hevents]
  exact ⟨hfail, rfl⟩

theorem failed_of_refused {memory : Nat → Nat → Byte} {frames : List RawFrame} {f : RawFrame}
    (h : Refused e memory frames f) :
    (outcome (feed (receiveByte e) (.create memory)
      ((frames ++ [f]).flatMap RawFrame.wire))).1.failed = true := by
  have hwhole := (h [] (.whole _) (.whole _)).1
  rw [receive_eq_outcome, List.append_nil] at hwhole
  exact hwhole

/-- **A frame that breaks the rules, the first to do so, is refused exactly when** one
of the frames up to it is too long, or no close frame is before it and it is neither a
control frame without the final bit nor a text or binary frame with the opcode of the
message in progress. -/
theorem refused_iff (e : ReceiveEnv) (memory : Nat → Nat → Byte) (frames : List RawFrame)
    (f : RawFrame) (hframes : Conforms none frames) (hf : Violation (openAfter none frames) f) :
    Refused e memory frames f ↔
      Stops e.nMaxMessageSize.toNat 0 (frames ++ [f]) ∨
        (∀ g ∈ frames, g.kind ≠ some .close) ∧ ¬ Missed (openAfter none frames) f := by
  have happend : (frames ++ [f]).flatMap RawFrame.wire =
      frames.flatMap RawFrame.wire ++ f.wire := by
    rw [List.flatMap_append, List.flatMap_singleton]
  rw [stops_append]
  rcases reads_of_conforms (e := e) frames (waiting_create _ memory) hframes with
    ⟨hstops, hRes, t, hfeed, hfail⟩ | ⟨hno, ⟨g, hg, hclose⟩, t, hfeed⟩ |
    ⟨hno, hall, s, hfeed, hs⟩
  · -- a frame before it is too long
    have hfeed' := feed_append_error hfeed f.wire
    rw [← happend] at hfeed'
    exact ⟨fun _ => Or.inl (Or.inl hstops),
      fun _ => refused_of_error hfeed' hfail (by rw [hfeed]; rfl)⟩
  · -- the socket is closed by a frame before it
    constructor
    · intro h
      have hfail := failed_of_refused h
      rw [happend, feed_append_error hfeed] at hfail
      cases hfail
    · rintro ((h | h) | h)
      · exact absurd h hno
      · exact absurd hclose (h.1 g hg)
      · exact absurd hclose (h.1 g hg)
  · have hstop : StopsAt e s f → Refused e memory frames f := by
      rintro ⟨hRes, t, hwire, hfail, hevents⟩
      refine refused_of_error (t := t) ?_ hfail ?_
      · rw [happend, feed_append hfeed, hwire]
      · rw [hfeed]
        exact hevents
    by_cases hlong : TooLong e.nMaxMessageSize.toNat (frames.foldl RawFrame.total 0) f
    · exact ⟨fun _ => Or.inl (Or.inr ⟨hall, hlong⟩), fun _ => hstop (stopsAt_tooLong hs hlong)⟩
    · by_cases hmissed : Missed (openAfter none frames) f
      · -- it is read
        obtain ⟨hrsv, hkind, hright⟩ := missed_spec hmissed
        have hread : (outcome (feed (receiveByte e) s f.wire)).1.failed = false := by
          by_cases hclose : f.kind = some .close
          · obtain ⟨t, hwire⟩ := feed_wire_close hs hrsv hclose hlong
            rw [hwire]
            rfl
          · obtain ⟨t, hwire, -⟩ := feed_wire_accepted hs hrsv hkind hright hclose hlong
            rw [hwire]
            rfl
        constructor
        · intro h
          have hfail := failed_of_refused h
          rw [happend, feed_append hfeed, hread] at hfail
          cases hfail
        · rintro ((h | h) | h)
          · exact absurd h hno
          · exact absurd h.2 hlong
          · exact absurd hmissed h.2
      · exact ⟨fun _ => Or.inr ⟨hall, hmissed⟩,
          fun _ => hstop (stopsAt_violation hs hf hmissed)⟩

end Violations

/-- A continuation frame with no message in progress, on a server. -/
def strayContinuation : RawFrame := ⟨0x80, .short, none, ascii "a", by decide⟩

theorem refused_strayContinuation : Refused serverEnv (fun _ _ => 0) [] strayContinuation :=
  (refused_iff serverEnv (fun _ _ => 0) [] strayContinuation trivial
    (.continuation (by decide) rfl)).mpr
    (Or.inr ⟨fun g hg => absurd hg List.not_mem_nil, by
      rintro ⟨-, ⟨type, hcur, -⟩ | ⟨kind, hkind, hctl, -⟩⟩
      · cases hcur
      · rw [show strayContinuation.kind = some .continuation by decide] at hkind
        cases hkind
        cases hctl⟩)

/-- A text frame that is not final, and a final text frame. -/
def textStart : RawFrame := ⟨0x01, .short, none, ascii "a", by decide⟩

def textAgain : RawFrame := ⟨0x81, .short, none, ascii "b", by decide⟩

/-- The second text frame passes for a continuation of the first. -/
theorem textAgain_delivered :
    Conforms none [textStart] ∧ Violation (openAfter none [textStart]) textAgain ∧
      ((Delivery.whole ([textStart, textAgain].flatMap RawFrame.wire)).receive serverEnv
        (.create fun _ _ => 0)).1 = .sOk ∧
      messages ((Delivery.whole ([textStart, textAgain].flatMap RawFrame.wire)).receive serverEnv
        (.create fun _ _ => 0)).2.events = [(.text, ascii "ab")] ∧
      ¬ Refused serverEnv (fun _ _ => 0) [textStart] textAgain := by
  have hstart : textStart.kind = some (.start .text) := by decide
  have hconforms : ¬ Violation none textStart := by
    intro h
    cases h with
    | rsv hrsv => exact hrsv (by decide)
    | opcode hkind => rw [hstart] at hkind; cases hkind
    | continuation hkind _ => rw [hstart] at hkind; cases hkind
    | start _ hcur => exact hcur rfl
    | fin hkind hctl _ =>
      rw [hstart] at hkind
      cases hkind
      cases hctl
    | long hkind hctl _ =>
      rw [hstart] at hkind
      cases hkind
      cases hctl
  have hagain : textAgain.kind = some (.start .text) := by decide
  rw [receive_eq_outcome]
  refine ⟨⟨hconforms, trivial⟩, .start hagain (by decide), ?_, ?_, fun h => ?_⟩
  · decide
  · decide
  · exact absurd (failed_of_refused h) (by decide)

end MxLib.Http.WebSockets
