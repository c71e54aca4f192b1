import MxLib.Http.WebSockets.Receive
import MxLib.Library.Stream

/-!
# The receiver byte by byte

`OnSocketDataReceived` copies the payload in pieces, as large as the bytes it has,
the block and the frame allow.  Byte by byte the receiver is a machine with one
step, `receiveByte`, and a call is this machine on all the bytes that are buffered
(`onSocketDataReceivedBy_eq`): neither the number of bytes `GetBufferedMessage`
returns nor the way the bytes arrive make a difference (`receiveAllBy_eq`,
`delivery_irrelevant`).
-/

namespace MxLib.Http.WebSockets

open MxLib.Library MxLib.Library.Stream

section Bytes

variable (e : ReceiveEnv)

/-- One byte of a data frame. -/
def dataByte (s : Receive) (b : Byte) : Receive := copyToBlock (provideBlock s) [b]

/-- One byte of a control frame. -/
def controlByte (s : Receive) (b : Byte) : Receive := (readControl s [b]).1

def payloadByte (s : Receive) (b : Byte) : Receive :=
  if s.isControl then controlByte s b else dataByte s b

/-- The end of the frame, if its payload is complete. -/
def settle (s : Receive) : Except Stop Receive :=
  if s.nState < 16 then .ok s else if s.nPayloadLen = 0 then endFrame e s else .ok s

/-- One byte. -/
def receiveByte (s : Receive) (b : Byte) : Except Stop Receive :=
  if s.nState < 16 then
    match headerByte e s b with
    | .ok s => settle e s
    | .error r => .error r
  else settle e (payloadByte s b)

variable {e}

/-- A receiver between two bytes: a payload that is being read is not complete, and
the block it is written to is not full. -/
structure Ready (s : Receive) : Prop where
  payload : s.nState < 16 ∨ 0 < s.nPayloadLen
  block : s.sCurrentMessage.lpData ≠ none →
    s.sCurrentMessage.nFilledFrame < receiveDataBlockSize

theorem ready_create (memory : Nat → Nat → Byte) : Ready (.create memory) :=
  ⟨Or.inl (show 0 < 16 by decide), fun h => absurd rfl h⟩

theorem settle_of_lt {s : Receive} (h : s.nState < 16) : settle e s = .ok s := by
  rw [settle, if_pos h]

theorem settle_of_pos {s : Receive} (h : 0 < s.nPayloadLen) : settle e s = .ok s := by
  rw [settle]
  split
  · rfl
  · rw [if_neg (by omega)]

/-! ### Copies in one piece and byte by byte -/

theorem memCopy_cons (buf : Nat → Byte) (n : Nat) (b : Byte) (l : List Byte) :
    memCopy buf n (b :: l) = memCopy (memCopy buf n [b]) (n + 1) l := by
  funext k
  simp only [memCopy, List.length_cons, List.length_nil]
  by_cases hk : k = n
  · subst hk
    rw [if_pos (by omega), if_neg (by omega), if_pos (by omega), Nat.sub_self]
    rfl
  · by_cases hlt : n ≤ k ∧ k < n + (l.length + 1)
    · obtain ⟨j, rfl⟩ : ∃ j, k = n + 1 + j := ⟨k - (n + 1), by omega⟩
      rw [if_pos hlt, if_pos (by omega), show n + 1 + j - n = j + 1 by omega,
        show n + 1 + j - (n + 1) = j by omega, List.getD_cons_succ]
    · rw [if_neg hlt, if_neg (by omega), if_neg (by omega)]

theorem unmaskFrom_cons (s : Receive) (n : Nat) (b : Byte) (l : List Byte) :
    unmaskFrom s n (b :: l) = unmaskFrom s n [b] ++ unmaskFrom s (n + 1) l := by
  simp only [unmaskFrom]
  split
  · rfl
  · rfl

@[simp] theorem length_unmaskFrom (s : Receive) (n : Nat) (l : List Byte) :
    (unmaskFrom s n l).length = l.length := by
  simp only [unmaskFrom]
  split <;> simp

/-- The byte as it is stored. -/
def unmaskByte (s : Receive) (n : Nat) (b : Byte) : Byte :=
  if s.nMask then b ^^^ s.uMasking.at n else b

theorem unmaskFrom_singleton (s : Receive) (n : Nat) (b : Byte) :
    unmaskFrom s n [b] = [unmaskByte s n b] := by
  simp only [unmaskFrom, unmaskByte]
  split <;> rfl

/-- Two copies to a block that is not full after the first are one copy. -/
theorem copyToBlock_cons {s : Receive} {blk n : Nat} (hblk : s.sCurrentMessage.lpData = some (blk, n))
    (b : Byte) (l : List Byte)
    (hfit : s.sCurrentMessage.nFilledFrame + 1 < receiveDataBlockSize) :
    copyToBlock s (b :: l) = copyToBlock (copyToBlock s [b]) l := by
  have hne : ¬ s.sCurrentMessage.nFilledFrame + 1 = receiveDataBlockSize := by omega
  simp only [copyToBlock, hblk, List.length_cons, List.length_nil, Nat.zero_add, if_neg hne]
  have hmem : (fun k => if k = blk then memCopy (s.memory k) n
        (unmaskFrom s s.sCurrentMessage.nFilledFrame (b :: l)) else s.memory k) =
      fun k => if k = blk then memCopy (if k = blk then memCopy (s.memory k) n
        (unmaskFrom s s.sCurrentMessage.nFilledFrame [b]) else s.memory k) (n + 1)
        (unmaskFrom s (s.sCurrentMessage.nFilledFrame + 1) l)
        else if k = blk then memCopy (s.memory k) n
          (unmaskFrom s s.sCurrentMessage.nFilledFrame [b]) else s.memory k := by
    funext k
    by_cases hk : k = blk
    · simp only [if_pos hk]
      rw [unmaskFrom_cons, unmaskFrom_singleton, List.singleton_append, memCopy_cons]
    · simp only [if_neg hk]
  have hlen : s.nPayloadLen - (l.length + 1) = s.nPayloadLen - 1 - l.length := by omega
  have hadd : ∀ a : Nat, a + (l.length + 1) = a + 1 + l.length := fun a => by omega
  rw [hmem, hlen]
  simp only [hadd]
  rfl

/-- Where a byte of a data frame goes. -/
theorem provideBlock_of_some {s : Receive} {p : Nat × Nat} (h : s.sCurrentMessage.lpData = some p) :
    provideBlock s = s := by
  rw [provideBlock, h]

theorem exists_lpData_provideBlock (s : Receive) :
    ∃ p, (provideBlock s).sCurrentMessage.lpData = some p := by
  cases h : s.sCurrentMessage.lpData with
  | some p => exact ⟨p, by rw [provideBlock_of_some h, h]⟩
  | none =>
    refine ⟨((getReceiveBufferFromCache s).1, 0), ?_⟩
    rw [provideBlock, h]

theorem dataByte_provideBlock (s : Receive) (b : Byte) : dataByte (provideBlock s) b = dataByte s b := by
  obtain ⟨p, hp⟩ := exists_lpData_provideBlock s
  rw [dataByte, dataByte, provideBlock_of_some hp]

theorem nPayloadLen_provideBlock (s : Receive) :
    (provideBlock s).nPayloadLen = s.nPayloadLen ∧ (provideBlock s).nState = s.nState ∧
      (provideBlock s).header0 = s.header0 := by
  rw [provideBlock]
  cases s.sCurrentMessage.lpData with
  | some p => exact ⟨rfl, rfl, rfl⟩
  | none =>
    dsimp only
    rw [getReceiveBufferFromCache]
    cases s.sReceiveCache.getLast? <;> exact ⟨rfl, rfl, rfl⟩

/-- The block a data frame is written to is not full. -/
def BlockOpen (s : Receive) : Prop :=
  s.sCurrentMessage.lpData ≠ none → s.sCurrentMessage.nFilledFrame < receiveDataBlockSize

theorem filled_provideBlock {s : Receive} (h : BlockOpen s) :
    (provideBlock s).sCurrentMessage.nFilledFrame < receiveDataBlockSize := by
  cases hp : s.sCurrentMessage.lpData with
  | some p => rw [provideBlock_of_some hp]; exact h (by simp [hp])
  | none =>
    rw [provideBlock, hp]
    simp [receiveDataBlockSize]

theorem copyToBlock_spec {s : Receive} {blk n : Nat}
    (hblk : s.sCurrentMessage.lpData = some (blk, n)) (l : List Byte)
    (hle : s.sCurrentMessage.nFilledFrame + l.length ≤ receiveDataBlockSize) :
    BlockOpen (copyToBlock s l) ∧ (copyToBlock s l).nPayloadLen = s.nPayloadLen - l.length ∧
      (copyToBlock s l).nState = s.nState ∧ (copyToBlock s l).header0 = s.header0 := by
  simp only [copyToBlock, hblk]
  refine ⟨?_, trivial, trivial, trivial⟩
  intro hne
  have hfull : ¬ s.sCurrentMessage.nFilledFrame + l.length = receiveDataBlockSize := by
    intro hfull
    exact hne (if_pos hfull)
  dsimp only
  omega

/-- **A piece that fits in the block is copied as its bytes are.** -/
theorem copyToBlock_eq_foldl (l : List Byte) : ∀ {s : Receive} {blk n : Nat} (b : Byte),
    s.sCurrentMessage.lpData = some (blk, n) →
    s.sCurrentMessage.nFilledFrame + (b :: l).length ≤ receiveDataBlockSize →
    copyToBlock s (b :: l) = (b :: l).foldl dataByte s := by
  induction l with
  | nil =>
    intro s blk n b hblk _
    rw [List.foldl_cons, List.foldl_nil, dataByte, provideBlock_of_some hblk]
  | cons c l ih =>
    intro s blk n b hblk hle
    simp only [List.length_cons] at hle
    have hfit : s.sCurrentMessage.nFilledFrame + 1 < receiveDataBlockSize := by omega
    have hnext : (copyToBlock s [b]).sCurrentMessage.lpData = some (blk, n + 1) ∧
        (copyToBlock s [b]).sCurrentMessage.nFilledFrame =
          s.sCurrentMessage.nFilledFrame + 1 := by
      simp only [copyToBlock, hblk, List.length_cons, List.length_nil, Nat.zero_add]
      rw [if_neg (by omega)]
      exact ⟨rfl, trivial⟩
    rw [copyToBlock_cons hblk b (c :: l) hfit, List.foldl_cons, dataByte,
      provideBlock_of_some hblk]
    exact ih c hnext.1 (by rw [hnext.2, List.length_cons]; omega)

theorem dataTurn_spec {s : Receive} (hs : BlockOpen s) {lpMsg : List Byte} (hne : lpMsg ≠ [])
    (hpos : 0 < s.nPayloadLen) :
    ∃ k, 0 < k ∧ k ≤ lpMsg.length ∧ k ≤ s.nPayloadLen ∧
      dataTurn (s, lpMsg) = .inl ((lpMsg.take k).foldl dataByte s, lpMsg.drop k) ∧
      BlockOpen ((lpMsg.take k).foldl dataByte s) ∧
      ((lpMsg.take k).foldl dataByte s).nPayloadLen = s.nPayloadLen - k := by
  obtain ⟨⟨blk, n⟩, hblk⟩ := exists_lpData_provideBlock s
  have hlt := filled_provideBlock hs
  obtain ⟨hlen, -, -⟩ := nPayloadLen_provideBlock s
  obtain ⟨k, hk⟩ : ∃ k, k = min (min (receiveDataBlockSize -
    (provideBlock s).sCurrentMessage.nFilledFrame) lpMsg.length) s.nPayloadLen := ⟨_, rfl⟩
  have hmsg : 0 < lpMsg.length := List.length_pos_iff.mpr hne
  obtain ⟨b, l, hbl⟩ : ∃ b l, lpMsg.take k = b :: l := by
    cases htake : lpMsg.take k with
    | nil =>
      have hzero := congrArg List.length htake
      rw [List.length_take, List.length_nil] at hzero
      omega
    | cons b l => exact ⟨b, l, rfl⟩
  have hbl' : (b :: l).length = k := by
    rw [← hbl, List.length_take]
    omega
  have hfold : copyToBlock (provideBlock s) (b :: l) = (b :: l).foldl dataByte s := by
    rw [copyToBlock_eq_foldl l b hblk (by omega), List.foldl_cons, List.foldl_cons,
      dataByte_provideBlock]
  obtain ⟨hopen, hpay, -, -⟩ := copyToBlock_spec hblk (b :: l) (by omega)
  rw [hfold] at hopen hpay
  have hgo : ¬ (lpMsg = [] ∨ s.nPayloadLen = 0) := by
    rintro (h | h)
    · exact hne h
    · omega
  refine ⟨k, by omega, by omega, by omega, ?_, ?_, ?_⟩
  · simp only [dataTurn]
    rw [if_neg hgo, hlen, ← hk, hbl, hfold]
  · rw [hbl]
    exact hopen
  · rw [hbl, hpay, hlen, hbl']

theorem dataTurn_measure (c c' : Receive × List Byte) (hc : BlockOpen c.1)
    (h : dataTurn c = .inl c') : BlockOpen c'.1 ∧ c'.2.length < c.2.length := by
  obtain ⟨s, lpMsg⟩ := c
  by_cases hstop : lpMsg = [] ∨ s.nPayloadLen = 0
  · simp only [dataTurn, if_pos hstop] at h
    cases h
  · obtain ⟨hne, hpos⟩ := not_or.mp hstop
    obtain ⟨k, hk, hle, -, hturn, hopen, -⟩ := dataTurn_spec (s := s) hc hne (by omega)
    rw [hturn] at h
    obtain rfl := Sum.inl.inj h
    refine ⟨hopen, ?_⟩
    dsimp only
    rw [List.length_drop]
    omega

/-- **The payload of a data frame is copied byte by byte**, as far as there are
bytes and the frame goes. -/
theorem exec_dataTurn (m : Nat) : ∀ {s : Receive} (lpMsg : List Byte) (dflt : Receive × List Byte),
    lpMsg.length ≤ m → BlockOpen s →
    Loop.exec dataTurn (fun c => c.2.length) dflt (s, lpMsg) =
      ((lpMsg.take s.nPayloadLen).foldl dataByte s, lpMsg.drop s.nPayloadLen) := by
  induction m with
  | zero =>
    intro s lpMsg dflt hm hs
    obtain rfl := List.length_eq_zero_iff.mp (Nat.le_zero.mp hm)
    rw [Loop.exec_inr dflt (by simp [dataTurn] : _ = Sum.inr (s, []))]
    simp
  | succ m ih =>
    intro s lpMsg dflt hm hs
    by_cases hstop : lpMsg = [] ∨ s.nPayloadLen = 0
    · rw [Loop.exec_inr dflt
        (by simp only [dataTurn, if_pos hstop] : _ = Sum.inr (s, lpMsg))]
      rcases hstop with rfl | hzero
      · simp
      · simp [hzero]
    · obtain ⟨hne, hpos⟩ := not_or.mp hstop
      obtain ⟨k, hk, hle, hkp, hturn, hopen, hpay⟩ := dataTurn_spec hs hne (by omega)
      rw [Loop.exec_inl_of dataTurn_measure dflt hs hturn,
        ih _ dflt (by rw [List.length_drop]; omega) hopen, hpay, ← List.foldl_append,
        List.drop_drop, Nat.add_sub_cancel' hkp]
      congr 2
      rw [← List.take_add, Nat.add_sub_cancel' hkp]

/-! ### Control frames -/

theorem memCopy_nil (buf : Nat → Byte) (n : Nat) : memCopy buf n [] = buf := by
  funext k
  rw [memCopy, if_neg (by simp only [List.length_nil]; omega)]

theorem readControl_nil (s : Receive) : readControl s [] = (s, []) := by
  simp only [readControl, List.length_nil, Nat.min_zero, List.take_nil, unmaskFrom]
  split <;> simp [MaskKey.apply, memCopy_nil]

theorem readControl_zero {s : Receive} (h : s.nPayloadLen = 0) (l : List Byte) :
    readControl s l = (s, l) := by
  have hdata : unmaskFrom s s.sCurrentControlFrame.nFilledFrame [] = [] := by
    simp only [unmaskFrom]
    split <;> rfl
  have hs : { s with nPayloadLen := 0 } = s := by
    rw [← h]
  simp only [readControl, h, Nat.zero_min, List.take_zero, hdata, memCopy_nil, Nat.add_zero,
    Nat.sub_zero, List.drop_zero, hs]

/-- **The payload of a control frame is copied byte by byte.** -/
theorem readControl_cons {s : Receive} (hpos : 0 < s.nPayloadLen) (b : Byte) (l : List Byte) :
    readControl s (b :: l) = readControl (controlByte s b) l := by
  obtain ⟨k, hk⟩ : ∃ k, k = min (s.nPayloadLen - 1) l.length := ⟨_, rfl⟩
  have hone : min s.nPayloadLen 1 = 1 := by omega
  have hmin : min s.nPayloadLen (l.length + 1) = k + 1 := by omega
  have hsub : s.nPayloadLen - (k + 1) = s.nPayloadLen - 1 - k := by omega
  have hadd : s.sCurrentControlFrame.nFilledFrame + (k + 1) =
      s.sCurrentControlFrame.nFilledFrame + 1 + k := by omega
  simp only [controlByte, readControl, List.length_cons, List.length_nil, Nat.zero_add, hone, hmin,
    ← hk, List.take_succ_cons, List.take_zero, List.drop_succ_cons, hsub, hadd]
  rw [unmaskFrom_cons, unmaskFrom_singleton, List.singleton_append, memCopy_cons]
  rfl

theorem readControl_eq (l : List Byte) : ∀ (s : Receive),
    readControl s l =
      ((l.take s.nPayloadLen).foldl controlByte s, l.drop s.nPayloadLen) := by
  induction l with
  | nil =>
    intro s
    rw [readControl_nil, List.take_nil, List.drop_nil, List.foldl_nil]
  | cons b l ih =>
    intro s
    by_cases hzero : s.nPayloadLen = 0
    · rw [readControl_zero hzero, hzero, List.take_zero, List.drop_zero, List.foldl_nil]
    · obtain ⟨n, hn⟩ : ∃ n, s.nPayloadLen = n + 1 := ⟨s.nPayloadLen - 1, by omega⟩
      have hnext : (controlByte s b).nPayloadLen = n := by
        simp only [controlByte, readControl, List.length_cons, List.length_nil]
        omega
      rw [readControl_cons (by omega), ih, hnext, hn, List.take_succ_cons, List.drop_succ_cons,
        List.foldl_cons]

/-! ### The payload as bytes of the machine -/

theorem payloadByte_spec {s : Receive} (hs : BlockOpen s) (hpos : 0 < s.nPayloadLen) (b : Byte) :
    BlockOpen (payloadByte s b) ∧ (payloadByte s b).nPayloadLen = s.nPayloadLen - 1 ∧
      (payloadByte s b).nState = s.nState ∧ (payloadByte s b).isControl = s.isControl := by
  rw [payloadByte]
  split
  · simp only [controlByte, readControl, List.length_cons, List.length_nil]
    exact ⟨hs, by omega, trivial, rfl⟩
  · obtain ⟨⟨blk, n⟩, hblk⟩ := exists_lpData_provideBlock s
    obtain ⟨hlen, hstate, hhdr⟩ := nPayloadLen_provideBlock s
    obtain ⟨hopen, hpay, hstate', hhdr'⟩ := copyToBlock_spec hblk [b] (filled_provideBlock hs)
    refine ⟨hopen, ?_, hstate'.trans hstate, ?_⟩
    · rw [dataByte, hpay, hlen, List.length_singleton]
    · rw [dataByte, Receive.isControl, Receive.isControl, Receive.nOpcode, Receive.nOpcode, hhdr',
        hhdr]

theorem foldl_payloadByte (l : List Byte) : ∀ {s : Receive}, BlockOpen s →
    l.length ≤ s.nPayloadLen →
    l.foldl payloadByte s =
      if s.isControl then l.foldl controlByte s else l.foldl dataByte s := by
  induction l with
  | nil => exact fun _ _ => by simp
  | cons b l ih =>
    intro s hs hle
    rw [List.length_cons] at hle
    obtain ⟨hopen, hpay, -, hctl⟩ := payloadByte_spec hs (by omega) b
    rw [List.foldl_cons, ih hopen (by omega), hctl]
    by_cases hc : s.isControl = true
    · simp [hc, payloadByte]
    · simp [hc, payloadByte]

/-- **A payload is read as its bytes are**, as far as there are bytes and the frame
goes. -/
theorem readPayload_eq {s : Receive} (hs : BlockOpen s) (l : List Byte) :
    readPayload s l =
      ((l.take s.nPayloadLen).foldl payloadByte s, l.drop s.nPayloadLen) := by
  rw [readPayload, foldl_payloadByte _ hs (by rw [List.length_take]; omega)]
  by_cases hc : s.isControl = true
  · rw [if_pos hc, if_pos hc, readControl_eq]
  · rw [if_neg hc, if_neg hc, exec_dataTurn _ l _ (Nat.le_refl _) hs]

/-- The bytes of a payload, up to its end at most, go through the machine: the
frame ends with the last byte of the payload. -/
theorem feed_payload (l : List Byte) : ∀ {s : Receive}, BlockOpen s → ¬ s.nState < 16 →
    l ≠ [] → l.length ≤ s.nPayloadLen →
    feed (receiveByte e) s l = settle e (l.foldl payloadByte s) := by
  induction l with
  | nil => exact fun _ _ h _ => absurd rfl h
  | cons b l ih =>
    intro s hs hstate _ hle
    rw [List.length_cons] at hle
    obtain ⟨hopen, hpay, hst, -⟩ := payloadByte_spec hs (by omega) b
    cases l with
    | nil => rw [feed_singleton, receiveByte, if_neg hstate, List.foldl_cons, List.foldl_nil]
    | cons c l =>
      have hstep : receiveByte e s b = .ok (payloadByte s b) := by
        rw [receiveByte, if_neg hstate, settle_of_pos (by rw [hpay]; simp at hle; omega)]
      rw [feed_cons_ok hstep, List.foldl_cons]
      exact ih hopen (by rw [hst]; exact hstate) (List.cons_ne_nil _ _) (by rw [hpay]; omega)

/-! ### The header -/

theorem validateMessageLength_ok {s t : Receive} (h : validateMessageLength e s = .ok t) :
    t = s := by
  rw [validateMessageLength] at h
  split at h
  · cases h
  · split at h
    · cases h
    · exact (Except.ok.inj h).symm

theorem jumpToMaskKeyOrPayloadData_ok {s t : Receive}
    (h : jumpToMaskKeyOrPayloadData e s = .ok t) : ∃ nState, t = { s with nState := nState } := by
  rw [jumpToMaskKeyOrPayloadData] at h
  split at h
  · exact ⟨12, (Except.ok.inj h).symm⟩
  · exact ⟨16, validateMessageLength_ok h⟩

theorem validateOpcode_ok {s t : Receive} (h : validateOpcode s = .ok t) :
    t.sCurrentMessage.lpData = s.sCurrentMessage.lpData ∧
      t.sCurrentMessage.nFilledFrame = s.sCurrentMessage.nFilledFrame := by
  simp only [validateOpcode] at h
  split_ifs at h <;> obtain rfl := Except.ok.inj h <;> exact ⟨rfl, rfl⟩

/-- A byte of a header does not touch the blocks. -/
theorem headerByte_ok {s t : Receive} {b : Byte} (h : headerByte e s b = .ok t) :
    t.sCurrentMessage.lpData = s.sCurrentMessage.lpData ∧
      t.sCurrentMessage.nFilledFrame = s.sCurrentMessage.nFilledFrame := by
  simp only [headerByte] at h
  split_ifs at h
  · obtain ⟨hdata, hfilled⟩ := validateOpcode_ok h
    exact ⟨hdata, hfilled⟩
  · obtain ⟨_, rfl⟩ := jumpToMaskKeyOrPayloadData_ok h
    exact ⟨rfl, rfl⟩
  · obtain rfl := Except.ok.inj h
    exact ⟨rfl, rfl⟩
  · obtain rfl := Except.ok.inj h
    exact ⟨rfl, rfl⟩
  · obtain ⟨_, rfl⟩ := jumpToMaskKeyOrPayloadData_ok h
    exact ⟨rfl, rfl⟩
  · obtain rfl := Except.ok.inj h
    exact ⟨rfl, rfl⟩
  · obtain rfl := validateMessageLength_ok h
    exact ⟨rfl, rfl⟩
  · obtain rfl := Except.ok.inj h
    exact ⟨rfl, rfl⟩
  · obtain rfl := validateMessageLength_ok h
    exact ⟨rfl, rfl⟩
  · obtain rfl := Except.ok.inj h
    exact ⟨rfl, rfl⟩

theorem blockOpen_headerByte {s t : Receive} (hs : BlockOpen s) {b : Byte}
    (h : headerByte e s b = .ok t) : BlockOpen t := by
  obtain ⟨hdata, hfilled⟩ := headerByte_ok h
  intro hne
  rw [hfilled]
  exact hs (by rwa [hdata] at hne)

/-! ### A buffer -/

theorem processMsg_cons_of_lt {s : Receive} (h : s.nState < 16) (b : Byte) (l : List Byte) :
    processMsg e s (b :: l) =
      match headerByte e s b with
      | .error r => .error r
      | .ok t => processMsg e t l := by
  simp only [processMsg, readHeader, if_pos h]
  cases headerByte e s b with
  | error r => rfl
  | ok t => rfl

theorem processMsg_nil_of_lt {s : Receive} (h : s.nState < 16) :
    processMsg e s [] = .ok (s, []) := by
  simp only [processMsg, readHeader, if_pos h]

/-- After the header the payload is read, and the frame ends with it. -/
theorem processMsg_of_not_lt {s : Receive} (hs : BlockOpen s) (h : ¬ s.nState < 16)
    (l : List Byte) : processMsg e s l =
      (settle e ((l.take s.nPayloadLen).foldl payloadByte s)).map
        fun t => (t, l.drop s.nPayloadLen) := by
  have hread : readHeader e s l = .ok (s, l) := by
    cases l with
    | nil => rfl
    | cons b l => rw [readHeader, if_neg h]
  have hstate : ∀ (m : List Byte) (t : Receive), BlockOpen t → ¬ t.nState < 16 →
      m.length ≤ t.nPayloadLen → ¬ (m.foldl payloadByte t).nState < 16 := by
    intro m
    induction m with
    | nil => exact fun _ _ ht _ => ht
    | cons b m ih =>
      intro t ht hlt hle
      rw [List.length_cons] at hle
      obtain ⟨hopen, hpay, hst, -⟩ := payloadByte_spec ht (by omega) b
      exact ih _ hopen (by rw [hst]; exact hlt) (by omega)
  have hlt := hstate (l.take s.nPayloadLen) s hs h (by rw [List.length_take]; omega)
  simp only [processMsg, hread, if_neg h, readPayload_eq hs, settle, if_neg hlt]
  split
  · cases endFrame e ((l.take s.nPayloadLen).foldl payloadByte s) <;> rfl
  · rfl

/-- **A buffer is read as a part of its bytes is.** -/
theorem processMsg_refines (l : List Byte) : ∀ {s : Receive}, Ready s → l ≠ [] →
    RefinesAt (receiveByte e) s l (processMsg e s l) := by
  induction l with
  | nil => exact fun _ h => absurd rfl h
  | cons b l ih =>
    intro s hs _
    by_cases hlt : s.nState < 16
    · rw [processMsg_cons_of_lt hlt]
      cases hb : headerByte e s b with
      | error r => exact .head (by rw [receiveByte, if_pos hlt, hb]; rfl)
      | ok t =>
        have hstep : receiveByte e s b = settle e t := by rw [receiveByte, if_pos hlt, hb]
        have hopen : BlockOpen t := blockOpen_headerByte hs.block hb
        by_cases hlt' : t.nState < 16
        · rw [settle_of_lt hlt'] at hstep
          by_cases hnil : l = []
          · subst hnil
            exact .head (by rw [hstep]; exact processMsg_nil_of_lt hlt')
          · exact .cons hstep (ih ⟨Or.inl hlt', hopen⟩ hnil)
        · by_cases hzero : t.nPayloadLen = 0
          · refine .head ?_
            dsimp only
            rw [processMsg_of_not_lt hopen hlt', hstep, hzero, List.take_zero, List.drop_zero,
              List.foldl_nil]
          · rw [settle_of_pos (by omega)] at hstep
            by_cases hnil : l = []
            · subst hnil
              refine .head ?_
              dsimp only
              rw [processMsg_of_not_lt hopen hlt', hstep, List.take_nil, List.drop_nil,
                List.foldl_nil, settle_of_pos (by omega)]
            · exact .cons hstep (ih ⟨Or.inr (by omega), hopen⟩ hnil)
    · have hpos : 0 < s.nPayloadLen := hs.payload.resolve_left hlt
      have hle : ((b :: l).take s.nPayloadLen).length ≤ s.nPayloadLen := by
        rw [List.length_take]
        omega
      have hne : (b :: l).take s.nPayloadLen ≠ [] := by
        obtain ⟨n, hn⟩ : ∃ n, s.nPayloadLen = n + 1 := ⟨s.nPayloadLen - 1, by omega⟩
        rw [hn, List.take_succ_cons]
        exact List.cons_ne_nil _ _
      refine ⟨_, _, (List.take_append_drop s.nPayloadLen (b :: l)).symm, hne, ?_⟩
      rw [feed_payload _ hs.block hlt hne hle, processMsg_of_not_lt hs.block hlt]

theorem endFrame_ok {s t : Receive} (hs : BlockOpen s) (h : endFrame e s = .ok t) :
    t.nState = 0 ∧ BlockOpen t := by
  simp only [endFrame] at h
  split_ifs at h with hclose hcontrol hping hpong hfin <;> obtain rfl := Except.ok.inj h
  · exact ⟨rfl, hs⟩
  · exact ⟨rfl, hs⟩
  · exact ⟨rfl, hs⟩
  · exact ⟨rfl, fun hne => absurd rfl hne⟩
  · exact ⟨rfl, hs⟩

theorem ready_settle {s t : Receive} (hs : BlockOpen s) (h : settle e s = .ok t) : Ready t := by
  rw [settle] at h
  split_ifs at h with hlt hzero
  · obtain rfl := Except.ok.inj h
    exact ⟨Or.inl hlt, hs⟩
  · obtain ⟨hstate, hopen⟩ := endFrame_ok hs h
    exact ⟨Or.inl (by omega), hopen⟩
  · obtain rfl := Except.ok.inj h
    exact ⟨Or.inr (by omega), hs⟩

/-- A byte leaves the receiver between two bytes. -/
theorem ready_receiveByte {s t : Receive} {b : Byte} (hs : Ready s)
    (h : receiveByte e s b = .ok t) : Ready t := by
  rw [receiveByte] at h
  split at h
  · cases hb : headerByte e s b with
    | error r =>
      rw [hb] at h
      cases h
    | ok u =>
      rw [hb] at h
      exact ready_settle (blockOpen_headerByte hs.block hb) h
  · next hlt =>
    exact ready_settle (payloadByte_spec hs.block (hs.payload.resolve_left hlt) b).1 h

/-! ### A call -/

/-- What is done with a piece of what is buffered: some of the bytes are used as the
machine uses them, or the call ends as the machine does. -/
theorem processMsg_take {s : Receive} (hs : Ready s) {buffered : List Byte}
    (hne : buffered ≠ []) {n : Nat} (hn : 0 < n) :
    (∃ used rest t lpMsg, buffered = used ++ rest ∧ used ≠ [] ∧
      feed (receiveByte e) s used = .ok t ∧ Ready t ∧
      processMsg e s (buffered.take n) = .ok (t, lpMsg) ∧
      buffered.drop ((buffered.take n).length - lpMsg.length) = rest) ∨
    ∃ hRes t, feed (receiveByte e) s buffered = .error (hRes, t) ∧
      processMsg e s (buffered.take n) = .error (hRes, t) := by
  obtain ⟨msg, hmsg⟩ : ∃ msg, msg = buffered.take n := ⟨_, rfl⟩
  have hmsgNe : msg ≠ [] := by
    rw [hmsg]
    exact fun h => hne ((List.take_eq_nil_iff.mp h).resolve_left (by omega))
  obtain ⟨tail, hbuf⟩ : ∃ tail, buffered = msg ++ tail :=
    ⟨buffered.drop n, by rw [hmsg, List.take_append_drop]⟩
  have href := processMsg_refines (e := e) msg hs hmsgNe
  rw [← hmsg]
  cases hout : processMsg e s msg with
  | error r =>
    obtain ⟨hRes, t⟩ := r
    rw [hout] at href
    refine Or.inr ⟨hRes, t, ?_, rfl⟩
    rw [hbuf]
    exact feed_append_error href.error _
  | ok r =>
    obtain ⟨t, lpMsg⟩ := r
    rw [hout] at href
    obtain ⟨used, hused, husedNe, hfeed⟩ := href.ok
    have hsplit : buffered = used ++ (lpMsg ++ tail) := by
      rw [hbuf, hused, List.append_assoc]
    have hready : Ready t := feed_induct (fun _ _ _ hs h => ready_receiveByte hs h) hs hfeed
    have hlen : msg.length - lpMsg.length = used.length := by
      rw [hused, List.length_append]
      omega
    have hdrop : buffered.drop (msg.length - lpMsg.length) = lpMsg ++ tail := by
      rw [hlen, hsplit, List.drop_left]
    exact Or.inl ⟨used, lpMsg ++ tail, t, lpMsg, hsplit, husedNe, hfeed, hready, rfl, hdrop⟩

section Size

variable {size : Nat → Nat} (hsize : ∀ k, 0 < size k)

theorem receiveTurnBy_nil (s : Receive) (k : Nat) :
    receiveTurnBy e size (s, [], k) = .inr (.sOk, s, [], k + 1) := by
  simp only [receiveTurnBy, List.take_nil, if_true]

include hsize

/-- A turn of a call uses some of the bytes as the machine does, or ends the call
as the machine does. -/
theorem receiveTurnBy_spec {s : Receive} (hs : Ready s) {buffered : List Byte}
    (hne : buffered ≠ []) (k : Nat) :
    (∃ used rest t, buffered = used ++ rest ∧ used ≠ [] ∧ feed (receiveByte e) s used = .ok t ∧
      Ready t ∧ receiveTurnBy e size (s, buffered, k) = .inl (t, rest, k + 1)) ∨
    ∃ hRes t, feed (receiveByte e) s buffered = .error (hRes, t) ∧
      receiveTurnBy e size (s, buffered, k) = .inr (hRes, t, buffered, k + 1) := by
  have hmsgNe : buffered.take (size k) ≠ [] :=
    fun h => hne ((List.take_eq_nil_iff.mp h).resolve_left (Nat.ne_of_gt (hsize k)))
  simp only [receiveTurnBy, if_neg hmsgNe]
  rcases processMsg_take (e := e) hs hne (hsize k) with
    ⟨used, rest, t, lpMsg, hbuf, husedNe, hfeed, ht, hout, hdrop⟩ | ⟨hRes, t, hfeed, hout⟩
  · refine Or.inl ⟨used, rest, t, hbuf, husedNe, hfeed, ht, ?_⟩
    simp only [hout, hdrop]
  · refine Or.inr ⟨hRes, t, hfeed, ?_⟩
    simp only [hout]

theorem receiveTurnBy_measure (c c' : Receive × List Byte × Nat) (hc : Ready c.1)
    (h : receiveTurnBy e size c = .inl c') :
    Ready c'.1 ∧ receiveMeasure (c'.1, c'.2.1) < receiveMeasure (c.1, c.2.1) := by
  obtain ⟨s, buffered, k⟩ := c
  by_cases hnil : buffered = []
  · rw [hnil, receiveTurnBy_nil] at h
    cases h
  · rcases receiveTurnBy_spec (e := e) hsize hc hnil k with
      ⟨used, rest, t, hbuf, hne, -, ht, hturn⟩ | ⟨hRes, t, -, hturn⟩
    · rw [hturn] at h
      obtain rfl := Sum.inl.inj h
      refine ⟨ht, ?_⟩
      have hpos : 0 < used.length := List.length_pos_iff.mpr hne
      simp only [receiveMeasure, hbuf, List.length_append]
      split <;> split <;> omega
    · rw [hturn] at h
      cases h

/-- **A call is the machine on the bytes that are buffered**, which are consumed
unless the machine stops. -/
theorem onSocketDataReceivedBy_eq (n : Nat) : ∀ {s : Receive} (buffered : List Byte) (k : Nat)
    (dflt : HResult × Receive × List Byte × Nat), buffered.length ≤ n → Ready s →
    (∃ t k', feed (receiveByte e) s buffered = .ok t ∧
      Loop.exec (receiveTurnBy e size) (fun c => receiveMeasure (c.1, c.2.1)) dflt
        (s, buffered, k) = (.sOk, t, [], k')) ∨
    ∃ hRes t rest k', feed (receiveByte e) s buffered = .error (hRes, t) ∧
      Loop.exec (receiveTurnBy e size) (fun c => receiveMeasure (c.1, c.2.1)) dflt
        (s, buffered, k) = (hRes, t, rest, k') := by
  induction n with
  | zero =>
    intro s buffered k dflt hn hs
    obtain rfl := List.length_eq_zero_iff.mp (Nat.le_zero.mp hn)
    exact Or.inl ⟨s, k + 1, rfl, Loop.exec_inr dflt (receiveTurnBy_nil s k)⟩
  | succ n ih =>
    intro s buffered k dflt hn hs
    by_cases hnil : buffered = []
    · subst hnil
      exact Or.inl ⟨s, k + 1, rfl, Loop.exec_inr dflt (receiveTurnBy_nil s k)⟩
    rcases receiveTurnBy_spec (e := e) hsize hs hnil k with
      ⟨used, rest, t, hbuf, hne, hfeed, ht, hturn⟩ | ⟨hRes, t, hfeed, hturn⟩
    · have hpos : 0 < used.length := List.length_pos_iff.mpr hne
      rw [Loop.exec_inl_of (receiveTurnBy_measure hsize) dflt hs hturn, hbuf, feed_append hfeed]
      exact ih rest (k + 1) dflt (by rw [hbuf, List.length_append] at hn; omega) ht
    · exact Or.inr ⟨hRes, t, buffered, k + 1, hfeed, Loop.exec_inr dflt hturn⟩

end Size

/-- A socket that was closed by a close frame stays as it is. -/
structure Closed (s : Receive) : Prop where
  state : ¬ s.nState < 16
  payload : s.nPayloadLen = 0
  control : s.isControl = true
  opcode : s.nOpcode = opcodeConnectionClose
  closed : s.hrCloseError ≠ none

theorem closeFrame_closed {s : Receive} (hstate : ¬ s.nState < 16) (hpay : s.nPayloadLen = 0)
    (hclose : (s.isControl && s.nOpcode == opcodeConnectionClose) = true) :
    Closed (closeFrame e s) := by
  obtain ⟨hcontrol, hopcode⟩ := by simpa using hclose
  simp only [closeFrame]
  cases herr : s.hrCloseError with
  | some hRes => exact ⟨hstate, hpay, hcontrol, hopcode, by simp [herr]⟩
  | none =>
    dsimp only
    split_ifs <;> exact ⟨hstate, hpay, hcontrol, hopcode, by simp [sendControlFrame]⟩

theorem validateMessageLength_error {s t : Receive} {hRes : HResult}
    (h : validateMessageLength e s = .error (hRes, t)) : hRes.failed = true := by
  rw [validateMessageLength] at h
  split_ifs at h <;> obtain ⟨rfl, -⟩ := Prod.mk.inj (Except.error.inj h) <;> rfl

theorem jumpToMaskKeyOrPayloadData_error {s t : Receive} {hRes : HResult}
    (h : jumpToMaskKeyOrPayloadData e s = .error (hRes, t)) : hRes.failed = true := by
  rw [jumpToMaskKeyOrPayloadData] at h
  split at h
  · cases h
  · exact validateMessageLength_error h

theorem validateOpcode_error {s t : Receive} {hRes : HResult}
    (h : validateOpcode s = .error (hRes, t)) : hRes.failed = true := by
  simp only [validateOpcode] at h
  split_ifs at h <;> obtain ⟨rfl, -⟩ := Prod.mk.inj (Except.error.inj h) <;> rfl

/-- A header that is refused is a failure. -/
theorem headerByte_error {s t : Receive} {b : Byte} {hRes : HResult}
    (h : headerByte e s b = .error (hRes, t)) : hRes.failed = true := by
  simp only [headerByte] at h
  split_ifs at h
  · obtain ⟨rfl, -⟩ := Prod.mk.inj (Except.error.inj h)
    rfl
  · exact validateOpcode_error h
  · exact jumpToMaskKeyOrPayloadData_error h
  · obtain ⟨rfl, -⟩ := Prod.mk.inj (Except.error.inj h)
    rfl
  · exact jumpToMaskKeyOrPayloadData_error h
  · exact validateMessageLength_error h
  · exact validateMessageLength_error h

theorem settle_error {s t : Receive} {hRes : HResult} (h : settle e s = .error (hRes, t)) :
    hRes = .sOk ∧ Closed t := by
  rw [settle] at h
  split_ifs at h with hlt hzero
  rw [endFrame] at h
  split_ifs at h with hclose
  obtain ⟨rfl, rfl⟩ := Prod.mk.inj (Except.error.inj h)
  exact ⟨rfl, closeFrame_closed hlt hzero hclose⟩

/-- **The machine stops on a failure or on a close frame.** -/
theorem receiveByte_error {s t : Receive} {b : Byte} {hRes : HResult}
    (h : receiveByte e s b = .error (hRes, t)) :
    hRes.failed = true ∨ hRes = .sOk ∧ Closed t := by
  rw [receiveByte] at h
  split at h
  · cases hb : headerByte e s b with
    | ok u =>
      rw [hb] at h
      exact Or.inr (settle_error h)
    | error r =>
      rw [hb] at h
      obtain rfl := Except.error.inj h
      exact Or.inl (headerByte_error hb)
  · exact Or.inr (settle_error h)

theorem feed_receiveByte_error {s t : Receive} {l : List Byte} {hRes : HResult}
    (h : feed (receiveByte e) s l = .error (hRes, t)) :
    hRes.failed = true ∨ hRes = .sOk ∧ Closed t := by
  induction l generalizing s with
  | nil => cases h
  | cons b l ih =>
    cases hb : receiveByte e s b with
    | ok u =>
      rw [feed_cons_ok hb] at h
      exact ih h
    | error r =>
      rw [feed_cons_error hb] at h
      obtain rfl := Except.error.inj h
      exact receiveByte_error hb

section Size

variable {size : Nat → Nat}

/-- A call on a closed socket does nothing. -/
theorem onSocketDataReceivedBy_closed {s : Receive} (hs : Closed s) (buffered : List Byte)
    (k : Nat) : onSocketDataReceivedBy e size s buffered k = (.sOk, s, buffered, k + 1) := by
  refine Loop.exec_inr _ ?_
  by_cases hnil : buffered.take (size k) = []
  · simp only [receiveTurnBy, hnil, if_true]
  · have hread : readHeader e s (buffered.take (size k)) = .ok (s, buffered.take (size k)) := by
      cases buffered.take (size k) with
      | nil => rfl
      | cons b l => rw [readHeader, if_neg hs.state]
    have hpay : readPayload s (buffered.take (size k)) = (s, buffered.take (size k)) := by
      rw [readPayload, if_pos hs.control, readControl_zero hs.payload]
    have hframe : closeFrame e s = s := by
      obtain ⟨hRes, herr⟩ := Option.ne_none_iff_exists'.mp hs.closed
      simp only [closeFrame, herr]
    have hend : endFrame e s = .error (.sOk, s) := by
      rw [endFrame, if_pos (by rw [hs.control, hs.opcode]; rfl), hframe]
    simp only [receiveTurnBy, if_neg hnil, processMsg, hread, if_neg hs.state, hpay, hs.payload,
      if_true, hend]

theorem receiveAllBy_closed {s : Receive} (hs : Closed s) (chunks : List (List Byte)) :
    ∀ buffered k, receiveAllBy e size s buffered k chunks = (.sOk, s) := by
  induction chunks with
  | nil => exact fun _ _ => rfl
  | cons chunk chunks ih =>
    intro buffered k
    rw [receiveAllBy, onSocketDataReceivedBy_closed hs]
    exact ih _ _

/-- **However the bytes arrive and are returned, the calls do what the machine does
with all of them.** -/
theorem receiveAllBy_eq (hsize : ∀ k, 0 < size k) (chunks : List (List Byte)) :
    ∀ {s : Receive} (k : Nat), Ready s →
    receiveAllBy e size s [] k chunks =
      match feed (receiveByte e) s chunks.flatten with
      | .ok t => (.sOk, t)
      | .error r => r := by
  induction chunks with
  | nil => exact fun _ _ => rfl
  | cons chunk chunks ih =>
    intro s k hs
    rw [receiveAllBy, List.nil_append, List.flatten_cons, onSocketDataReceivedBy]
    rcases onSocketDataReceivedBy_eq (e := e) hsize _ chunk k (.sOk, s, chunk, k)
      (Nat.le_refl _) hs with ⟨t, k', hfeed, hcall⟩ | ⟨hRes, t, rest, k', hfeed, hcall⟩
    · rw [hcall, feed_append hfeed]
      exact ih k' (feed_induct (fun _ _ _ hs h => ready_receiveByte hs h) hs hfeed)
    · rw [hcall, feed_append_error hfeed]
      rcases feed_receiveByte_error hfeed with hfail | ⟨rfl, hclosed⟩
      · simp [hfail]
      · exact receiveAllBy_closed hclosed chunks rest k'

end Size

end Bytes

end MxLib.Http.WebSockets
