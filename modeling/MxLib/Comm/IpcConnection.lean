import MxLib.Comm.IpcCommon
import MxLib.Defines
import MxLib.Library.Line

/-!
# A connection of the inter-process communication

What `CConnectionBase` and `OnDispatcherPacket` do with the packets of one connection, without SSL
and as long as nothing fails and the connection is not closed.  Any number of threads call
`SendMsg`, `SendStream` and `AfterWriteSignal`; the threads of the dispatcher pool take what was
posted and what has completed, in any order, and handle it.  Each lock-protected block and each
interlocked operation is one atomic step; what a thread does between two of them touches nothing
that is shared, so it belongs to the step before.

What decides nothing here is left out: the counters and lists that keep the connection and its
packets alive (`nOutgoingWrites`, `nIncomingReads`, `sInUsePackets`, the free packets), the
requeued packet of `sPendingWritePackets`, as `bHasRequeuedPacket` is never set, the statistics
and the log.  When a read is posted is left to the environment: any thread may do so at any time.
-/

namespace MxLib.Ipc

/-- The bytes of a packet that is written: at least one, and no more than the largest packet has. -/
abbrev Buffer : Type := { aBuffer : List Byte // aBuffer ≠ [] ∧ aBuffer.length ≤ 32768 }

/-- What a packet asks to write: its bytes, what the reads of a stream give up to its end, with the
linked packet that was read and not written, or a callback after everything before it. -/
inductive Request
  | data (aBuffer : Buffer)
  | stream (lpLinkedPacket : Option Buffer) (lpStream : List Buffer)
  | afterWriteSignal
  deriving DecidableEq

/-- The options of the connection and of its pool.  The pool counts its threads before it starts
another one, which as many threads as there are may do at once, and has at most 8192 then. -/
structure Options where
  dwMaxOutgoingBytes : Nat
  nThreads : Nat
  nSizeOfPacketBase : Nat
  maxOutgoingBytes_ge : 8192 ≤ dwMaxOutgoingBytes
  maxOutgoingBytes_le : dwMaxOutgoingBytes ≤ 262144
  threads_le : nThreads ≤ 2 * 8192
  sizeOfPacketBase_lt : nSizeOfPacketBase < 4096

/-- What happens to the packets: a packet is passed to `DoWrite`, its write has completed, a
callback is invoked, a stream has reached its end. -/
inductive Event
  | doWrite (nOrder : Nat) (aBuffer : Buffer)
  | completed (nOrder : Nat) (aBuffer : Buffer)
  | invoke (nOrder : Nat)
  | endOfStream (nOrder : Nat)
  deriving DecidableEq

/-- Where a call of `SendMsg`, `SendStream` or `AfterWriteSignal` is: at the loop over the bytes
that are left, before the packet is numbered, or before it is posted. -/
inductive Sender
  | sendMsg (lpData : List Byte)
  | setOrder (request : Request)
  | post (lpPacket : Packet Request) (lpData : List Byte)
  deriving DecidableEq

/-- Where a thread of the pool is, before its next atomic step.  What comes back from `DoWrite` to
a stream has the rest of the stream. -/
inductive Thread
  -- `OnDispatcherPacket`
  | writeRequest (lpPacket : Packet Request)
  | write (nOrder : Nat) (aBuffer : Buffer)
  | read (lpPacket : Packet (List Byte))
  | readPaused
  -- `HandleIncomingPackets`
  | incoming
  | receive (lpPacket : Packet (List Byte))
  | incomingNext
  -- `HandleOutgoingPackets`
  | outgoing
  | outgoingBytes
  | outgoingPacket
  | signal (nOrder : Nat)
  | signalInvoke (nOrder : Nat)
  | signalRequeue (nOrder : Nat)
  | signalBytes
  | stream (nOrder : Nat) (lpNewPacket : Option Buffer) (lpStream : List Buffer)
  | streamRead (nOrder : Nat) (lpNewPacket : Option Buffer) (lpStream : List Buffer)
  | streamRequeue (nOrder : Nat) (lpNewPacket : Option Buffer) (lpStream : List Buffer)
  | outgoingNext
  -- `DoWrite`
  | doWrite (nOrder : Nat) (aBuffer : Buffer) (lpStream : Option (List Buffer))
  | sendWritePacket (nOrder : Nat) (aBuffer : Buffer) (lpStream : Option (List Buffer))
  | written (nOrder : Nat) (aBuffer : Buffer) (lpStream : Option (List Buffer))
  deriving DecidableEq

/-- The connection, what was posted to the pool and is in progress, the calls and the threads that
are in the middle of something, and what has been recorded on the way. -/
structure Connection where
  nNextWriteOrder : Nat := 0
  nNextWriteOrderToProcess : Nat := 1
  sPendingWritePackets : List (Packet Request) := []
  nOutgoingBytes : UInt32 := 0
  bOutputProcessingPaused : Bool := false
  nNextReadOrder : Nat := 0
  nNextReadOrderToProcess : Nat := 1
  sReadPackets : List (Packet (List Byte)) := []
  sReceivedData : List Byte := []
  bInputProcessingPaused : Bool := false
  -- the packets of the pool
  writeRequests : List (Packet Request) := []
  writes : List (Nat × Buffer) := []
  reads : List Nat := []
  resumes : List Bool := []
  senders : List Sender := []
  threads : List Thread := []
  -- what was sent and what became of it, the reads that were posted, have completed and were received
  sent : List Request := []
  history : List Event := []
  nReads : Nat := 0
  arrived : List (Packet (List Byte)) := []
  received : List (Packet (List Byte)) := []

/-! ### Sending -/

/-- `GetBufferSize` of the packet that `SendMsg` gets for `nDataSize` bytes. -/
def bufferSize (options : Options) (nDataSize : Nat) : Nat :=
  (if nDataSize > 8192 then 32768 else 4096) - options.nSizeOfPacketBase

theorem bufferSize_pos (options : Options) (nDataSize : Nat) : 0 < bufferSize options nDataSize := by
  have := options.sizeOfPacketBase_lt
  rw [bufferSize]
  split <;> omega

theorem bufferSize_le (options : Options) (nDataSize : Nat) : bufferSize options nDataSize ≤ 32768 := by
  rw [bufferSize]
  split <;> omega

/-- The packet that is filled with the first of the bytes. -/
def fillBuffer (options : Options) (lpData : List Byte) (h : lpData ≠ []) : Buffer :=
  ⟨lpData.take (bufferSize options lpData.length), by
    constructor
    · intro hnil
      rcases List.take_eq_nil_iff.mp hnil with hzero | hdata
      · exact (bufferSize_pos options _).ne' hzero
      · exact h hdata
    · exact (List.length_take_le _ _).trans (bufferSize_le options _)⟩

/-- A packet gets the next order. -/
def setOrder (s : Connection) (request : Request) : Connection × Packet Request :=
  let nOrder := interlockedIncrement s.nNextWriteOrder
  ({ s with nNextWriteOrder := nOrder, sent := s.sent ++ [request] }, ⟨nOrder, request⟩)

/-- The next atomic step of a call. -/
def execSender (options : Options) (s : Connection) : Sender → Connection × Option Sender
  | .sendMsg lpData =>
    if h : lpData = [] then (s, none)
    else
      let (s', lpPacket) := setOrder s (.data (fillBuffer options lpData h))
      (s', some (.post lpPacket (lpData.drop (bufferSize options lpData.length))))
  | .setOrder request =>
    let (s', lpPacket) := setOrder s request
    (s', some (.post lpPacket []))
  | .post lpPacket lpData =>
    ({ s with writeRequests := s.writeRequests ++ [lpPacket] }, some (.sendMsg lpData))

/-! ### Handling -/

/-- `_InterlockedExchangeAdd` adds and subtracts the size of a packet. -/
def dwTotalBytes (aBuffer : Buffer) : UInt32 := UInt32.ofNat aBuffer.1.length

/-- What a packet is once it was dequeued. -/
def process (lpPacket : Packet Request) : Thread :=
  match lpPacket.body with
  | .afterWriteSignal => .signal lpPacket.nOrder
  | .stream lpLinkedPacket lpStream => .stream lpPacket.nOrder lpLinkedPacket lpStream
  | .data aBuffer => .doWrite lpPacket.nOrder aBuffer none

/-- Where `DoWrite` returns to. -/
def afterDoWrite (nOrder : Nat) : Option (List Buffer) → Thread
  | none => .outgoingNext
  | some lpStream => .stream nOrder none lpStream

/-- The next atomic step of a thread of the pool; `bPending` is what `SendWritePacket` answers. -/
def exec (options : Options) (bPending : Bool) (s : Connection) : Thread → Connection × Option Thread
  | .writeRequest lpPacket =>
    ({ s with sPendingWritePackets := queueSorted lpPacket s.sPendingWritePackets }, some .outgoing)
  | .write _ aBuffer => ({ s with nOutgoingBytes := s.nOutgoingBytes - dwTotalBytes aBuffer }, some .outgoing)
  | .read lpPacket => ({ s with sReadPackets := queueSorted lpPacket s.sReadPackets }, some .readPaused)
  | .readPaused => (s, if s.bInputProcessingPaused then none else some .incoming)
  | .incoming =>
    match dequeue s.nNextReadOrderToProcess s.sReadPackets with
    | none => (s, some .outgoing)
    | some (lpPacket, cList) => ({ s with sReadPackets := cList }, some (.receive lpPacket))
  | .receive lpPacket =>
    ({ s with
        sReceivedData := s.sReceivedData ++ lpPacket.body
        received := s.received ++ [lpPacket] }, some .incomingNext)
  | .incomingNext =>
    ({ s with nNextReadOrderToProcess := interlockedIncrement s.nNextReadOrderToProcess }, some .incoming)
  | .outgoing => (s, if s.bOutputProcessingPaused then none else some .outgoingBytes)
  | .outgoingBytes =>
    (s, if s.nOutgoingBytes.toNat < options.dwMaxOutgoingBytes then some .outgoingPacket else none)
  | .outgoingPacket =>
    match dequeue s.nNextWriteOrderToProcess s.sPendingWritePackets with
    | none => (s, none)
    | some (lpPacket, cList) => ({ s with sPendingWritePackets := cList }, some (process lpPacket))
  | .signal nOrder =>
    (s, some (if s.nOutgoingBytes == 0 then .signalInvoke nOrder else .signalRequeue nOrder))
  | .signalInvoke nOrder => ({ s with history := s.history ++ [.invoke nOrder] }, some .outgoingNext)
  | .signalRequeue nOrder =>
    ({ s with sPendingWritePackets := queueFirst ⟨nOrder, .afterWriteSignal⟩ s.sPendingWritePackets },
      some .signalBytes)
  -- the counter is compared as a signed number here
  | .signalBytes => (s, if s.nOutgoingBytes.toInt32 > 0 then none else some .outgoing)
  | .stream nOrder lpNewPacket lpStream =>
    (s, some (if s.nOutgoingBytes.toNat < options.dwMaxOutgoingBytes
      then .streamRead nOrder lpNewPacket lpStream else .streamRequeue nOrder lpNewPacket lpStream))
  | .streamRead nOrder (some lpNewPacket) lpStream => (s, some (.doWrite nOrder lpNewPacket (some lpStream)))
  | .streamRead nOrder none (lpNewPacket :: lpStream) =>
    (s, some (.doWrite nOrder lpNewPacket (some lpStream)))
  | .streamRead nOrder none [] => ({ s with history := s.history ++ [.endOfStream nOrder] }, some .outgoingNext)
  | .streamRequeue nOrder lpNewPacket lpStream =>
    ({ s with sPendingWritePackets :=
        queueFirst ⟨nOrder, .stream lpNewPacket lpStream⟩ s.sPendingWritePackets }, some .outgoing)
  | .outgoingNext =>
    ({ s with nNextWriteOrderToProcess := interlockedIncrement s.nNextWriteOrderToProcess }, some .outgoing)
  | .doWrite nOrder aBuffer lpStream =>
    ({ s with
        nOutgoingBytes := s.nOutgoingBytes + dwTotalBytes aBuffer
        history := s.history ++ [.doWrite nOrder aBuffer] }, some (.sendWritePacket nOrder aBuffer lpStream))
  | .sendWritePacket nOrder aBuffer lpStream =>
    if bPending then ({ s with writes := s.writes ++ [(nOrder, aBuffer)] }, some (afterDoWrite nOrder lpStream))
    else ({ s with history := s.history ++ [.completed nOrder aBuffer] }, some (.written nOrder aBuffer lpStream))
  | .written nOrder aBuffer lpStream =>
    ({ s with nOutgoingBytes := s.nOutgoingBytes - dwTotalBytes aBuffer }, some (afterDoWrite nOrder lpStream))

/-! ### The system -/

/-- What happens next: a call begins or goes on, a thread of the pool takes a packet or goes on, a
read is posted, the processing is paused or resumed. -/
inductive Action
  | sendMsg (lpData : List Byte)
  | sendStream (lpStream : List Buffer)
  | afterWriteSignal
  | sender (i : Nat)
  | dispatchWriteRequest (i : Nat)
  | dispatchWrite (i : Nat)
  | dispatchRead (i : Nat) (aBuffer : List Byte)
  | dispatchResume (i : Nat)
  | thread (i : Nat) (bPending : Bool)
  | doRead
  | pauseOutputProcessing
  | pauseInputProcessing
  | resumeOutputProcessing
  | resumeInputProcessing

/-- A thread of the pool takes a packet, if one of them is free. -/
def dispatch (options : Options) (s : Connection) (lpThread : Thread) : Option Connection :=
  if s.threads.length < options.nThreads then some { s with threads := s.threads ++ [lpThread] } else none

/-- One step of the whole system, if it is possible. -/
def next (options : Options) (s : Connection) : Action → Option Connection
  | .sendMsg lpData =>
    if lpData.length > 0x7FFFFFFF then some s else some { s with senders := s.senders ++ [.sendMsg lpData] }
  | .sendStream lpStream => some { s with senders := s.senders ++ [.setOrder (.stream none lpStream)] }
  | .afterWriteSignal => some { s with senders := s.senders ++ [.setOrder .afterWriteSignal] }
  | .sender i =>
    (s.senders[i]?).map fun lpSender =>
      let (s', lpSender') := execSender options s lpSender
      { s' with senders := Library.replaceAt s.senders i lpSender' }
  | .dispatchWriteRequest i =>
    (s.writeRequests[i]?).bind fun lpPacket =>
      dispatch options { s with writeRequests := s.writeRequests.eraseIdx i } (.writeRequest lpPacket)
  | .dispatchWrite i =>
    (s.writes[i]?).bind fun (nOrder, aBuffer) =>
      dispatch options
        { s with
          writes := s.writes.eraseIdx i
          history := s.history ++ [.completed nOrder aBuffer] } (.write nOrder aBuffer)
  | .dispatchRead i aBuffer =>
    (s.reads[i]?).bind fun nOrder =>
      if aBuffer = [] then none
      else
        dispatch options
          { s with
            reads := s.reads.eraseIdx i
            arrived := s.arrived ++ [⟨nOrder, aBuffer⟩] } (.read ⟨nOrder, aBuffer⟩)
  | .dispatchResume i =>
    (s.resumes[i]?).bind fun bIsRead =>
      dispatch options { s with resumes := s.resumes.eraseIdx i } (if bIsRead then .incoming else .outgoing)
  | .thread i bPending =>
    (s.threads[i]?).map fun lpThread =>
      let (s', lpThread') := exec options bPending s lpThread
      { s' with threads := Library.replaceAt s.threads i lpThread' }
  | .doRead =>
    let nOrder := interlockedIncrement s.nNextReadOrder
    some { s with nNextReadOrder := nOrder, nReads := s.nReads + 1, reads := s.reads ++ [nOrder] }
  | .pauseOutputProcessing => some { s with bOutputProcessingPaused := true }
  | .pauseInputProcessing => some { s with bInputProcessingPaused := true }
  | .resumeOutputProcessing =>
    if s.bOutputProcessingPaused then
      some { s with bOutputProcessingPaused := false, resumes := s.resumes ++ [false] }
    else some s
  | .resumeInputProcessing =>
    if s.bInputProcessingPaused then
      some { s with bInputProcessingPaused := false, resumes := s.resumes ++ [true] }
    else some s

/-- The state after the actions, if each of them is possible. -/
def run (options : Options) (s : Connection) : List Action → Option Connection
  | [] => some s
  | action :: actions => (next options s action).bind fun s' => run options s' actions

/-! ### What a step is -/

/-- The step of a thread of the pool replaces the thread. -/
theorem next_thread {options : Options} {s s' : Connection} {i : Nat} {bPending : Bool}
    (h : next options s (.thread i bPending) = some s') :
    ∃ l lpThread r, s.threads = l ++ lpThread :: r ∧
      s' = { (exec options bPending s lpThread).1 with
        threads := l ++ ((exec options bPending s lpThread).2.toList ++ r) } := by
  rw [next, Option.map_eq_some_iff] at h
  obtain ⟨lpThread, hget, h⟩ := h
  obtain ⟨l, r, hsplit, -, hreplace⟩ := Library.exists_append_of_getElem? hget
  refine ⟨l, lpThread, r, hsplit, ?_⟩
  rw [← h, ← hreplace]

/-- The step of a call replaces the call. -/
theorem next_sender {options : Options} {s s' : Connection} {i : Nat}
    (h : next options s (.sender i) = some s') :
    ∃ l lpSender r, s.senders = l ++ lpSender :: r ∧
      s' = { (execSender options s lpSender).1 with
        senders := l ++ ((execSender options s lpSender).2.toList ++ r) } := by
  rw [next, Option.map_eq_some_iff] at h
  obtain ⟨lpSender, hget, h⟩ := h
  obtain ⟨l, r, hsplit, -, hreplace⟩ := Library.exists_append_of_getElem? hget
  refine ⟨l, lpSender, r, hsplit, ?_⟩
  rw [← h, ← hreplace]

/-- A packet that is dispatched was one of those to dispatch. -/
theorem dispatch_eq_some {options : Options} {s s' : Connection} {lpThread : Thread}
    (h : dispatch options s lpThread = some s') :
    s.threads.length < options.nThreads ∧ s' = { s with threads := s.threads ++ [lpThread] } := by
  rw [dispatch] at h
  split at h
  · rename_i hlt
    exact ⟨hlt, (Option.some.inj h).symm⟩
  · cases h

/-- What every step keeps holds after every run. -/
theorem run_induct {options : Options} {P : Connection → Prop}
    (hstep : ∀ s action s', P s → next options s action = some s' → P s') {s s' : Connection}
    {actions : List Action} (h : run options s actions = some s') (hP : P s) : P s' := by
  induction actions generalizing s with
  | nil =>
    obtain rfl := Option.some.inj h
    exact hP
  | cons action actions ih =>
    rw [run, Option.bind_eq_some_iff] at h
    obtain ⟨s₁, hnext, hrest⟩ := h
    exact ih hrest (hstep s action s₁ hP hnext)

end MxLib.Ipc
