import MxLib.Comm.IpcConnection

/-!
# Sending when the pool refuses packets

`SendMsg`, `SendStream` and `AfterWriteSignal` on a connection, one call after the other, when there
may be no memory for a packet and `Post` may fail.  Between two calls the pool takes posted packets
in any order, and `HandleOutgoingPackets` is done with those that it dequeues.

After a failed `Post` everything is as before (`post_failed`) but for the order: the packet had taken
it, and `HandleOutgoingPackets` waits for it.  The packets that are sent have the orders that are
expected as long as no `Post` has failed (`unblocked_iff`).
-/

namespace MxLib.Ipc

/-- What the attempt to send one packet meets: no memory for it, or an answer of `Post`. -/
inductive Outcome
  | noPacket
  | postFails (err : Fault)
  | posted

/-- The part of the connection that the calls write, and what becomes of their packets. -/
structure Sending where
  nNextWriteOrder : Nat := 0
  nNextWriteOrderToProcess : Nat := 1
  nOutgoingWrites : Nat := 0
  nRefCount : Nat := 1
  sInUsePackets : List (Packet Request) := []
  -- the packets of the pool
  writeRequests : List (Packet Request) := []
  sPendingWritePackets : List (Packet Request) := []
  -- what `Post` has answered, the packets it took, and those that were dequeued
  posts : List Bool := []
  sent : List (Packet Request) := []
  done : List (Packet Request) := []

namespace Sending

/-- `Remove`, of one packet of the list. -/
def remove (lpPacket : Packet Request) (cList : List (Packet Request)) : List (Packet Request) :=
  (cList.reverse.erase lpPacket).reverse

/-- A packet is numbered and put into the list of the packets in use. -/
def prepare (s : Sending) (request : Request) : Sending × Packet Request :=
  let nOrder := interlockedIncrement s.nNextWriteOrder
  let lpPacket := ⟨nOrder, request⟩
  ({ s with
      nNextWriteOrder := nOrder
      sInUsePackets := s.sInUsePackets ++ [lpPacket]
      nRefCount := s.nRefCount + 1
      nOutgoingWrites := s.nOutgoingWrites + 1 }, lpPacket)

/-- `Post` takes a packet. -/
def post (s : Sending) (lpPacket : Packet Request) : Sending :=
  { s with
    writeRequests := s.writeRequests ++ [lpPacket]
    posts := s.posts ++ [true]
    sent := s.sent ++ [lpPacket] }

/-- What is done when `Post` fails. -/
def discard (s : Sending) (lpPacket : Packet Request) : Sending :=
  { s with
    nOutgoingWrites := s.nOutgoingWrites - 1
    sInUsePackets := remove lpPacket s.sInUsePackets
    nRefCount := s.nRefCount - 1
    posts := s.posts ++ [false] }

/-- One packet of a call. -/
def sendPacket (s : Sending) (request : Request) : Outcome → Sending × HResult
  | .noPacket => (s, .eOutOfMemory)
  | .postFails err =>
    let (s', lpPacket) := s.prepare request
    (s'.discard lpPacket, err.hRes)
  | .posted =>
    let (s', lpPacket) := s.prepare request
    (s'.post lpPacket, .sOk)

/-- The loop of `SendMsg`; `outcomes n` is what its `n`-th packet meets. -/
def sendBlocks (options : Options) (outcomes : Nat → Outcome) (s : Sending) (lpData : List Byte) :
    Sending × HResult :=
  if h : lpData = [] then (s, .sOk)
  else
    match s.sendPacket (.data (fillBuffer options lpData h)) (outcomes 0) with
    | (s', hRes) =>
      if hRes.failed then (s', hRes)
      else
        sendBlocks options (fun n => outcomes (n + 1)) s'
          (lpData.drop (bufferSize options lpData.length))
termination_by lpData.length
decreasing_by
  have hlen : 0 < lpData.length := List.length_pos_iff.mpr h
  have hpos := bufferSize_pos options lpData.length
  rw [List.length_drop]
  omega

/-- `SendMsg`; a null `lpData` with a length is `none`. -/
def sendMsg (options : Options) (outcomes : Nat → Outcome) (s : Sending) :
    Option (List Byte) → Sending × HResult
  | none => (s, .eOutOfMemory)
  | some lpData =>
    if lpData.length > 0x7FFFFFFF then (s, .eInvalidArg) else sendBlocks options outcomes s lpData

/-- `SendStream` -/
def sendStream (outcome : Outcome) (s : Sending) (lpStream : List Buffer) : Sending × HResult :=
  s.sendPacket (.stream none lpStream) outcome

/-- `AfterWriteSignal` -/
def afterWriteSignal (outcome : Outcome) (s : Sending) : Sending × HResult :=
  s.sendPacket .afterWriteSignal outcome

/-- What happens next: a call, a packet of the pool is put into the list of the pending ones, or
`HandleOutgoingPackets` looks for the next one. -/
inductive Action
  | sendMsg (lpData : Option (List Byte)) (outcomes : Nat → Outcome)
  | sendStream (lpStream : List Buffer) (outcome : Outcome)
  | afterWriteSignal (outcome : Outcome)
  | dispatchWriteRequest (i : Nat)
  | outgoing

/-- `OnDispatcherPacket`, up to `HandleOutgoingPackets`. -/
def dispatchWriteRequest (s : Sending) (i : Nat) : Sending :=
  match s.writeRequests[i]? with
  | none => s
  | some lpPacket =>
    { s with
      writeRequests := s.writeRequests.eraseIdx i
      sInUsePackets := remove lpPacket s.sInUsePackets
      nRefCount := s.nRefCount - 1
      sPendingWritePackets := queueSorted lpPacket s.sPendingWritePackets }

/-- The loop body of `HandleOutgoingPackets`, when it can pass on what it dequeues. -/
def outgoing (s : Sending) : Sending :=
  match dequeue s.nNextWriteOrderToProcess s.sPendingWritePackets with
  | none => s
  | some (lpPacket, cList) =>
    { s with
      sPendingWritePackets := cList
      nOutgoingWrites := s.nOutgoingWrites - 1
      nNextWriteOrderToProcess := interlockedIncrement s.nNextWriteOrderToProcess
      done := s.done ++ [lpPacket] }

def next (options : Options) (s : Sending) : Action → Sending
  | .sendMsg lpData outcomes => (sendMsg options outcomes s lpData).1
  | .sendStream lpStream outcome => (sendStream outcome s lpStream).1
  | .afterWriteSignal outcome => (afterWriteSignal outcome s).1
  | .dispatchWriteRequest i => s.dispatchWriteRequest i
  | .outgoing => s.outgoing

/-- The state of a new connection after the actions. -/
def run (options : Options) (actions : List Action) : Sending := actions.foldl (next options) {}

/-- **Nothing blocks the connection**: the packet that was sent `i`-th has the order that is expected
after `i` packets, so that the orders of those to come have no gap and begin with the next expected
one, and `HandleOutgoingPackets` takes the next of them when it is the first in the list. -/
structure Unblocked (s : Sending) : Prop where
  turn : ∀ i lpPacket, s.sent[i]? = some lpPacket → lpPacket.nOrder = (1 + i) % ulong
  gapFree : ∀ i lpPacket, s.sent[s.done.length + i]? = some lpPacket →
    lpPacket.nOrder = (s.nNextWriteOrderToProcess + i) % ulong
  taken : ∀ lpPacket cList, s.sent[s.done.length]? = some lpPacket →
    s.sPendingWritePackets = lpPacket :: cList →
      dequeue s.nNextWriteOrderToProcess s.sPendingWritePackets = some (lpPacket, cList)

/-- When a packet is posted, the number of the posts that have failed is a multiple of `2 ^ 32`, so
that these leave no gap; `nFailed` of them were before. -/
def Steady (nFailed : Nat) : List Bool → Prop
  | [] => True
  | true :: posts => nFailed % ulong = 0 ∧ Steady nFailed posts
  | false :: posts => Steady (nFailed + 1) posts

/-! ### A failed call -/

theorem remove_append_self (lpPacket : Packet Request) (cList : List (Packet Request)) :
    remove lpPacket (cList ++ [lpPacket]) = cList := by
  rw [remove, List.reverse_append, List.reverse_singleton, List.singleton_append,
    List.erase_cons_head, List.reverse_reverse]

/-- **After a failed `Post`** the connection is as it was before, but for the order that was taken. -/
theorem post_failed (s : Sending) (request : Request) (err : Fault) :
    s.sendPacket request (.postFails err) =
      ({ s with
          nNextWriteOrder := interlockedIncrement s.nNextWriteOrder
          posts := s.posts ++ [false] }, err.hRes) := by
  simp only [sendPacket, prepare, discard, remove_append_self, Nat.add_sub_cancel]

/-! ### The orders of the packets -/

/-- The orders that the posted packets got, when `n` were taken before. -/
def numbers (n : Nat) : List Bool → List Nat
  | [] => []
  | true :: posts => (n + 1) % ulong :: numbers (n + 1) posts
  | false :: posts => numbers (n + 1) posts

theorem numbers_append (n : Nat) (l r : List Bool) :
    numbers n (l ++ r) = numbers n l ++ numbers (n + l.length) r := by
  induction l generalizing n with
  | nil => rfl
  | cons b l ih =>
    have hlen : n + 1 + l.length = n + (b :: l).length := by
      rw [List.length_cons]
      omega
    cases b with
    | true => rw [List.cons_append, numbers, numbers, ih, hlen, List.cons_append]
    | false => rw [List.cons_append, numbers, numbers, ih, hlen]

/-- The posted packets have consecutive orders when no order is lost between them. -/
theorem numbers_consecutive_iff (posts : List Bool) (n nFailed : Nat) :
    (∀ i nOrder, (numbers (n + nFailed) posts)[i]? = some nOrder → nOrder = (n + 1 + i) % ulong) ↔
      Steady nFailed posts := by
  induction posts generalizing n nFailed with
  | nil => simp [numbers, Steady]
  | cons b posts ih =>
    cases b with
    | false =>
      rw [numbers, Steady, ← ih n (nFailed + 1), Nat.add_assoc n nFailed 1]
    | true =>
      rw [numbers, Steady, ← ih (n + 1) nFailed]
      have hfirst : (n + nFailed + 1) % ulong = (n + 1) % ulong ↔ nFailed % ulong = 0 := by
        simp only [ulong]
        omega
      have hrest : n + nFailed + 1 = n + 1 + nFailed := by omega
      constructor
      · intro h
        refine ⟨hfirst.mp (h 0 _ rfl), ?_⟩
        intro i nOrder hi
        rw [← hrest] at hi
        rw [h (i + 1) nOrder (by rw [List.getElem?_cons_succ, hi])]
        congr 1
        omega
      · rintro ⟨hzero, h⟩ i nOrder hi
        cases i with
        | zero =>
          rw [List.getElem?_cons_zero, Option.some_inj] at hi
          rw [← hi]
          exact hfirst.mpr hzero
        | succ i =>
          rw [List.getElem?_cons_succ, hrest] at hi
          rw [h i nOrder hi]
          congr 1
          omega

/-! ### The invariant of the runs -/

/-- The orders are those that the posts have given. -/
structure Inv (s : Sending) : Prop where
  order : s.nNextWriteOrder = s.posts.length % ulong
  sent : s.sent.map Packet.nOrder = numbers 0 s.posts
  expected : s.nNextWriteOrderToProcess = (1 + s.done.length) % ulong

theorem Inv.init : Inv {} := ⟨rfl, rfl, rfl⟩

theorem Inv.sendPacket {s : Sending} (h : Inv s) (request : Request) (outcome : Outcome) :
    Inv (s.sendPacket request outcome).1 := by
  have horder : interlockedIncrement s.nNextWriteOrder = (s.posts.length + 1) % ulong := by
    rw [interlockedIncrement, h.order, Nat.mod_add_mod]
  cases outcome with
  | noPacket => exact h
  | postFails err =>
    rw [post_failed]
    refine ⟨?_, ?_, h.expected⟩
    · rw [List.length_append, List.length_singleton]
      exact horder
    · rw [numbers_append, numbers, numbers, List.append_nil]
      exact h.sent
  | posted =>
    refine ⟨?_, ?_, h.expected⟩
    · change interlockedIncrement s.nNextWriteOrder = (s.posts ++ [true]).length % ulong
      rw [List.length_append, List.length_singleton]
      exact horder
    · change (s.sent ++ [_]).map Packet.nOrder = numbers 0 (s.posts ++ [true])
      rw [numbers_append, List.map_append, h.sent, Nat.zero_add]
      exact congrArg (numbers 0 s.posts ++ [·]) horder

theorem Inv.sendBlocks {options : Options} {outcomes : Nat → Outcome} {s : Sending} (h : Inv s)
    (lpData : List Byte) : Inv (sendBlocks options outcomes s lpData).1 := by
  induction outcomes, s, lpData using sendBlocks.induct options with
  | case1 outcomes s =>
    rw [Sending.sendBlocks, dif_pos rfl]
    exact h
  | case2 outcomes s lpData hne s' hRes heq hfailed =>
    rw [Sending.sendBlocks, dif_neg hne, heq]
    simp only [hfailed, if_true]
    have hstep := h.sendPacket (.data (fillBuffer options lpData hne)) (outcomes 0)
    rw [heq] at hstep
    exact hstep
  | case3 outcomes s lpData hne s' hRes heq hfailed ih =>
    rw [Sending.sendBlocks, dif_neg hne, heq]
    simp only [hfailed]
    have hstep := h.sendPacket (.data (fillBuffer options lpData hne)) (outcomes 0)
    rw [heq] at hstep
    exact ih hstep

theorem Inv.next {options : Options} {s : Sending} (h : Inv s) (action : Action) :
    Inv (next options s action) := by
  cases action with
  | sendMsg lpData outcomes =>
    rcases lpData with - | lpData
    · exact h
    · rw [Sending.next, Sending.sendMsg]
      split
      · exact h
      · exact h.sendBlocks lpData
  | sendStream lpStream outcome => exact h.sendPacket _ outcome
  | afterWriteSignal outcome => exact h.sendPacket _ outcome
  | dispatchWriteRequest i =>
    rw [Sending.next, Sending.dispatchWriteRequest]
    split
    · exact h
    · exact ⟨h.order, h.sent, h.expected⟩
  | outgoing =>
    rw [Sending.next, Sending.outgoing]
    split
    · exact h
    · refine ⟨h.order, h.sent, ?_⟩
      rw [List.length_append, List.length_singleton, ← Nat.add_assoc, interlockedIncrement, h.expected,
        Nat.mod_add_mod]

theorem inv_run (options : Options) (actions : List Action) : Inv (run options actions) := by
  rw [run]
  refine List.foldlRecOn actions (next options) Inv.init ?_
  intro s h action _
  exact h.next action

/-- **A connection is not blocked** if and only if no `Post` has failed before another packet was
posted, or so many that the orders are the expected ones again. -/
theorem unblocked_iff (options : Options) (actions : List Action) :
    Unblocked (run options actions) ↔ Steady 0 (run options actions).posts := by
  have hinv := inv_run options actions
  set s := run options actions
  have hturn : (∀ i lpPacket, s.sent[i]? = some lpPacket → lpPacket.nOrder = (1 + i) % ulong) ↔
      Steady 0 s.posts := by
    rw [← numbers_consecutive_iff s.posts 0 0, ← hinv.sent]
    constructor
    · intro h i nOrder hi
      rw [List.getElem?_map, Option.map_eq_some_iff] at hi
      obtain ⟨lpPacket, hget, rfl⟩ := hi
      rw [Nat.zero_add]
      exact h i lpPacket hget
    · intro h i lpPacket hget
      have hi := h i lpPacket.nOrder (by rw [List.getElem?_map, hget, Option.map_some])
      rwa [Nat.zero_add] at hi
  constructor
  · intro h
    exact hturn.mp h.turn
  · intro hsteady
    have hall := hturn.mpr hsteady
    refine ⟨hall, ?_, ?_⟩
    · intro i lpPacket hget
      rw [hall _ _ hget, hinv.expected, Nat.mod_add_mod, Nat.add_assoc]
    · intro lpPacket cList hget hlist
      rw [hlist, dequeue, if_pos]
      rw [hall _ _ hget, hinv.expected, beq_self_eq_true]

/-- `ERROR_NO_SYSTEM_RESOURCES`, which `PostQueuedCompletionStatus` may leave. -/
def noSystemResources : Fault := ⟨.other 0x800705AA, rfl⟩

/-- **A `Post` fails and the next call succeeds**: its packet has the order `2` and stays in the list,
as `HandleOutgoingPackets` looks for the order `1`. -/
theorem not_unblocked :
    ∃ options : Options,
      let s := run options [.afterWriteSignal (.postFails noSystemResources), .afterWriteSignal .posted,
        .dispatchWriteRequest 0, .outgoing, .outgoing]
      s.sPendingWritePackets = [⟨2, .afterWriteSignal⟩] ∧ s.nNextWriteOrderToProcess = 1 ∧
        s.done = [] ∧ ¬ Unblocked s := by
  refine ⟨⟨8192, 1, 0, le_rfl, by decide, by decide, by decide⟩, rfl, rfl, rfl, ?_⟩
  intro h
  have hturn := h.turn 0 ⟨2, .afterWriteSignal⟩ rfl
  revert hturn
  decide

end Sending

end MxLib.Ipc
