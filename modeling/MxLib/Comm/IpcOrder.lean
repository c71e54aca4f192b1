import MxLib.Comm.IpcConnection

/-!
# The order of what is written

Every packet that is written gets a number when it is sent and is somewhere until it was passed on:
with the call that sends it, in the pool, in the list of the pending packets or with a thread.  What
is where decides nothing: in the order of their numbers the packets are the line of all that was
sent and was not passed on yet (`Ordered`).  A thread that has dequeued a packet has the one with the
next order, so there is only one such thread, and it is the only one that passes anything on.
-/

namespace MxLib.Ipc

open MxLib.Library

/-- What becomes of a request with the given order: its bytes are passed to `DoWrite`, or its
callback is invoked. -/
def events (nOrder : Nat) : Request → List Event
  | .data aBuffer => [.doWrite nOrder aBuffer]
  | .stream lpLinkedPacket lpStream =>
    (lpLinkedPacket.toList ++ lpStream).map (.doWrite nOrder) ++ [.endOfStream nOrder]
  | .afterWriteSignal => [.invoke nOrder]

def Event.nOrder : Event → Nat
  | .doWrite nOrder _ | .completed nOrder _ | .invoke nOrder | .endOfStream nOrder => nOrder

def Event.isPassed : Event → Bool
  | .completed _ _ => false
  | _ => true

/-- What was passed on: everything but the completions. -/
def passed (history : List Event) : List Event := history.filter Event.isPassed

theorem passed_append (history : List Event) (event : Event) :
    passed (history ++ [event]) = passed history ++ if event.isPassed then [event] else [] := by
  rw [passed, List.filter_append, List.filter_singleton, Bool.cond_eq_ite, passed]

/-- The packets of a line, numbered from `n` on. -/
def numbered (n : Nat) (queue : List Request) : List (Packet Request) :=
  (queue.zipIdx n).map fun x => ⟨x.2, x.1⟩

@[simp] theorem numbered_cons (n : Nat) (request : Request) (queue : List Request) :
    numbered n (request :: queue) = ⟨n, request⟩ :: numbered (n + 1) queue := rfl

theorem numbered_append (n : Nat) (queue : List Request) (request : Request) :
    numbered n (queue ++ [request]) = numbered n queue ++ [⟨n + queue.length, request⟩] := by
  rw [numbered, List.zipIdx_append, List.map_append]
  rfl

theorem map_numbered (n : Nat) (queue : List Request) :
    (numbered n queue).map Packet.nOrder = List.range' n queue.length := by
  induction queue generalizing n with
  | nil => rfl
  | cons request queue ih => rw [numbered_cons, List.map_cons, ih, List.length_cons, List.range'_succ]

/-- What was sent and not passed on is in the list of the pending packets and elsewhere, and is a
line; the counter of the next order is behind by `leaving`. -/
structure Ordered (sent : List Request) (passed : List Event) (f : Nat) (queue : List Request)
    (next leaving : Nat) (pending rest : List (Packet Request)) : Prop where
  line : Line events sent passed f queue
  perm : (pending ++ rest).Perm (numbered (f + 1) queue)
  small : sent.length < ulong
  next_eq : ∃ k, next = k % ulong ∧ k + leaving = f + 1
  sorted : Sorted pending

section Ordered

variable {sent : List Request} {done : List Event} {f next leaving : Nat} {queue : List Request}
  {pending rest rest' l : List (Packet Request)} {p : Packet Request}

/-- Whose turn it is, by the numbers of the packets. -/
theorem Ordered.turn (h : Ordered sent done f queue next leaving pending rest) :
    Turn ulong f sent.length leaving next ((pending ++ rest).map Packet.nOrder) where
  perm := by
    have hlen := h.line.length_eq
    have hperm := h.perm.map Packet.nOrder
    rw [map_numbered] at hperm
    rw [show sent.length - f = queue.length by omega]
    exact hperm
  le := by
    have hlen := h.line.length_eq
    omega
  lt := h.small
  next_eq := h.next_eq

theorem Ordered.congr (h : Ordered sent done f queue next leaving pending rest)
    (hperm : rest'.Perm rest) : Ordered sent done f queue next leaving pending rest' :=
  ⟨h.line, (hperm.append_left pending).trans h.perm, h.small, h.next_eq, h.sorted⟩

/-- The packet with the next order is the head of the line, and the counter is not behind. -/
theorem Ordered.head (h : Ordered sent done f queue next leaving pending (p :: rest))
    (hp : p.nOrder = next) :
    leaving = 0 ∧ next = f + 1 ∧
      ∃ queue', queue = p.body :: queue' ∧ (pending ++ rest).Perm (numbered (f + 2) queue') := by
  have hmem : next ∈ (pending ++ p :: rest).map Packet.nOrder :=
    List.mem_map.mpr ⟨p, List.mem_append_right _ List.mem_cons_self, hp⟩
  obtain ⟨hleaving, hnext⟩ := h.turn.eq_first hmem
  refine ⟨hleaving, hnext, ?_⟩
  have hin : p ∈ numbered (f + 1) queue :=
    h.perm.subset (List.mem_append_right _ List.mem_cons_self)
  cases queue with
  | nil => cases hin
  | cons request queue =>
    rw [numbered_cons] at hin
    rcases List.mem_cons.mp hin with heq | hin
    · refine ⟨queue, by rw [heq], ?_⟩
      have hperm : (p :: (pending ++ rest)).Perm (p :: numbered (f + 2) queue) := by
        have hcons := List.perm_middle.symm.trans h.perm
        rw [numbered_cons, ← heq] at hcons
        exact hcons
      exact hperm.cons_inv
    · -- the others have larger numbers
      have hrange : p.nOrder ∈ List.range' (f + 2) queue.length := by
        rw [← map_numbered]
        exact List.mem_map_of_mem hin
      have := List.mem_range'_1.mp hrange
      omega

/-- A packet is numbered. -/
theorem Ordered.send (h : Ordered sent done f queue next leaving pending rest) (request : Request)
    (hsmall : (sent ++ [request]).length < ulong) :
    Ordered (sent ++ [request]) done f (queue ++ [request]) next leaving pending
      (rest ++ [⟨sent.length + 1, request⟩]) where
  line := h.line.send request
  perm := by
    have hlen := h.line.length_eq
    rw [numbered_append, show f + 1 + queue.length = sent.length + 1 by omega, ← List.append_assoc]
    exact h.perm.append_right _
  small := hsmall
  next_eq := h.next_eq
  sorted := h.sorted

/-- **A packet joins the pending ones.** -/
theorem Ordered.queueSorted (h : Ordered sent done f queue next leaving pending (p :: rest)) :
    Ordered sent done f queue next leaving (queueSorted p pending) rest where
  line := h.line
  perm := (((perm_queueSorted p pending).append_right rest).trans List.perm_middle.symm).trans h.perm
  small := h.small
  next_eq := h.next_eq
  sorted := by
    refine h.sorted.queueSorted fun q hq heq => ?_
    have hnodup := h.turn.nodup
    rw [List.map_append, List.map_cons] at hnodup
    exact (List.nodup_append.mp hnodup).2.2 _ (List.mem_map_of_mem hq) _ List.mem_cons_self heq

/-- The head of the pending packets is dequeued. -/
theorem Ordered.dequeue (h : Ordered sent done f queue next leaving (p :: l) rest) :
    Ordered sent done f queue next leaving l (p :: rest) :=
  ⟨h.line, List.perm_middle.trans h.perm, h.small, h.next_eq, (List.pairwise_cons.mp h.sorted).2⟩

/-- **A packet with the next order goes back to the head of the pending ones.** -/
theorem Ordered.queueFirst (h : Ordered sent done f queue next leaving pending (p :: rest))
    (hp : p.nOrder = next) : Ordered sent done f queue next leaving (queueFirst p pending) rest where
  line := h.line
  perm := List.perm_middle.symm.trans h.perm
  small := h.small
  next_eq := h.next_eq
  sorted := by
    obtain ⟨-, hnext, queue', rfl, hperm⟩ := h.head hp
    refine List.pairwise_cons.mpr ⟨fun q hq => ?_, h.sorted⟩
    have hrange : q.nOrder ∈ List.range' (f + 2) queue'.length := by
      rw [← map_numbered]
      exact List.mem_map_of_mem (hperm.subset (List.mem_append_left _ hq))
    have := List.mem_range'_1.mp hrange
    omega

/-- The packet with the next order may become another one with the same events. -/
theorem Ordered.congr_head {request request' : Request}
    (h : Ordered sent done f queue next leaving pending (⟨next, request⟩ :: rest))
    (he : events next request = events next request') :
    ∃ queue', Ordered sent done f queue' next leaving pending (⟨next, request'⟩ :: rest) := by
  obtain ⟨-, hnext, queue', rfl, hperm⟩ := h.head rfl
  rw [hnext] at he
  refine ⟨request' :: queue', h.line.congr_head he, ?_, h.small, h.next_eq, h.sorted⟩
  rw [numbered_cons, hnext]
  exact List.perm_middle.trans (hperm.cons _)

/-- **The packet with the next order passes something on**, and something is left of it. -/
theorem Ordered.pass {request request' : Request} {e : Event}
    (h : Ordered sent done f queue next leaving pending (⟨next, request⟩ :: rest))
    (he : events next request = e :: events next request') :
    ∃ queue', Ordered sent (done ++ [e]) f queue' next leaving pending (⟨next, request'⟩ :: rest) := by
  obtain ⟨-, hnext, queue', rfl, hperm⟩ := h.head rfl
  rw [hnext] at he
  refine ⟨request' :: queue', h.line.pass he, ?_, h.small, h.next_eq, h.sorted⟩
  rw [numbered_cons, hnext]
  exact List.perm_middle.trans (hperm.cons _)

/-- **The packet with the next order is passed on**, and leaves. -/
theorem Ordered.leave {request : Request} {e : Event}
    (h : Ordered sent done f queue next leaving pending (⟨next, request⟩ :: rest))
    (he : events next request = [e]) :
    ∃ queue', Ordered sent (done ++ [e]) (f + 1) queue' next (leaving + 1) pending rest := by
  obtain ⟨-, hnext, queue', rfl, hperm⟩ := h.head rfl
  rw [hnext] at he
  obtain ⟨k, hk, hkf⟩ := h.next_eq
  exact ⟨queue', h.line.leave he, hperm, h.small, ⟨k, hk, by omega⟩, h.sorted⟩

/-- The counter is moved on. -/
theorem Ordered.advance (h : Ordered sent done f queue next (leaving + 1) pending rest) :
    Ordered sent done f queue (interlockedIncrement next) leaving pending rest := by
  obtain ⟨k, hk, hkf⟩ := h.next_eq
  refine ⟨h.line, h.perm, h.small, ⟨k + 1, ?_, by omega⟩, h.sorted⟩
  rw [interlockedIncrement, hk, Nat.mod_add_mod]

/-- Where `Dequeue` finds nothing, the next packet is not pending. -/
theorem Ordered.not_pending (h : Ordered sent done f queue next leaving pending rest)
    (hnone : Ipc.dequeue next pending = none) : ∀ p ∈ pending, p.nOrder ≠ next := by
  intro p hp heq
  have hmem : next ∈ (pending ++ rest).map Packet.nOrder :=
    List.mem_map.mpr ⟨p, List.mem_append_left _ hp, heq⟩
  obtain ⟨-, hnext⟩ := h.turn.eq_first hmem
  refine not_mem_of_dequeue_eq_none h.sorted (fun q hq => ?_) hnone p hp heq
  have := (h.turn.mem_iff.mp (List.mem_map_of_mem (List.mem_append_left _ hq))).1
  omega

end Ordered

end MxLib.Ipc
