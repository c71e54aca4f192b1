import MxLib.Comm.IpcOrder

/-!
# One thread at a time writes

`Outgoing` is the invariant of the packets that are written: they are ordered, wherever they are,
and every thread that has dequeued a packet has the next one.  A thread that has passed on the last
of its packet is **leaving**: it still has to move the counter on.
-/

namespace MxLib.Ipc

open MxLib.Library

/-! ### Where the packets are -/

/-- The packet that a call has numbered and not posted yet. -/
def Sender.packets : Sender → List (Packet Request)
  | .post lpPacket _ => [lpPacket]
  | _ => []

@[simp] theorem Sender.packets_sendMsg (lpData : List Byte) : (Sender.sendMsg lpData).packets = [] := rfl

@[simp] theorem Sender.packets_setOrder (request : Request) : (Sender.setOrder request).packets = [] := rfl

@[simp] theorem Sender.packets_post (lpPacket : Packet Request) (lpData : List Byte) :
    (Sender.post lpPacket lpData).packets = [lpPacket] := rfl

/-- What is left of the packet that a thread has dequeued. -/
def Thread.dequeued : Thread → List (Packet Request)
  | .signal nOrder | .signalInvoke nOrder | .signalRequeue nOrder => [⟨nOrder, .afterWriteSignal⟩]
  | .stream nOrder lpNewPacket lpStream | .streamRead nOrder lpNewPacket lpStream
  | .streamRequeue nOrder lpNewPacket lpStream => [⟨nOrder, .stream lpNewPacket lpStream⟩]
  | .doWrite nOrder aBuffer none => [⟨nOrder, .data aBuffer⟩]
  | .doWrite nOrder aBuffer (some lpStream) => [⟨nOrder, .stream (some aBuffer) lpStream⟩]
  | .sendWritePacket nOrder _ (some lpStream) | .written nOrder _ (some lpStream) =>
    [⟨nOrder, .stream none lpStream⟩]
  | _ => []

/-- The packet of a thread, dequeued or not queued yet. -/
def Thread.packets : Thread → List (Packet Request)
  | .writeRequest lpPacket => [lpPacket]
  | lpThread => lpThread.dequeued

@[simp] theorem Thread.packets_writeRequest (lpPacket : Packet Request) :
    (Thread.writeRequest lpPacket).packets = [lpPacket] := rfl

/-- One for a thread that has passed its packet on and moves the counter. -/
def Thread.leaving : Thread → Nat
  | .outgoingNext | .sendWritePacket _ _ none | .written _ _ none => 1
  | _ => 0

/-- The packets that were sent and are not pending, with those of the given threads. -/
def Connection.elsewhere (s : Connection) (threads : List Thread) : List (Packet Request) :=
  s.senders.flatMap Sender.packets ++ s.writeRequests ++ threads.flatMap Thread.packets

/-- The threads that move the counter. -/
def leavings (threads : List Thread) : Nat := (threads.map Thread.leaving).sum

/-- **Every packet is in its place**: `f` packets were passed on, and the others are the line. -/
structure Outgoing (s : Connection) (f : Nat) (queue : List Request) : Prop where
  ordered : Ordered s.sent (passed s.history) f queue s.nNextWriteOrderToProcess (leavings s.threads)
    s.sPendingWritePackets (s.elsewhere s.threads)
  number : s.nNextWriteOrder = s.sent.length
  holder : ∀ t ∈ s.threads, ∀ p ∈ t.dequeued, p.nOrder = s.nNextWriteOrderToProcess

theorem Outgoing.init : Outgoing {} 0 [] where
  ordered := ⟨Line.nil, .refl _, by decide, ⟨1, rfl, rfl⟩, Sorted.nil⟩
  number := rfl
  holder := by
    intro t ht
    cases ht

/-! ### What is around a thread -/

theorem leavings_append (l r : List Thread) : leavings (l ++ r) = leavings l + leavings r := by
  rw [leavings, List.map_append, List.sum_append, leavings, leavings]

theorem leavings_split (l r : List Thread) (t : Thread) :
    leavings (l ++ t :: r) = t.leaving + leavings (l ++ r) := by
  rw [leavings_append, leavings_append, leavings, leavings, List.map_cons, List.sum_cons, leavings]
  omega

theorem Connection.perm_elsewhere (s : Connection) (l r : List Thread) (t : Thread) :
    (s.elsewhere (l ++ t :: r)).Perm (t.packets ++ s.elsewhere (l ++ r)) := by
  refine List.perm_iff_count.mpr fun p => ?_
  simp only [Connection.elsewhere, List.flatMap_append, List.flatMap_cons, List.count_append]
  omega

/-- A packet that was just dequeued is with its thread. -/
theorem process_dequeued (lpPacket : Packet Request) : (process lpPacket).dequeued = [lpPacket] := by
  obtain ⟨nOrder, body⟩ := lpPacket
  cases body <;> rfl

theorem process_packets (lpPacket : Packet Request) : (process lpPacket).packets = [lpPacket] := by
  obtain ⟨nOrder, body⟩ := lpPacket
  cases body <;> rfl

theorem process_leaving (lpPacket : Packet Request) : (process lpPacket).leaving = 0 := by
  obtain ⟨nOrder, body⟩ := lpPacket
  cases body <;> rfl

theorem mem_of_packets {l r : List Thread} {s : Connection} {t : Thread} {p : Packet Request}
    (ht : t ∈ l ++ r) (hp : p ∈ t.dequeued) : p ∈ s.elsewhere (l ++ r) := by
  refine List.mem_append_right _ (List.mem_flatMap.mpr ⟨t, ht, ?_⟩)
  cases t <;> first | exact hp | cases hp

/-- A thread of the pool neither numbers packets nor posts them. -/
theorem exec_rest (options : Options) (bPending : Bool) (s : Connection) (t : Thread) :
    (exec options bPending s t).1.sent = s.sent ∧
      (exec options bPending s t).1.nNextWriteOrder = s.nNextWriteOrder ∧
      (exec options bPending s t).1.senders = s.senders ∧
      (exec options bPending s t).1.writeRequests = s.writeRequests := by
  cases t with
  | incoming | outgoingPacket =>
    rw [exec]
    split <;> exact ⟨rfl, rfl, rfl, rfl⟩
  | streamRead nOrder lpNewPacket lpStream =>
    cases lpNewPacket <;> cases lpStream <;> exact ⟨rfl, rfl, rfl, rfl⟩
  | sendWritePacket nOrder aBuffer lpStream =>
    rw [exec]
    split <;> exact ⟨rfl, rfl, rfl, rfl⟩
  | _ => exact ⟨rfl, rfl, rfl, rfl⟩

/-- What the next step of a thread has to keep: the packets are ordered, with those that the thread
has afterwards, and the thread has the next one. -/
structure Keeps (s : Connection) (l r : List Thread) (s' : Connection) (t' : List Thread) : Prop where
  ordered : ∃ f queue, Ordered s.sent (passed s'.history) f queue s'.nNextWriteOrderToProcess
    (leavings t' + leavings (l ++ r)) s'.sPendingWritePackets
    (t'.flatMap Thread.packets ++ s.elsewhere (l ++ r))
  holder : ∀ t ∈ t' ++ (l ++ r), ∀ p ∈ t.dequeued, p.nOrder = s'.nNextWriteOrderToProcess

section Step

variable {options : Options} {bPending : Bool} {s : Connection} {l r : List Thread} {t : Thread} {f : Nat}
  {queue : List Request}

/-- The packets, seen from one of the threads. -/
theorem Outgoing.ordered_of (h : Outgoing s f queue) (hth : s.threads = l ++ t :: r) :
    Ordered s.sent (passed s.history) f queue s.nNextWriteOrderToProcess
      (t.leaving + leavings (l ++ r)) s.sPendingWritePackets (t.packets ++ s.elsewhere (l ++ r)) := by
  have hord := h.ordered
  rw [hth, leavings_split] at hord
  exact hord.congr (s.perm_elsewhere l r t).symm

theorem Outgoing.holder_of (h : Outgoing s f queue) (hth : s.threads = l ++ t :: r) :
    ∀ u ∈ l ++ r, ∀ p ∈ u.dequeued, p.nOrder = s.nNextWriteOrderToProcess := by
  intro u hu
  refine h.holder u ?_
  rw [hth]
  rcases List.mem_append.mp hu with hu | hu
  · exact List.mem_append_left _ hu
  · exact List.mem_append_right _ (List.mem_cons_of_mem _ hu)

theorem Outgoing.order_of (h : Outgoing s f queue) (hth : s.threads = l ++ t :: r) :
    ∀ p ∈ t.dequeued, p.nOrder = s.nNextWriteOrderToProcess :=
  h.holder t (hth ▸ List.mem_append_right _ List.mem_cons_self)

/-- A step that touches nothing of this, to a thread with the same packet. -/
theorem Outgoing.keeps_same {s' : Connection} {t' : Thread} (h : Outgoing s f queue)
    (hth : s.threads = l ++ t :: r) (hhistory : passed s'.history = passed s.history)
    (hnext : s'.nNextWriteOrderToProcess = s.nNextWriteOrderToProcess)
    (hpending : s'.sPendingWritePackets = s.sPendingWritePackets)
    (hpackets : t'.packets = t.packets) (hdequeued : t'.dequeued = t.dequeued)
    (hleaving : t'.leaving = t.leaving) : Keeps s l r s' [t'] where
  ordered := by
    refine ⟨f, queue, ?_⟩
    rw [hhistory, hnext, hpending, leavings, List.map_singleton, List.sum_singleton, hleaving,
      List.flatMap_singleton, hpackets]
    exact h.ordered_of hth
  holder := by
    intro u hu p hp
    rw [hnext]
    rcases List.mem_append.mp hu with hu | hu
    · obtain rfl := List.mem_singleton.mp hu
      exact h.order_of hth p (hdequeued ▸ hp)
    · exact h.holder_of hth u hu p hp

/-- A thread that is done had no packet. -/
theorem Outgoing.keeps_done (h : Outgoing s f queue) (hth : s.threads = l ++ t :: r)
    (hpackets : t.packets = []) (hleaving : t.leaving = 0) : Keeps s l r s [] where
  ordered := by
    refine ⟨f, queue, ?_⟩
    have hord := h.ordered_of hth
    rw [hpackets, hleaving] at hord
    exact hord
  holder := fun u hu => h.holder_of hth u hu

/-- A thread that has a packet of its own, with nothing to move on, has the next one. -/
theorem Outgoing.keeps_holding {s' : Connection} {t' : Thread} {p : Packet Request}
    (h : Outgoing s f queue) (hth : s.threads = l ++ t :: r)
    (hnext : s'.nNextWriteOrderToProcess = s.nNextWriteOrderToProcess)
    (hpackets : t'.packets = [p]) (hdequeued : t'.dequeued = [p])
    (hp : p.nOrder = s.nNextWriteOrderToProcess)
    (hordered : ∃ f queue, Ordered s.sent (passed s'.history) f queue s.nNextWriteOrderToProcess
      (t'.leaving + leavings (l ++ r)) s'.sPendingWritePackets (p :: s.elsewhere (l ++ r))) :
    Keeps s l r s' [t'] where
  ordered := by
    rw [hnext, leavings, List.map_singleton, List.sum_singleton, List.flatMap_singleton, hpackets]
    exact hordered
  holder := by
    intro u hu q hq
    rw [hnext]
    rcases List.mem_append.mp hu with hu | hu
    · obtain rfl := List.mem_singleton.mp hu
      rw [hdequeued] at hq
      rw [List.mem_singleton.mp hq]
      exact hp
    · exact h.holder_of hth u hu q hq

/-- A thread that has put its packet somewhere has none, and moves the counter or not. -/
theorem Outgoing.keeps_free {s' : Connection} {t' : Thread} (h : Outgoing s f queue)
    (hth : s.threads = l ++ t :: r)
    (hnext : s'.nNextWriteOrderToProcess = s.nNextWriteOrderToProcess)
    (hpackets : t'.packets = []) (hdequeued : t'.dequeued = [])
    (hordered : ∃ f queue, Ordered s.sent (passed s'.history) f queue s.nNextWriteOrderToProcess
      (t'.leaving + leavings (l ++ r)) s'.sPendingWritePackets (s.elsewhere (l ++ r))) :
    Keeps s l r s' [t'] where
  ordered := by
    rw [hnext, leavings, List.map_singleton, List.sum_singleton, List.flatMap_singleton, hpackets]
    exact hordered
  holder := by
    intro u hu q hq
    rw [hnext]
    rcases List.mem_append.mp hu with hu | hu
    · obtain rfl := List.mem_singleton.mp hu
      rw [hdequeued] at hq
      cases hq
    · exact h.holder_of hth u hu q hq

/-! ### The steps of a thread -/

/-- `QueueSorted` of a write request. -/
theorem Outgoing.keeps_writeRequest {lpPacket : Packet Request} (h : Outgoing s f queue)
    (hth : s.threads = l ++ .writeRequest lpPacket :: r) :
    Keeps s l r { s with sPendingWritePackets := queueSorted lpPacket s.sPendingWritePackets } [.outgoing] :=
  h.keeps_free hth rfl rfl rfl ⟨f, queue, (h.ordered_of hth).queueSorted⟩

/-- `Dequeue` of the next packet. -/
theorem Outgoing.keeps_dequeue {lpPacket : Packet Request} {cList : List (Packet Request)}
    (h : Outgoing s f queue) (hth : s.threads = l ++ .outgoingPacket :: r)
    (hdequeue : dequeue s.nNextWriteOrderToProcess s.sPendingWritePackets = some (lpPacket, cList)) :
    Keeps s l r { s with sPendingWritePackets := cList } [process lpPacket] := by
  obtain ⟨hpending, horder⟩ := dequeue_eq_some hdequeue
  have hord := h.ordered_of hth
  rw [hpending] at hord
  refine h.keeps_holding hth rfl (process_packets lpPacket) (process_dequeued lpPacket) horder ⟨f, queue, ?_⟩
  rw [process_leaving]
  exact hord.dequeue

/-- `QueueFirst` of a packet that waits for the writes before it. -/
theorem Outgoing.keeps_requeue {t t' : Thread} {lpPacket : Packet Request} (h : Outgoing s f queue)
    (hth : s.threads = l ++ t :: r) (hdequeued : t.dequeued = [lpPacket]) (hpackets : t.packets = [lpPacket])
    (hleaving : t'.leaving = t.leaving) (hpackets' : t'.packets = []) (hdequeued' : t'.dequeued = []) :
    Keeps s l r { s with sPendingWritePackets := queueFirst lpPacket s.sPendingWritePackets } [t'] := by
  have horder : lpPacket.nOrder = s.nNextWriteOrderToProcess :=
    h.order_of hth lpPacket (hdequeued ▸ List.mem_singleton_self _)
  have hord := h.ordered_of hth
  rw [hpackets] at hord
  refine h.keeps_free hth rfl hpackets' hdequeued' ⟨f, queue, ?_⟩
  rw [hleaving]
  exact hord.queueFirst horder

/-- A stream was read: what was read belongs to the packet as before. -/
theorem Outgoing.keeps_read {t t' : Thread} {request request' : Request} {nOrder : Nat}
    (h : Outgoing s f queue) (hth : s.threads = l ++ t :: r)
    (hdequeued : t.dequeued = [⟨nOrder, request⟩]) (hpackets : t.packets = [⟨nOrder, request⟩])
    (hdequeued' : t'.dequeued = [⟨nOrder, request'⟩]) (hpackets' : t'.packets = [⟨nOrder, request'⟩])
    (hleaving : t'.leaving = t.leaving) (he : events nOrder request = events nOrder request') :
    Keeps s l r s [t'] := by
  obtain rfl : nOrder = s.nNextWriteOrderToProcess :=
    h.order_of hth ⟨nOrder, request⟩ (hdequeued ▸ List.mem_singleton_self _)
  have hord := h.ordered_of hth
  rw [hpackets] at hord
  obtain ⟨queue', hread⟩ := hord.congr_head he
  refine h.keeps_holding hth rfl hpackets' hdequeued' rfl ⟨f, queue', ?_⟩
  rw [hleaving]
  exact hread

/-- **Something of a packet is passed on**, and the rest stays with the thread. -/
theorem Outgoing.keeps_pass {s' : Connection} {t t' : Thread} {request request' : Request} {nOrder : Nat}
    {e : Event} (h : Outgoing s f queue) (hth : s.threads = l ++ t :: r)
    (hdequeued : t.dequeued = [⟨nOrder, request⟩]) (hpackets : t.packets = [⟨nOrder, request⟩])
    (hdequeued' : t'.dequeued = [⟨nOrder, request'⟩]) (hpackets' : t'.packets = [⟨nOrder, request'⟩])
    (hleaving : t'.leaving = t.leaving) (hhistory : passed s'.history = passed s.history ++ [e])
    (hnext : s'.nNextWriteOrderToProcess = s.nNextWriteOrderToProcess)
    (hpending : s'.sPendingWritePackets = s.sPendingWritePackets)
    (he : events nOrder request = e :: events nOrder request') : Keeps s l r s' [t'] := by
  obtain rfl : nOrder = s.nNextWriteOrderToProcess :=
    h.order_of hth ⟨nOrder, request⟩ (hdequeued ▸ List.mem_singleton_self _)
  have hord := h.ordered_of hth
  rw [hpackets] at hord
  obtain ⟨queue', hpass⟩ := hord.pass he
  refine h.keeps_holding hth hnext hpackets' hdequeued' rfl ⟨f, queue', ?_⟩
  rw [hhistory, hpending, hleaving]
  exact hpass

/-- **The last of a packet is passed on**, and the thread moves the counter. -/
theorem Outgoing.keeps_leave {s' : Connection} {t t' : Thread} {request : Request} {nOrder : Nat} {e : Event}
    (h : Outgoing s f queue) (hth : s.threads = l ++ t :: r)
    (hdequeued : t.dequeued = [⟨nOrder, request⟩]) (hpackets : t.packets = [⟨nOrder, request⟩])
    (hdequeued' : t'.dequeued = []) (hpackets' : t'.packets = []) (hleaving : t.leaving = 0)
    (hleaving' : t'.leaving = 1) (hhistory : passed s'.history = passed s.history ++ [e])
    (hnext : s'.nNextWriteOrderToProcess = s.nNextWriteOrderToProcess)
    (hpending : s'.sPendingWritePackets = s.sPendingWritePackets)
    (he : events nOrder request = [e]) : Keeps s l r s' [t'] := by
  obtain rfl : nOrder = s.nNextWriteOrderToProcess :=
    h.order_of hth ⟨nOrder, request⟩ (hdequeued ▸ List.mem_singleton_self _)
  have hord := h.ordered_of hth
  rw [hpackets, hleaving, Nat.zero_add] at hord
  obtain ⟨queue', hleave⟩ := hord.leave he
  refine h.keeps_free hth hnext hpackets' hdequeued' ⟨f + 1, queue', ?_⟩
  rw [hhistory, hpending, hleaving', Nat.add_comm 1]
  exact hleave

/-- **The counter is moved on**: no other thread has a packet then. -/
theorem Outgoing.keeps_next (h : Outgoing s f queue) (hth : s.threads = l ++ .outgoingNext :: r) :
    Keeps s l r { s with nNextWriteOrderToProcess := interlockedIncrement s.nNextWriteOrderToProcess }
      [.outgoing] := by
  have hord := h.ordered_of hth
  rw [show Thread.outgoingNext.leaving = 1 from rfl, Nat.add_comm] at hord
  have hfree : ∀ u ∈ l ++ r, u.dequeued = [] := by
    intro u hu
    refine List.eq_nil_iff_forall_not_mem.mpr fun p hp => ?_
    have hrest := List.perm_cons_erase (mem_of_packets (s := s) hu hp)
    exact Nat.succ_ne_zero _ ((hord.congr hrest.symm).head (h.holder_of hth u hu p hp)).1
  refine ⟨⟨f, queue, ?_⟩, ?_⟩
  · have hadvance := hord.advance
    rw [← Nat.zero_add (leavings (l ++ r))] at hadvance
    exact hadvance
  · intro u hu p hp
    rcases List.mem_append.mp hu with hu | hu
    · rw [List.mem_singleton.mp hu] at hp
      cases hp
    · rw [hfree u hu] at hp
      cases hp

/-- **Every step of a thread keeps the packets in their places.** -/
theorem Outgoing.keeps (h : Outgoing s f queue) (hth : s.threads = l ++ t :: r) :
    Keeps s l r (exec options bPending s t).1 (exec options bPending s t).2.toList := by
  cases t with
  | writeRequest lpPacket => exact h.keeps_writeRequest hth
  | write nOrder aBuffer => exact h.keeps_same hth rfl rfl rfl rfl rfl rfl
  | read lpPacket => exact h.keeps_same hth rfl rfl rfl rfl rfl rfl
  | readPaused =>
    rw [exec]
    split
    · exact h.keeps_done hth rfl rfl
    · exact h.keeps_same hth rfl rfl rfl rfl rfl rfl
  | incoming =>
    rw [exec]
    split <;> exact h.keeps_same hth rfl rfl rfl rfl rfl rfl
  | receive lpPacket => exact h.keeps_same hth rfl rfl rfl rfl rfl rfl
  | incomingNext => exact h.keeps_same hth rfl rfl rfl rfl rfl rfl
  | outgoing =>
    rw [exec]
    split
    · exact h.keeps_done hth rfl rfl
    · exact h.keeps_same hth rfl rfl rfl rfl rfl rfl
  | outgoingBytes =>
    rw [exec]
    split
    · exact h.keeps_same hth rfl rfl rfl rfl rfl rfl
    · exact h.keeps_done hth rfl rfl
  | outgoingPacket =>
    rw [exec]
    split
    · exact h.keeps_done hth rfl rfl
    · rename_i lpPacket cList hdequeue
      exact h.keeps_dequeue hth hdequeue
  | signal nOrder =>
    rw [exec]
    split <;> exact h.keeps_same hth rfl rfl rfl rfl rfl rfl
  | signalInvoke nOrder =>
    exact h.keeps_leave hth rfl rfl rfl rfl rfl rfl (passed_append _ _) rfl rfl rfl
  | signalRequeue nOrder => exact h.keeps_requeue hth rfl rfl rfl rfl rfl
  | signalBytes =>
    rw [exec]
    split
    · exact h.keeps_done hth rfl rfl
    · exact h.keeps_same hth rfl rfl rfl rfl rfl rfl
  | stream nOrder lpNewPacket lpStream =>
    rw [exec]
    split <;> exact h.keeps_same hth rfl rfl rfl rfl rfl rfl
  | streamRead nOrder lpNewPacket lpStream =>
    cases lpNewPacket with
    | some lpNewPacket => exact h.keeps_same hth rfl rfl rfl rfl rfl rfl
    | none =>
      cases lpStream with
      | nil => exact h.keeps_leave hth rfl rfl rfl rfl rfl rfl (passed_append _ _) rfl rfl rfl
      | cons lpNewPacket lpStream => exact h.keeps_read hth rfl rfl rfl rfl rfl rfl
  | streamRequeue nOrder lpNewPacket lpStream => exact h.keeps_requeue hth rfl rfl rfl rfl rfl
  | outgoingNext => exact h.keeps_next hth
  | doWrite nOrder aBuffer lpStream =>
    cases lpStream with
    | none => exact h.keeps_leave hth rfl rfl rfl rfl rfl rfl (passed_append _ _) rfl rfl rfl
    | some lpStream => exact h.keeps_pass hth rfl rfl rfl rfl rfl (passed_append _ _) rfl rfl rfl
  | sendWritePacket nOrder aBuffer lpStream =>
    rw [exec]
    split
    · cases lpStream <;> exact h.keeps_same hth rfl rfl rfl rfl rfl rfl
    · have hpassed : passed (s.history ++ [.completed nOrder aBuffer]) = passed s.history :=
        (passed_append _ _).trans (List.append_nil _)
      cases lpStream <;> exact h.keeps_same hth hpassed rfl rfl rfl rfl rfl
  | written nOrder aBuffer lpStream =>
    cases lpStream <;> exact h.keeps_same hth rfl rfl rfl rfl rfl rfl

end Step

/-! ### The steps of the system -/

section System

variable {options : Options} {s s' : Connection} {f : Nat} {queue : List Request}

/-- A step that moves packets from one place to another. -/
theorem Outgoing.congr (h : Outgoing s f queue) (hsent : s'.sent = s.sent)
    (hhistory : passed s'.history = passed s.history) (hnumber : s'.nNextWriteOrder = s.nNextWriteOrder)
    (hnext : s'.nNextWriteOrderToProcess = s.nNextWriteOrderToProcess)
    (hpending : s'.sPendingWritePackets = s.sPendingWritePackets)
    (hleavings : leavings s'.threads = leavings s.threads)
    (helsewhere : (s'.elsewhere s'.threads).Perm (s.elsewhere s.threads))
    (hholder : ∀ t ∈ s'.threads, t ∈ s.threads ∨ t.dequeued = []) : Outgoing s' f queue where
  ordered := by
    have hord := h.ordered.congr helsewhere
    rw [hsent, hhistory, hnext, hpending, hleavings]
    exact hord
  number := by rw [hnumber, hsent, h.number]
  holder := by
    intro t ht p hp
    rw [hnext]
    rcases hholder t ht with ht | ht
    · exact h.holder t ht p hp
    · rw [ht] at hp
      cases hp

/-- A thread of the pool goes on. -/
theorem Outgoing.thread {i : Nat} {bPending : Bool} (h : Outgoing s f queue)
    (hstep : next options s (.thread i bPending) = some s') : ∃ f queue, Outgoing s' f queue := by
  obtain ⟨l, t, r, hth, rfl⟩ := next_thread hstep
  have hkeeps : Keeps s l r (exec options bPending s t).1 _ := h.keeps hth
  have hrest := exec_rest options bPending s t
  generalize exec options bPending s t = x at hkeeps hrest
  obtain ⟨s₁, t'⟩ := x
  obtain ⟨hsent, hnumber, hsenders, hrequests⟩ : s₁.sent = s.sent ∧
    s₁.nNextWriteOrder = s.nNextWriteOrder ∧ s₁.senders = s.senders ∧
    s₁.writeRequests = s.writeRequests := hrest
  obtain ⟨f', queue', hord⟩ := hkeeps.ordered
  refine ⟨f', queue', ?_, ?_, ?_⟩
  · have hperm : (s₁.elsewhere (l ++ (t'.toList ++ r))).Perm
        (t'.toList.flatMap Thread.packets ++ s.elsewhere (l ++ r)) := by
      refine List.perm_iff_count.mpr fun p => ?_
      simp only [Connection.elsewhere, hsenders, hrequests, List.flatMap_append, List.count_append]
      omega
    have hleavings : leavings (l ++ (t'.toList ++ r)) = leavings t'.toList + leavings (l ++ r) := by
      rw [leavings_append, leavings_append, leavings_append]
      omega
    show Ordered s₁.sent _ _ _ _ (leavings (l ++ (t'.toList ++ r))) _ _
    rw [hsent, hleavings]
    exact hord.congr hperm
  · show s₁.nNextWriteOrder = s₁.sent.length
    rw [hnumber, hsent, h.number]
  · intro u hu
    refine hkeeps.holder u ?_
    rcases List.mem_append.mp hu with hu | hu
    · exact List.mem_append_right _ (List.mem_append_left _ hu)
    · rcases List.mem_append.mp hu with hu | hu
      · exact List.mem_append_left _ hu
      · exact List.mem_append_right _ (List.mem_append_right _ hu)

/-- A thread without a packet joins the others. -/
theorem Outgoing.dispatch {t : Thread} (h : Outgoing s f queue) (hpackets : t.packets = [])
    (hdequeued : t.dequeued = []) (hleaving : t.leaving = 0)
    (hstep : Ipc.dispatch options s t = some s') : Outgoing s' f queue := by
  obtain ⟨-, rfl⟩ := dispatch_eq_some hstep
  refine h.congr rfl rfl rfl rfl rfl ?_ ?_ ?_
  · show leavings (s.threads ++ [t]) = _
    have hsingle : leavings [t] = 0 := by
      rw [leavings, List.map_singleton, List.sum_singleton, hleaving]
    rw [leavings_append, hsingle, Nat.add_zero]
  · refine List.perm_iff_count.mpr fun p => ?_
    simp only [Connection.elsewhere, List.flatMap_append, List.flatMap_singleton, hpackets,
      List.append_nil, List.count_append]
  · intro u hu
    rcases List.mem_append.mp hu with hu | hu
    · exact Or.inl hu
    · rw [List.mem_singleton.mp hu]
      exact Or.inr hdequeued

/-- A packet gets the next order. -/
theorem Outgoing.setOrder {l r : List Sender} {lpSender : Sender} {lpData : List Byte} {request : Request}
    (h : Outgoing s f queue) (hsenders : s.senders = l ++ lpSender :: r) (hpackets : lpSender.packets = [])
    (hsmall : s.sent.length + 1 < ulong) :
    Outgoing { (Ipc.setOrder s request).1 with
      senders := l ++ .post (Ipc.setOrder s request).2 lpData :: r } f (queue ++ [request]) where
  ordered := by
    have hnumber : interlockedIncrement s.nNextWriteOrder = s.sent.length + 1 := by
      rw [interlockedIncrement, h.number, Nat.mod_eq_of_lt hsmall]
    have hlen : (s.sent ++ [request]).length < ulong := by
      rw [List.length_append, List.length_singleton]
      exact hsmall
    refine (h.ordered.send request hlen).congr ?_
    refine List.perm_iff_count.mpr fun p => ?_
    simp only [Connection.elsewhere, Ipc.setOrder, hsenders, hnumber, hpackets, Sender.packets_post,
      List.flatMap_append, List.flatMap_cons, List.count_append, List.count_nil]
    omega
  number := by
    show interlockedIncrement s.nNextWriteOrder = (s.sent ++ [request]).length
    rw [interlockedIncrement, h.number, Nat.mod_eq_of_lt hsmall, List.length_append, List.length_singleton]
  holder := h.holder

/-- A call goes on. -/
theorem Outgoing.sender {i : Nat} (h : Outgoing s f queue) (hstep : next options s (.sender i) = some s')
    (hsmall : s'.sent.length < ulong) : ∃ queue, Outgoing s' f queue := by
  obtain ⟨l, lpSender, r, hsenders, rfl⟩ := next_sender hstep
  cases lpSender with
  | sendMsg lpData =>
    rw [execSender] at hsmall ⊢
    split at hsmall
    · rename_i hnil
      rw [dif_pos hnil]
      refine ⟨queue, h.congr rfl rfl rfl rfl rfl rfl ?_ fun t ht => Or.inl ht⟩
      simp only [Connection.elsewhere, hsenders, Option.toList_none, List.nil_append, List.flatMap_append,
        List.flatMap_cons, Sender.packets_sendMsg]
      exact .refl _
    · rename_i hne
      rw [dif_neg hne]
      refine ⟨_, h.setOrder hsenders rfl ?_⟩
      have hlen : (s.sent ++ [_]).length < ulong := hsmall
      rw [List.length_append, List.length_singleton] at hlen
      exact hlen
  | setOrder request =>
    refine ⟨_, h.setOrder hsenders rfl ?_⟩
    have hlen : (s.sent ++ [request]).length < ulong := hsmall
    rw [List.length_append, List.length_singleton] at hlen
    exact hlen
  | post lpPacket lpData =>
    refine ⟨queue, h.congr rfl rfl rfl rfl rfl rfl ?_ fun t ht => Or.inl ht⟩
    refine List.perm_iff_count.mpr fun p => ?_
    simp only [execSender, Connection.elsewhere, hsenders, Sender.packets_post, Sender.packets_sendMsg,
      Option.toList_some, List.flatMap_append, List.flatMap_cons, List.flatMap_nil, List.count_append,
      List.count_nil]
    omega

/-- **Every step keeps the packets in their places**, as long as there are fewer than 2^32. -/
theorem Outgoing.step {action : Action} (h : Outgoing s f queue) (hstep : next options s action = some s')
    (hsmall : s'.sent.length < ulong) : ∃ f queue, Outgoing s' f queue := by
  cases action with
  | sendMsg lpData =>
    rw [next] at hstep
    split at hstep
    · obtain rfl := Option.some.inj hstep
      exact ⟨f, queue, h⟩
    · obtain rfl := Option.some.inj hstep
      refine ⟨f, queue, h.congr rfl rfl rfl rfl rfl rfl ?_ fun t ht => Or.inl ht⟩
      simp only [Connection.elsewhere, List.flatMap_append, List.flatMap_singleton, Sender.packets_sendMsg,
        List.append_nil]
      exact .refl _
  | sendStream lpStream =>
    obtain rfl := Option.some.inj hstep
    refine ⟨f, queue, h.congr rfl rfl rfl rfl rfl rfl ?_ fun t ht => Or.inl ht⟩
    simp only [Connection.elsewhere, List.flatMap_append, List.flatMap_singleton, Sender.packets_setOrder,
      List.append_nil]
    exact .refl _
  | afterWriteSignal =>
    obtain rfl := Option.some.inj hstep
    refine ⟨f, queue, h.congr rfl rfl rfl rfl rfl rfl ?_ fun t ht => Or.inl ht⟩
    simp only [Connection.elsewhere, List.flatMap_append, List.flatMap_singleton, Sender.packets_setOrder,
      List.append_nil]
    exact .refl _
  | sender i => exact ⟨f, h.sender hstep hsmall⟩
  | dispatchWriteRequest i =>
    rw [next, Option.bind_eq_some_iff] at hstep
    obtain ⟨lpPacket, hget, hstep⟩ := hstep
    obtain ⟨-, rfl⟩ := dispatch_eq_some hstep
    obtain ⟨l, r, hsplit, herase, -⟩ := exists_append_of_getElem? hget
    refine ⟨f, queue, h.congr rfl rfl rfl rfl rfl ?_ ?_ ?_⟩
    · show leavings (s.threads ++ [.writeRequest lpPacket]) = _
      rw [leavings_append]
      rfl
    · refine List.perm_iff_count.mpr fun p => ?_
      rw [Connection.elsewhere, herase]
      simp only [Connection.elsewhere, hsplit, List.flatMap_append, List.flatMap_singleton,
        Thread.packets_writeRequest, List.count_append, List.count_cons, List.count_nil]
      omega
    · intro u hu
      rcases List.mem_append.mp hu with hu | hu
      · exact Or.inl hu
      · rw [List.mem_singleton.mp hu]
        exact Or.inr rfl
  | dispatchWrite i =>
    rw [next, Option.bind_eq_some_iff] at hstep
    obtain ⟨⟨nOrder, aBuffer⟩, -, hstep⟩ := hstep
    have hwrite : Outgoing
        { s with
          writes := s.writes.eraseIdx i
          history := s.history ++ [.completed nOrder aBuffer] } f queue :=
      h.congr rfl ((passed_append _ _).trans (List.append_nil _)) rfl rfl rfl rfl (.refl _)
        fun t ht => Or.inl ht
    exact ⟨f, queue, hwrite.dispatch rfl rfl rfl hstep⟩
  | dispatchRead i aBuffer =>
    rw [next, Option.bind_eq_some_iff] at hstep
    obtain ⟨nOrder, -, hstep⟩ := hstep
    split at hstep
    · cases hstep
    · have hread : Outgoing
          { s with
            reads := s.reads.eraseIdx i
            arrived := s.arrived ++ [⟨nOrder, aBuffer⟩] } f queue :=
        h.congr rfl rfl rfl rfl rfl rfl (.refl _) fun t ht => Or.inl ht
      exact ⟨f, queue, hread.dispatch rfl rfl rfl hstep⟩
  | dispatchResume i =>
    rw [next, Option.bind_eq_some_iff] at hstep
    obtain ⟨bIsRead, -, hstep⟩ := hstep
    have hres : Outgoing { s with resumes := s.resumes.eraseIdx i } f queue :=
      h.congr rfl rfl rfl rfl rfl rfl (.refl _) fun t ht => Or.inl ht
    cases bIsRead with
    | true => exact ⟨f, queue, hres.dispatch rfl rfl rfl hstep⟩
    | false => exact ⟨f, queue, hres.dispatch rfl rfl rfl hstep⟩
  | thread i bPending => exact h.thread hstep
  | doRead =>
    obtain rfl := Option.some.inj hstep
    exact ⟨f, queue, h.congr rfl rfl rfl rfl rfl rfl (.refl _) fun t ht => Or.inl ht⟩
  | pauseOutputProcessing | pauseInputProcessing =>
    obtain rfl := Option.some.inj hstep
    exact ⟨f, queue, h.congr rfl rfl rfl rfl rfl rfl (.refl _) fun t ht => Or.inl ht⟩
  | resumeOutputProcessing | resumeInputProcessing =>
    rw [next] at hstep
    split at hstep
    · obtain rfl := Option.some.inj hstep
      exact ⟨f, queue, h.congr rfl rfl rfl rfl rfl rfl (.refl _) fun t ht => Or.inl ht⟩
    · obtain rfl := Option.some.inj hstep
      exact ⟨f, queue, h⟩

end System

end MxLib.Ipc
