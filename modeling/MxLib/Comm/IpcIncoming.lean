import MxLib.Comm.IpcConnection

/-!
# The order of what is read

A read gets its number when it is posted, and its packet is in the pool, in the list of the read
packets or with a thread until its bytes are received.  The thread that has dequeued a packet has the
one with the next order, so what was received are the packets of the reads `1, 2, …, g` (`Incoming`).
-/

namespace MxLib.Ipc

open MxLib.Library

/-- The read packet that a thread has. -/
def Thread.reading : Thread → List (Packet (List Byte))
  | .read lpPacket | .receive lpPacket => [lpPacket]
  | _ => []

/-- One for a thread that has received its packet and moves the counter. -/
def Thread.advancing : Thread → Nat
  | .incomingNext => 1
  | _ => 0

/-- The handlers that will look at the read packets. -/
def Thread.looksIn : Thread → Bool
  | .readPaused | .incoming | .receive _ | .incomingNext => true
  | _ => false

/-- The packets that have arrived and were not received, but for the threads. -/
def Connection.waiting (s : Connection) (threads : List Thread) : List (Packet (List Byte)) :=
  s.sReadPackets ++ threads.flatMap Thread.reading

def advancings (threads : List Thread) : Nat := (threads.map Thread.advancing).sum

/-- **The reads `1, …, g` were received**, and the others are somewhere. -/
structure Incoming (s : Connection) (g : Nat) : Prop where
  turn : Turn ulong g s.nReads (advancings s.threads) s.nNextReadOrderToProcess
    (s.reads ++ (s.waiting s.threads).map Packet.nOrder)
  number : s.nNextReadOrder = s.nReads
  sorted : Sorted s.sReadPackets
  holder : ∀ p, .receive p ∈ s.threads → p.nOrder = s.nNextReadOrderToProcess
  order : s.received.map Packet.nOrder = List.range' 1 g
  data : s.sReceivedData = s.received.flatMap Packet.body
  arrived : s.arrived.Perm (s.received ++ s.waiting s.threads)
  awake : (∃ p ∈ s.sReadPackets, p.nOrder = s.nNextReadOrderToProcess) →
    s.bInputProcessingPaused = true ∨ true ∈ s.resumes ∨ ∃ t ∈ s.threads, t.looksIn = true

theorem Incoming.init : Incoming {} 0 where
  turn := Turn.nil (by decide)
  number := rfl
  sorted := Sorted.nil
  holder := fun p h => by cases h
  order := rfl
  data := rfl
  arrived := .refl _
  awake := by
    rintro ⟨p, hp, -⟩
    cases hp

section Step

variable {options : Options} {bPending : Bool} {s s' : Connection} {l r : List Thread} {t : Thread} {g : Nat}

theorem advancings_append (l r : List Thread) : advancings (l ++ r) = advancings l + advancings r := by
  rw [advancings, List.map_append, List.sum_append, advancings, advancings]

theorem advancings_cons (t : Thread) (r : List Thread) : advancings (t :: r) = t.advancing + advancings r := by
  rw [advancings, List.map_cons, List.sum_cons, advancings]

theorem waiting_split (s : Connection) (l r : List Thread) (t : Thread) :
    (s.waiting (l ++ t :: r)).Perm (t.reading ++ s.waiting (l ++ r)) := by
  refine List.perm_iff_count.mpr fun p => ?_
  simp only [Connection.waiting, List.flatMap_append, List.flatMap_cons, List.count_append]
  omega

/-- The reads, seen from one of the threads. -/
theorem Incoming.turn_of (h : Incoming s g) (hth : s.threads = l ++ t :: r) :
    Turn ulong g s.nReads (t.advancing + advancings (l ++ r)) s.nNextReadOrderToProcess
      (t.reading.map Packet.nOrder ++ (s.reads ++ (s.waiting (l ++ r)).map Packet.nOrder)) := by
  have hturn := h.turn
  rw [hth, advancings_append, advancings_cons, Nat.add_left_comm, ← advancings_append] at hturn
  refine hturn.congr ?_
  have hperm := ((waiting_split s l r t).map Packet.nOrder).symm
  rw [List.map_append] at hperm
  refine List.Perm.trans ?_ (hperm.append_left s.reads)
  rw [← List.append_assoc, ← List.append_assoc]
  exact List.perm_append_comm.append_right _

theorem Incoming.arrived_of (h : Incoming s g) (hth : s.threads = l ++ t :: r) :
    s.arrived.Perm (s.received ++ (t.reading ++ s.waiting (l ++ r))) := by
  have harrived := h.arrived
  rw [hth] at harrived
  exact harrived.trans ((waiting_split s l r t).append_left _)

/-- The parts of the connection that the reads are about. -/
structure SameReads (s' s : Connection) : Prop where
  nReads : s'.nReads = s.nReads
  nNextReadOrder : s'.nNextReadOrder = s.nNextReadOrder
  nNextReadOrderToProcess : s'.nNextReadOrderToProcess = s.nNextReadOrderToProcess
  reads : s'.reads = s.reads
  sReadPackets : s'.sReadPackets = s.sReadPackets
  sReceivedData : s'.sReceivedData = s.sReceivedData
  arrived : s'.arrived = s.arrived
  received : s'.received = s.received
  paused : s'.bInputProcessingPaused = s.bInputProcessingPaused
  resumes : s'.resumes = s.resumes

theorem SameReads.refl (s : Connection) : SameReads s s := ⟨rfl, rfl, rfl, rfl, rfl, rfl, rfl, rfl, rfl, rfl⟩

/-- Who is about to handle a read. -/
def Thread.isIncoming : Thread → Bool
  | .read _ | .receive _ | .incoming | .incomingNext => true
  | _ => false

variable (options bPending s) in
/-- What has to do with writes leaves the reads alone. -/
theorem exec_sameReads (hincoming : t.isIncoming = false) :
    SameReads (exec options bPending s t).1 s ∧
      ∀ t' ∈ (exec options bPending s t).2, t'.reading = [] ∧ t'.advancing = 0 := by
  cases t with
  | read | receive | incoming | incomingNext => cases hincoming
  | outgoingPacket =>
    rw [exec]
    split
    · exact ⟨.refl _, fun t' ht => by cases ht⟩
    · rename_i lpPacket cList hdequeue
      refine ⟨⟨rfl, rfl, rfl, rfl, rfl, rfl, rfl, rfl, rfl, rfl⟩, fun t' ht => ?_⟩
      obtain rfl := Option.mem_some_iff.mp ht
      obtain ⟨nOrder, body⟩ := lpPacket
      cases body <;> exact ⟨rfl, rfl⟩
  | readPaused | outgoing | outgoingBytes | signalBytes =>
    refine ⟨.refl _, fun t' ht => ?_⟩
    rw [exec] at ht
    dsimp only at ht
    split at ht <;> first | (obtain rfl := Option.mem_some_iff.mp ht; exact ⟨rfl, rfl⟩) | cases ht
  | signal | stream =>
    refine ⟨.refl _, fun t' ht => ?_⟩
    obtain rfl := Option.mem_some_iff.mp ht
    split <;> exact ⟨rfl, rfl⟩
  | streamRead nOrder lpNewPacket lpStream =>
    cases lpNewPacket <;> cases lpStream <;>
      exact ⟨⟨rfl, rfl, rfl, rfl, rfl, rfl, rfl, rfl, rfl, rfl⟩,
        fun t' ht => by obtain rfl := Option.mem_some_iff.mp ht; exact ⟨rfl, rfl⟩⟩
  | sendWritePacket nOrder aBuffer lpStream =>
    rw [exec]
    split
    · refine ⟨⟨rfl, rfl, rfl, rfl, rfl, rfl, rfl, rfl, rfl, rfl⟩, fun t' ht => ?_⟩
      obtain rfl := Option.mem_some_iff.mp ht
      cases lpStream <;> exact ⟨rfl, rfl⟩
    · exact ⟨⟨rfl, rfl, rfl, rfl, rfl, rfl, rfl, rfl, rfl, rfl⟩,
        fun t' ht => by obtain rfl := Option.mem_some_iff.mp ht; exact ⟨rfl, rfl⟩⟩
  | written nOrder aBuffer lpStream =>
    refine ⟨⟨rfl, rfl, rfl, rfl, rfl, rfl, rfl, rfl, rfl, rfl⟩, fun t' ht => ?_⟩
    obtain rfl := Option.mem_some_iff.mp ht
    cases lpStream <;> exact ⟨rfl, rfl⟩
  | _ =>
    exact ⟨⟨rfl, rfl, rfl, rfl, rfl, rfl, rfl, rfl, rfl, rfl⟩,
      fun t' ht => by obtain rfl := Option.mem_some_iff.mp ht; exact ⟨rfl, rfl⟩⟩

theorem mem_replaced {u : Thread} {t' : List Thread} (hth : s.threads = l ++ t :: r)
    (hu : u ∈ l ++ (t' ++ r)) : u ∈ t' ∨ u ∈ s.threads := by
  rw [hth]
  rcases List.mem_append.mp hu with hu | hu
  · exact Or.inr (List.mem_append_left _ hu)
  · rcases List.mem_append.mp hu with hu | hu
    · exact Or.inl hu
    · exact Or.inr (List.mem_append_right _ (List.mem_cons_of_mem _ hu))

theorem mem_others {u : Thread} (hth : s.threads = l ++ t :: r) (hu : u ∈ s.threads) (hne : u ≠ t)
    (t' : List Thread) : u ∈ l ++ (t' ++ r) := by
  rw [hth] at hu
  rcases List.mem_append.mp hu with hu | hu
  · exact List.mem_append_left _ hu
  · rcases List.mem_cons.mp hu with rfl | hu
    · exact absurd rfl hne
    · exact List.mem_append_right _ (List.mem_append_right _ hu)

theorem waiting_replaced (s : Connection) (l r : List Thread) (t' : List Thread) :
    (s.waiting (l ++ (t' ++ r))).Perm (t'.flatMap Thread.reading ++ s.waiting (l ++ r)) := by
  refine List.perm_iff_count.mpr fun p => ?_
  simp only [Connection.waiting, List.flatMap_append, List.count_append]
  omega

theorem advancings_replaced (l r t' : List Thread) :
    advancings (l ++ (t' ++ r)) = advancings t' + advancings (l ++ r) := by
  rw [advancings_append, advancings_append, advancings_append]
  omega

/-- A thread that has to do with writes goes on. -/
theorem Incoming.other (h : Incoming s g) (hth : s.threads = l ++ t :: r) (hincoming : t.isIncoming = false) :
    Incoming { (exec options bPending s t).1 with
      threads := l ++ ((exec options bPending s t).2.toList ++ r) } g := by
  obtain ⟨hsame, hnew⟩ := exec_sameReads options bPending s hincoming
  have hreading : t.reading = [] ∧ t.advancing = 0 := by
    cases t <;> first | exact ⟨rfl, rfl⟩ | cases hincoming
  have hlooks : t.looksIn = true → t = .readPaused := by
    intro hlook
    cases t with
    | readPaused => rfl
    | incoming | receive | incomingNext => cases hincoming
    | _ => cases hlook
  have hpaused : t = .readPaused → s.bInputProcessingPaused = true ∨
      (exec options bPending s t).2 = some .incoming := by
    rintro rfl
    rw [exec]
    cases hp : s.bInputProcessingPaused with
    | true => exact Or.inl rfl
    | false => exact Or.inr rfl
  generalize exec options bPending s t = x at hsame hnew hpaused
  obtain ⟨s₁, t'⟩ := x
  have hnew' : t'.toList.flatMap Thread.reading = [] ∧ advancings t'.toList = 0 := by
    cases t' with
    | none => exact ⟨rfl, rfl⟩
    | some t' =>
      obtain ⟨h1, h2⟩ := hnew t' rfl
      refine ⟨(List.flatMap_singleton _ _).trans h1, ?_⟩
      rw [Option.toList_some, advancings_cons, h2]
      rfl
  have hwaiting : s₁.waiting (l ++ r) = s.waiting (l ++ r) := by
    rw [Connection.waiting, hsame.sReadPackets, Connection.waiting]
  have hperm : (s₁.waiting (l ++ (t'.toList ++ r))).Perm (s.waiting (l ++ r)) := by
    have hrep := waiting_replaced s₁ l r t'.toList
    rw [hnew'.1, List.nil_append, hwaiting] at hrep
    exact hrep
  refine ⟨?_, ?_, ?_, ?_, ?_, ?_, ?_, ?_⟩
  · have hturn := h.turn_of hth
    rw [hreading.1, hreading.2, Nat.zero_add, List.map_nil, List.nil_append] at hturn
    show Turn ulong g s₁.nReads (advancings (l ++ (t'.toList ++ r))) s₁.nNextReadOrderToProcess
      (s₁.reads ++ (s₁.waiting (l ++ (t'.toList ++ r))).map Packet.nOrder)
    rw [hsame.nReads, hsame.nNextReadOrderToProcess, hsame.reads, advancings_replaced, hnew'.2, Nat.zero_add]
    exact hturn.congr ((hperm.map _).append_left _)
  · exact hsame.nNextReadOrder.trans (h.number.trans hsame.nReads.symm)
  · show Sorted s₁.sReadPackets
    rw [hsame.sReadPackets]
    exact h.sorted
  · intro p hp
    show p.nOrder = s₁.nNextReadOrderToProcess
    rw [hsame.nNextReadOrderToProcess]
    rcases mem_replaced hth hp with hp | hp
    · cases (hnew _ (Option.mem_toList.mp hp)).1
    · exact h.holder p hp
  · show s₁.received.map Packet.nOrder = _
    rw [hsame.received, h.order]
  · show s₁.sReceivedData = s₁.received.flatMap Packet.body
    rw [hsame.received, hsame.sReceivedData, h.data]
  · show s₁.arrived.Perm (s₁.received ++ s₁.waiting (l ++ (t'.toList ++ r)))
    rw [hsame.arrived, hsame.received]
    have harrived := h.arrived_of hth
    rw [hreading.1, List.nil_append] at harrived
    exact harrived.trans (hperm.symm.append_left _)
  · show (∃ p ∈ s₁.sReadPackets, p.nOrder = s₁.nNextReadOrderToProcess) →
      s₁.bInputProcessingPaused = true ∨ true ∈ s₁.resumes ∨ ∃ t ∈ l ++ (t'.toList ++ r), t.looksIn = true
    rw [hsame.sReadPackets, hsame.nNextReadOrderToProcess, hsame.paused, hsame.resumes]
    intro hin
    rcases h.awake hin with hp | hres | ⟨u, hu, hlook⟩
    · exact Or.inl hp
    · exact Or.inr (Or.inl hres)
    · by_cases hut : u = t
      · -- the thread that found the input not paused goes on to look
        rw [hut] at hlook
        rcases hpaused (hlooks hlook) with hp | hgo
        · exact Or.inl hp
        · have hgo : t' = some .incoming := hgo
          refine Or.inr (Or.inr ⟨.incoming, ?_, rfl⟩)
          rw [hgo]
          exact List.mem_append_right _ (List.mem_append_left _ (List.mem_singleton_self _))
      · exact Or.inr (Or.inr ⟨u, mem_others hth hu hut _, hlook⟩)

/-- A packet that was read joins the read packets. -/
theorem Incoming.read {lpPacket : Packet (List Byte)} (h : Incoming s g)
    (hth : s.threads = l ++ .read lpPacket :: r) :
    Incoming { s with
      sReadPackets := queueSorted lpPacket s.sReadPackets
      threads := l ++ ([.readPaused] ++ r) } g := by
  have hqueued : (queueSorted lpPacket s.sReadPackets ++ (l ++ ([Thread.readPaused] ++ r)).flatMap
      Thread.reading).Perm (lpPacket :: s.waiting (l ++ r)) := by
    have hnone : Thread.readPaused.reading = [] := rfl
    refine ((perm_queueSorted _ _).append_right _).trans (List.perm_iff_count.mpr fun p => ?_)
    simp only [Connection.waiting, List.flatMap_append, List.flatMap_cons, List.nil_append, List.cons_append,
      List.count_cons, List.count_append, hnone]
  have hturn : Turn ulong g s.nReads (0 + advancings (l ++ r)) s.nNextReadOrderToProcess
      (lpPacket.nOrder :: (s.reads ++ (s.waiting (l ++ r)).map Packet.nOrder)) := h.turn_of hth
  refine ⟨?_, h.number, ?_, ?_, h.order, h.data, ?_, ?_⟩
  · show Turn ulong g s.nReads (advancings (l ++ ([Thread.readPaused] ++ r))) _ _
    rw [advancings_replaced]
    refine hturn.congr (List.Perm.trans ((hqueued.map _).append_left _) ?_)
    exact List.perm_middle
  · refine h.sorted.queueSorted fun q hq heq => ?_
    have hnodup := hturn.nodup
    refine (List.nodup_cons.mp hnodup).1 (List.mem_append_right _ ?_)
    rw [← heq]
    exact List.mem_map_of_mem (List.mem_append_left _ hq)
  · intro p hp
    rcases mem_replaced hth hp with hp | hp
    · cases List.mem_singleton.mp hp
    · exact h.holder p hp
  · exact (h.arrived_of hth).trans (hqueued.symm.append_left _)
  · intro _
    refine Or.inr (Or.inr ⟨.readPaused, ?_, rfl⟩)
    exact List.mem_append_right _ (List.mem_append_left _ (List.mem_singleton_self _))

/-- The next read packet is dequeued. -/
theorem Incoming.dequeue {lpPacket : Packet (List Byte)} {cList : List (Packet (List Byte))}
    (h : Incoming s g) (hth : s.threads = l ++ .incoming :: r)
    (hdequeue : Ipc.dequeue s.nNextReadOrderToProcess s.sReadPackets = some (lpPacket, cList)) :
    Incoming { s with
      sReadPackets := cList
      threads := l ++ ([.receive lpPacket] ++ r) } g := by
  obtain ⟨hpackets, horder⟩ := dequeue_eq_some hdequeue
  have hperm : (cList ++ (l ++ ([Thread.receive lpPacket] ++ r)).flatMap Thread.reading).Perm
      (s.waiting (l ++ r)) := by
    have hone : (Thread.receive lpPacket).reading = [lpPacket] := rfl
    refine List.perm_iff_count.mpr fun p => ?_
    simp only [Connection.waiting, hpackets, List.flatMap_append, List.flatMap_cons, List.nil_append,
      List.cons_append, List.count_cons, List.count_append, hone]
    omega
  have hturn := h.turn_of hth
  refine ⟨?_, h.number, ?_, ?_, h.order, h.data, ?_, ?_⟩
  · show Turn ulong g s.nReads (advancings (l ++ ([Thread.receive lpPacket] ++ r))) _ _
    rw [advancings_replaced]
    exact hturn.congr ((hperm.map _).append_left _)
  · have hsorted := h.sorted
    rw [hpackets] at hsorted
    exact (List.pairwise_cons.mp hsorted).2
  · intro p hp
    rcases mem_replaced hth hp with hp | hp
    · cases List.mem_singleton.mp hp
      exact horder
    · exact h.holder p hp
  · exact (h.arrived_of hth).trans (hperm.symm.append_left _)
  · intro _
    refine Or.inr (Or.inr ⟨.receive lpPacket, ?_, rfl⟩)
    exact List.mem_append_right _ (List.mem_append_left _ (List.mem_singleton_self _))

/-- There is no next read packet. -/
theorem Incoming.none (h : Incoming s g) (hth : s.threads = l ++ .incoming :: r)
    (hdequeue : Ipc.dequeue s.nNextReadOrderToProcess s.sReadPackets = none) :
    Incoming { s with threads := l ++ ([.outgoing] ++ r) } g := by
  have hperm : (s.waiting (l ++ ([Thread.outgoing] ++ r))).Perm (s.waiting (l ++ r)) :=
    waiting_replaced s l r [.outgoing]
  have hturn := h.turn_of hth
  refine ⟨?_, h.number, h.sorted, ?_, h.order, h.data, ?_, ?_⟩
  · show Turn ulong g s.nReads (advancings (l ++ ([Thread.outgoing] ++ r))) _ _
    rw [advancings_replaced]
    exact hturn.congr ((hperm.map _).append_left _)
  · intro p hp
    rcases mem_replaced hth hp with hp | hp
    · cases List.mem_singleton.mp hp
    · exact h.holder p hp
  · exact (h.arrived_of hth).trans (hperm.symm.append_left _)
  · rintro ⟨p, hp, hpn⟩
    refine absurd hpn (not_mem_of_dequeue_eq_none h.sorted (fun q hq => ?_) hdequeue p hp)
    have hmem : ∀ q ∈ s.sReadPackets, q.nOrder ∈ s.reads ++ (s.waiting (l ++ r)).map Packet.nOrder :=
      fun q hq => List.mem_append_right _ (List.mem_map_of_mem (List.mem_append_left _ hq))
    obtain ⟨-, hfirst⟩ := hturn.eq_first (hpn ▸ hmem p hp)
    have := (hturn.mem_iff.mp (hmem q hq)).1
    omega

/-- **The next read packet is received.** -/
theorem Incoming.receive {lpPacket : Packet (List Byte)} (h : Incoming s g)
    (hth : s.threads = l ++ .receive lpPacket :: r) :
    Incoming { s with
      sReceivedData := s.sReceivedData ++ lpPacket.body
      received := s.received ++ [lpPacket]
      threads := l ++ ([.incomingNext] ++ r) } (g + 1) := by
  have horder : lpPacket.nOrder = s.nNextReadOrderToProcess :=
    h.holder lpPacket (hth ▸ List.mem_append_right _ List.mem_cons_self)
  have hperm : (s.waiting (l ++ ([Thread.incomingNext] ++ r))).Perm (s.waiting (l ++ r)) :=
    waiting_replaced s l r [.incomingNext]
  have hturn := h.turn_of hth
  have hturn' : Turn ulong g s.nReads (0 + advancings (l ++ r)) s.nNextReadOrderToProcess
      (s.nNextReadOrderToProcess :: (s.reads ++ (s.waiting (l ++ r)).map Packet.nOrder)) := horder ▸ hturn
  obtain ⟨hzero, hnext⟩ := hturn'.eq_first List.mem_cons_self
  refine ⟨?_, h.number, h.sorted, ?_, ?_, ?_, ?_, ?_⟩
  · show Turn ulong (g + 1) s.nReads (advancings (l ++ ([Thread.incomingNext] ++ r))) _ _
    have hleave := hturn'.leave.congr ((hperm.map Packet.nOrder).append_left s.reads)
    rw [advancings_replaced, show advancings [.incomingNext] = 1 from rfl,
      Nat.add_comm 1 (advancings _)]
    rw [Nat.zero_add] at hleave
    exact hleave
  · intro p hp
    rcases mem_replaced hth hp with hp | hp
    · cases List.mem_singleton.mp hp
    · exact h.holder p hp
  · show (s.received ++ [lpPacket]).map Packet.nOrder = _
    rw [List.map_append, h.order, List.map_singleton, horder, hnext, List.range'_concat, Nat.one_mul,
      Nat.add_comm 1 g]
  · show s.sReceivedData ++ lpPacket.body = (s.received ++ [lpPacket]).flatMap Packet.body
    rw [List.flatMap_append, List.flatMap_singleton, h.data]
  · refine (h.arrived_of hth).trans ?_
    show (s.received ++ ([lpPacket] ++ s.waiting (l ++ r))).Perm
      (s.received ++ [lpPacket] ++ s.waiting (l ++ ([Thread.incomingNext] ++ r)))
    rw [List.append_assoc]
    exact (hperm.symm.append_left _).append_left _
  · intro _
    refine Or.inr (Or.inr ⟨.incomingNext, ?_, rfl⟩)
    exact List.mem_append_right _ (List.mem_append_left _ (List.mem_singleton_self _))

/-- **The counter is moved on**: no other thread has a packet to receive then. -/
theorem Incoming.next (h : Incoming s g) (hth : s.threads = l ++ .incomingNext :: r) :
    Incoming { s with
      nNextReadOrderToProcess := interlockedIncrement s.nNextReadOrderToProcess
      threads := l ++ ([.incoming] ++ r) } g := by
  have hperm : (s.waiting (l ++ ([Thread.incoming] ++ r))).Perm (s.waiting (l ++ r)) :=
    waiting_replaced s l r [.incoming]
  have hturn := h.turn_of hth
  rw [show Thread.incomingNext.advancing = 1 from rfl, Nat.add_comm] at hturn
  refine ⟨?_, h.number, h.sorted, ?_, h.order, h.data, ?_, ?_⟩
  · show Turn ulong g s.nReads (advancings (l ++ ([Thread.incoming] ++ r))) (interlockedIncrement _) _
    rw [advancings_replaced, show advancings [.incoming] = 0 from rfl, Nat.zero_add]
    exact hturn.advance.congr ((hperm.map _).append_left _)
  · intro p hp
    rcases mem_replaced hth hp with hp | hp
    · cases List.mem_singleton.mp hp
    · -- it would have the number of the packet that has just been received
      have hpnext := h.holder p hp
      have hin : p ∈ s.waiting (l ++ r) := by
        refine List.mem_append_right _ (List.mem_flatMap.mpr ⟨.receive p, ?_, List.mem_singleton_self _⟩)
        have hothers := mem_others hth hp (fun heq => by cases heq) []
        exact hothers
      have hmem := List.mem_append_right s.reads (List.mem_map_of_mem (f := Packet.nOrder) hin)
      rw [hpnext] at hmem
      exact absurd (hturn.eq_first hmem).1 (Nat.succ_ne_zero _)
  · exact (h.arrived_of hth).trans (hperm.symm.append_left _)
  · intro _
    refine Or.inr (Or.inr ⟨.incoming, ?_, rfl⟩)
    exact List.mem_append_right _ (List.mem_append_left _ (List.mem_singleton_self _))

/-- A thread of the pool goes on. -/
theorem Incoming.thread {i : Nat} (h : Incoming s g)
    (hstep : Ipc.next options s (.thread i bPending) = some s') : ∃ g, Incoming s' g := by
  obtain ⟨l, t, r, hth, rfl⟩ := next_thread hstep
  cases hincoming : t.isIncoming with
  | false => exact ⟨g, h.other hth hincoming⟩
  | true =>
    cases t with
    | read lpPacket => exact ⟨g, h.read hth⟩
    | receive lpPacket => exact ⟨g + 1, h.receive hth⟩
    | incomingNext => exact ⟨g, h.next hth⟩
    | incoming =>
      rw [exec]
      split
      · rename_i hnone
        exact ⟨g, h.none hth hnone⟩
      · rename_i lpPacket cList hsome
        exact ⟨g, h.dequeue hth hsome⟩
    | _ => cases hincoming

/-! ### The steps of the system -/

/-- A step that takes no read away. -/
theorem Incoming.congr (h : Incoming s g) (hsame : SameReads { s' with resumes := s.resumes } s)
    {t : List Thread}
    (hresumes : true ∈ s.resumes →
      s.bInputProcessingPaused = true ∨ true ∈ s'.resumes ∨ ∃ u ∈ s.threads ++ t, u.looksIn = true)
    (hthreads : s'.threads = s.threads ++ t) (hreading : t.flatMap Thread.reading = [])
    (hadvancing : advancings t = 0) (hreceive : ∀ p, .receive p ∉ t) : Incoming s' g := by
  have hwaiting : s'.waiting s'.threads = s.waiting s.threads := by
    rw [Connection.waiting, hthreads, hsame.sReadPackets, List.flatMap_append, hreading, List.append_nil,
      Connection.waiting]
  refine ⟨?_, ?_, ?_, ?_, ?_, ?_, ?_, ?_⟩
  · rw [hsame.nReads, hsame.nNextReadOrderToProcess, hsame.reads, hwaiting, hthreads, advancings_append,
      hadvancing]
    exact h.turn
  · rw [hsame.nNextReadOrder, hsame.nReads, h.number]
  · rw [hsame.sReadPackets]
    exact h.sorted
  · intro p hp
    rw [hsame.nNextReadOrderToProcess]
    rw [hthreads] at hp
    rcases List.mem_append.mp hp with hp | hp
    · exact h.holder p hp
    · exact absurd hp (hreceive p)
  · rw [hsame.received, h.order]
  · rw [hsame.received, hsame.sReceivedData, h.data]
  · rw [hsame.arrived, hsame.received, hwaiting]
    exact h.arrived
  · rw [hsame.sReadPackets, hsame.nNextReadOrderToProcess, hsame.paused, hthreads]
    intro hin
    rcases h.awake hin with hp | hres | ⟨u, hu, hlook⟩
    · exact Or.inl hp
    · exact hresumes hres
    · exact Or.inr (Or.inr ⟨u, List.mem_append_left _ hu, hlook⟩)

/-- A read has completed. -/
theorem Incoming.dispatchRead {i : Nat} {aBuffer : List Byte} (h : Incoming s g)
    (hstep : Ipc.next options s (.dispatchRead i aBuffer) = some s') : Incoming s' g := by
  rw [Ipc.next, Option.bind_eq_some_iff] at hstep
  obtain ⟨nOrder, hget, hstep⟩ := hstep
  split at hstep
  · cases hstep
  · obtain ⟨-, rfl⟩ := dispatch_eq_some hstep
    obtain ⟨a, b, hsplit, herase, -⟩ := exists_append_of_getElem? hget
    have hwaiting : s.sReadPackets ++ (s.threads ++ [Thread.read ⟨nOrder, aBuffer⟩]).flatMap Thread.reading =
        s.waiting s.threads ++ [⟨nOrder, aBuffer⟩] := by
      rw [List.flatMap_append, ← List.append_assoc]
      rfl
    refine ⟨?_, h.number, h.sorted, ?_, h.order, h.data, ?_, ?_⟩
    · show Turn ulong g s.nReads (advancings (s.threads ++ [.read ⟨nOrder, aBuffer⟩])) _
        (s.reads.eraseIdx i ++ (s.sReadPackets ++ (s.threads ++ [Thread.read ⟨nOrder, aBuffer⟩]).flatMap
          Thread.reading).map Packet.nOrder)
      rw [advancings_append, hwaiting, herase, List.map_append]
      refine h.turn.congr (List.perm_iff_count.mpr fun o => ?_)
      simp only [hsplit, List.count_append, List.count_cons, List.map_cons, List.map_nil, List.count_nil]
      omega
    · intro p hp
      rcases List.mem_append.mp hp with hp | hp
      · exact h.holder p hp
      · cases List.mem_singleton.mp hp
    · show (s.arrived ++ [Packet.mk nOrder aBuffer]).Perm (s.received ++ (s.sReadPackets ++
        (s.threads ++ [Thread.read ⟨nOrder, aBuffer⟩]).flatMap Thread.reading))
      rw [hwaiting, ← List.append_assoc]
      exact h.arrived.append_right _
    · intro hin
      rcases h.awake hin with hp | hres | ⟨u, hu, hlook⟩
      · exact Or.inl hp
      · exact Or.inr (Or.inl hres)
      · exact Or.inr (Or.inr ⟨u, List.mem_append_left _ hu, hlook⟩)

/-- A read is posted. -/
theorem Incoming.doRead (h : Incoming s g) (hsmall : s.nReads + 1 < ulong) :
    Incoming { s with
      nNextReadOrder := interlockedIncrement s.nNextReadOrder
      nReads := s.nReads + 1
      reads := s.reads ++ [interlockedIncrement s.nNextReadOrder] } g := by
  have hnumber : interlockedIncrement s.nNextReadOrder = s.nReads + 1 := by
    rw [interlockedIncrement, h.number, Nat.mod_eq_of_lt hsmall]
  refine ⟨?_, hnumber, h.sorted, h.holder, h.order, h.data, h.arrived, h.awake⟩
  show Turn ulong g (s.nReads + 1) _ _
    (s.reads ++ [interlockedIncrement s.nNextReadOrder] ++ (s.waiting s.threads).map Packet.nOrder)
  rw [hnumber]
  refine (h.turn.send hsmall).congr (List.perm_iff_count.mpr fun o => ?_)
  simp only [List.count_append]
  omega

/-- The packet of a call to resume is dispatched. -/
theorem Incoming.dispatchResume {i : Nat} (h : Incoming s g)
    (hstep : Ipc.next options s (.dispatchResume i) = some s') : Incoming s' g := by
  rw [Ipc.next, Option.bind_eq_some_iff] at hstep
  obtain ⟨bIsRead, hget, hstep⟩ := hstep
  obtain ⟨-, rfl⟩ := dispatch_eq_some hstep
  obtain ⟨a, b, hsplit, herase, -⟩ := exists_append_of_getElem? hget
  have hsame : SameReads { s with threads := s.threads ++ [if bIsRead then .incoming else .outgoing] } s :=
    ⟨rfl, rfl, rfl, rfl, rfl, rfl, rfl, rfl, rfl, rfl⟩
  cases bIsRead with
  | true =>
    refine h.congr hsame (fun _ => Or.inr (Or.inr ⟨.incoming, ?_, rfl⟩)) (t := [.incoming]) rfl rfl rfl
      fun p hp => by cases List.mem_singleton.mp hp
    exact List.mem_append_right _ (List.mem_singleton_self _)
  | false =>
    refine h.congr hsame (fun hin => Or.inr (Or.inl ?_)) (t := [.outgoing]) rfl rfl rfl
      fun p hp => by cases List.mem_singleton.mp hp
    show true ∈ s.resumes.eraseIdx i
    rw [herase]
    rw [hsplit] at hin
    rcases List.mem_append.mp hin with hin | hin
    · exact List.mem_append_left _ hin
    · rcases List.mem_cons.mp hin with heq | hin
      · cases heq
      · exact List.mem_append_right _ hin

/-- A thread that has nothing to do with reads joins the others. -/
theorem Incoming.dispatch {t : Thread} (h : Incoming s g) (hreading : t.reading = [])
    (hadvancing : t.advancing = 0) (hreceive : ∀ p, t ≠ .receive p)
    (hstep : Ipc.dispatch options s t = some s') : Incoming s' g := by
  obtain ⟨-, rfl⟩ := dispatch_eq_some hstep
  have hsame : SameReads { s with threads := s.threads ++ [t] } s :=
    ⟨rfl, rfl, rfl, rfl, rfl, rfl, rfl, rfl, rfl, rfl⟩
  refine h.congr hsame (fun hin => Or.inr (Or.inl hin)) (t := [t]) rfl ?_ ?_ ?_
  · rw [List.flatMap_singleton, hreading]
  · rw [advancings_cons, hadvancing]
    rfl
  · intro p hp
    exact hreceive p (List.mem_singleton.mp hp).symm

/-- **Every step keeps the reads in order**, as long as there are fewer than 2^32. -/
theorem Incoming.step {action : Action} (h : Incoming s g) (hstep : Ipc.next options s action = some s')
    (hsmall : s'.nReads < ulong) : ∃ g, Incoming s' g := by
  have hsame : ∀ s'', SameReads { s'' with resumes := s.resumes } s → s''.resumes = s.resumes →
      s''.threads = s.threads → ∃ g, Incoming s'' g := fun s'' hs hresumes hthreads =>
    ⟨g, h.congr hs (fun hin => Or.inr (Or.inl (hresumes ▸ hin))) (t := [])
      (hthreads.trans (List.append_nil _).symm) rfl rfl fun p hp => by cases hp⟩
  cases action with
  | sendMsg lpData =>
    rw [Ipc.next] at hstep
    split at hstep
    · obtain rfl := Option.some.inj hstep
      exact ⟨g, h⟩
    · obtain rfl := Option.some.inj hstep
      exact hsame _ ⟨rfl, rfl, rfl, rfl, rfl, rfl, rfl, rfl, rfl, rfl⟩ rfl rfl
  | sendStream lpStream =>
    obtain rfl := Option.some.inj hstep
    exact hsame _ ⟨rfl, rfl, rfl, rfl, rfl, rfl, rfl, rfl, rfl, rfl⟩ rfl rfl
  | afterWriteSignal =>
    obtain rfl := Option.some.inj hstep
    exact hsame _ ⟨rfl, rfl, rfl, rfl, rfl, rfl, rfl, rfl, rfl, rfl⟩ rfl rfl
  | sender i =>
    obtain ⟨l, lpSender, r, -, rfl⟩ := next_sender hstep
    cases lpSender with
    | sendMsg lpData =>
      rw [execSender]
      split
      · exact hsame { s with senders := _ } ⟨rfl, rfl, rfl, rfl, rfl, rfl, rfl, rfl, rfl, rfl⟩ rfl rfl
      · exact hsame { (Ipc.setOrder s _).1 with senders := _ }
          ⟨rfl, rfl, rfl, rfl, rfl, rfl, rfl, rfl, rfl, rfl⟩ rfl rfl
    | setOrder request => exact hsame _ ⟨rfl, rfl, rfl, rfl, rfl, rfl, rfl, rfl, rfl, rfl⟩ rfl rfl
    | post lpPacket lpData => exact hsame _ ⟨rfl, rfl, rfl, rfl, rfl, rfl, rfl, rfl, rfl, rfl⟩ rfl rfl
  | dispatchWriteRequest i =>
    rw [Ipc.next, Option.bind_eq_some_iff] at hstep
    obtain ⟨lpPacket, -, hstep⟩ := hstep
    obtain ⟨g, hg⟩ := hsame { s with writeRequests := s.writeRequests.eraseIdx i }
      ⟨rfl, rfl, rfl, rfl, rfl, rfl, rfl, rfl, rfl, rfl⟩ rfl rfl
    exact ⟨g, hg.dispatch rfl rfl (fun p heq => by cases heq) hstep⟩
  | dispatchWrite i =>
    rw [Ipc.next, Option.bind_eq_some_iff] at hstep
    obtain ⟨⟨nOrder, aBuffer⟩, -, hstep⟩ := hstep
    obtain ⟨g, hg⟩ := hsame
      { s with
        writes := s.writes.eraseIdx i
        history := s.history ++ [.completed nOrder aBuffer] }
      ⟨rfl, rfl, rfl, rfl, rfl, rfl, rfl, rfl, rfl, rfl⟩ rfl rfl
    exact ⟨g, hg.dispatch rfl rfl (fun p heq => by cases heq) hstep⟩
  | dispatchRead i aBuffer => exact ⟨g, h.dispatchRead hstep⟩
  | dispatchResume i => exact ⟨g, h.dispatchResume hstep⟩
  | thread i bPending => exact h.thread hstep
  | doRead =>
    obtain rfl := Option.some.inj hstep
    exact ⟨g, h.doRead hsmall⟩
  | pauseOutputProcessing =>
    obtain rfl := Option.some.inj hstep
    exact hsame _ ⟨rfl, rfl, rfl, rfl, rfl, rfl, rfl, rfl, rfl, rfl⟩ rfl rfl
  | pauseInputProcessing =>
    obtain rfl := Option.some.inj hstep
    exact ⟨g, h.turn, h.number, h.sorted, h.holder, h.order, h.data, h.arrived, fun _ => Or.inl rfl⟩
  | resumeOutputProcessing =>
    rw [Ipc.next] at hstep
    split at hstep
    · obtain rfl := Option.some.inj hstep
      exact ⟨g, h.congr ⟨rfl, rfl, rfl, rfl, rfl, rfl, rfl, rfl, rfl, rfl⟩
        (fun hin => Or.inr (Or.inl (List.mem_append_left _ hin))) (t := []) (List.append_nil _).symm rfl rfl
        fun p hp => by cases hp⟩
    · obtain rfl := Option.some.inj hstep
      exact ⟨g, h⟩
  | resumeInputProcessing =>
    rw [Ipc.next] at hstep
    split at hstep
    · obtain rfl := Option.some.inj hstep
      exact ⟨g, h.turn, h.number, h.sorted, h.holder, h.order, h.data, h.arrived,
        fun _ => Or.inr (Or.inl (List.mem_append_right _ (List.mem_singleton_self _)))⟩
    · obtain rfl := Option.some.inj hstep
      exact ⟨g, h⟩

end Step

end MxLib.Ipc
