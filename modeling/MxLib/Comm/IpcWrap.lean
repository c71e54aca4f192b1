import MxLib.Comm.IpcCommon

/-!
# Packets around the wrap of the counter

Both `HandleIncomingPackets` and `HandleOutgoingPackets` take the packets of a sorted list one by
one, each with the order after that of the last.  The orders have 32 bits and begin anywhere, so
that after `0xFFFFFFFF` comes `0`, which the list sorts before it.  The packets are numbered here
without a bound, the `i`-th has the order `c + i` modulo `2 ^ 32`.

What `Dequeue` returns is always the next packet (`Wrapping.Inv`).  It finds that packet unless one
that was numbered after the wrap is in the list together with it (`Wrapping.Mixed`).
-/

namespace MxLib.Ipc

variable {β : Type*} {c : Nat} {body : Nat → β}

/-- The `i`-th packet, when the first has the order `c`. -/
def packetAt (c : Nat) (body : Nat → β) (i : Nat) : Packet β := ⟨(c + i) % ulong, body i⟩

@[simp] theorem packetAt_nOrder (i : Nat) : (packetAt c body i).nOrder = (c + i) % ulong := rfl

/-- So many packets may be pending at once. -/
abbrev maxPending : Nat := 2 ^ 31

/-- Packets that are less than the range of the counter apart have different orders. -/
theorem eq_of_order_eq {i j k : Nat} (hi : k ≤ i) (hj : k ≤ j) (hik : i < k + maxPending)
    (hjk : j < k + maxPending) (h : (c + i) % ulong = (c + j) % ulong) : i = j := by
  simp only [ulong, maxPending] at *
  omega

/-- The list, the next order that is expected and what was dequeued so far. -/
structure Wrapping (β : Type*) where
  cList : List (Packet β)
  nNextOrder : Nat
  returned : List (Packet β)

namespace Wrapping

variable {queued : List Nat} {s : Wrapping β}

/-- The body of the loops of `HandleIncomingPackets` and `HandleOutgoingPackets`. -/
def next (s : Wrapping β) : Wrapping β :=
  match dequeue s.nNextOrder s.cList with
  | none => s
  | some (lpPacket, cList) =>
    { cList
      nNextOrder := interlockedIncrement s.nNextOrder
      returned := s.returned ++ [lpPacket] }

/-- A run in which the packets with the indexes `queued` were queued.  Each is queued once, and the
numbers are at most `maxPending` ahead of what was dequeued. -/
inductive Reached (c : Nat) (body : Nat → β) : List Nat → Wrapping β → Prop
  | init : Reached c body [] ⟨[], c % ulong, []⟩
  | queueSorted {queued : List Nat} {s : Wrapping β} {i : Nat} (h : Reached c body queued s)
      (hnew : i ∉ queued) (hpending : i < s.returned.length + maxPending) :
      Reached c body (queued ++ [i]) { s with cList := queueSorted (packetAt c body i) s.cList }
  | dequeue {queued : List Nat} {s : Wrapping β} (h : Reached c body queued s) :
      Reached c body queued s.next

/-- **What is wanted of a run**: the packets are returned in the order of the counter, each of those
that were queued was returned once or is in the list once, and `Dequeue` finds the expected one. -/
structure Right (c : Nat) (body : Nat → β) (queued : List Nat) (s : Wrapping β) : Prop where
  inOrder : s.returned = (List.range s.returned.length).map (packetAt c body)
  once : (s.returned ++ s.cList).Perm (queued.map (packetAt c body)) ∧ queued.Nodup
  expected : s.nNextOrder = (c + s.returned.length) % ulong
  finds : ∀ p ∈ s.cList, p.nOrder = s.nNextOrder → ∃ l, dequeue s.nNextOrder s.cList = some (p, l)

/-- How often the counter wrapped before the `i`-th packet. -/
def wraps (c i : Nat) : Nat := (c + i) / ulong

/-- The packet that is expected is in the list, and so is one from after the next wrap. -/
def Mixed (c : Nat) (queued : List Nat) (s : Wrapping β) : Prop :=
  s.returned.length ∈ queued ∧ ∃ j ∈ queued, wraps c s.returned.length < wraps c j

/-! ### The invariant of the runs -/

/-- `pending` has the indexes of what is in the list. -/
structure Inv (c : Nat) (body : Nat → β) (queued pending : List Nat) (s : Wrapping β) : Prop where
  inOrder : s.returned = (List.range s.returned.length).map (packetAt c body)
  expected : s.nNextOrder = (c + s.returned.length) % ulong
  sorted : Sorted s.cList
  perm : s.cList.Perm (pending.map (packetAt c body))
  split : (List.range s.returned.length ++ pending).Perm queued
  nodup : queued.Nodup
  lt : ∀ i ∈ pending, i < s.returned.length + maxPending

variable {pending : List Nat}

theorem Inv.init : Inv c body [] [] ⟨[], c % ulong, []⟩ where
  inOrder := rfl
  expected := rfl
  sorted := Sorted.nil
  perm := List.Perm.refl _
  split := List.Perm.refl _
  nodup := List.nodup_nil
  lt := by
    intro i hi
    cases hi

/-- What is in the list is not before the expected packet. -/
theorem Inv.le (h : Inv c body queued pending s) : ∀ i ∈ pending, s.returned.length ≤ i := by
  intro i hi
  have hnodup := h.split.symm.nodup h.nodup
  by_contra hlt
  exact (List.nodup_append.mp hnodup).2.2 i (List.mem_range.mpr (by omega)) i hi rfl

theorem Inv.mem_iff (h : Inv c body queued pending s) {i : Nat} (hi : s.returned.length ≤ i) :
    i ∈ queued ↔ i ∈ pending := by
  rw [← h.split.mem_iff, List.mem_append, List.mem_range]
  constructor
  · rintro (hlt | hmem)
    · omega
    · exact hmem
  · exact Or.inr

/-- The orders in the list are those of different packets. -/
theorem Inv.eq_of_order (h : Inv c body queued pending s) {i j : Nat} (hi : i ∈ pending)
    (hj : s.returned.length ≤ j) (hjlt : j < s.returned.length + maxPending)
    (heq : (c + i) % ulong = (c + j) % ulong) : i = j :=
  eq_of_order_eq (h.le i hi) hj (h.lt i hi) hjlt heq

/-- **`QueueSorted` keeps the invariant.** -/
theorem Inv.queueSorted (h : Inv c body queued pending s) {i : Nat} (hnew : i ∉ queued)
    (hpending : i < s.returned.length + maxPending) :
    Inv c body (queued ++ [i]) (i :: pending)
      { s with cList := queueSorted (packetAt c body i) s.cList } where
  inOrder := h.inOrder
  expected := h.expected
  sorted := by
    have hle : s.returned.length ≤ i := by
      by_contra hlt
      exact hnew (h.split.subset (List.mem_append_left _ (List.mem_range.mpr (by omega))))
    refine h.sorted.queueSorted ?_
    intro p hp heq
    obtain ⟨j, hj, rfl⟩ := List.mem_map.mp (h.perm.subset hp)
    have hij := h.eq_of_order hj hle hpending heq
    rw [hij] at hj
    exact hnew ((h.mem_iff hle).mpr hj)
  perm := (perm_queueSorted _ _).trans (h.perm.cons _)
  split := by
    refine List.perm_middle.trans ?_
    exact (h.split.cons i).trans (List.perm_append_singleton i queued).symm
  nodup := by
    refine List.nodup_append.mpr ⟨h.nodup, List.pairwise_singleton _ i, ?_⟩
    intro a ha b hb
    rw [List.mem_singleton.mp hb]
    exact fun heq => hnew (heq ▸ ha)
  lt := by
    intro j hj
    rcases List.mem_cons.mp hj with rfl | hj
    · exact hpending
    · exact h.lt j hj

/-- What `Dequeue` gives is the expected packet. -/
theorem Inv.eq_packetAt (h : Inv c body queued pending s) {p : Packet β} (hp : p ∈ s.cList)
    (hnext : p.nOrder = s.nNextOrder) :
    s.returned.length ∈ pending ∧ p = packetAt c body s.returned.length := by
  obtain ⟨i, hi, rfl⟩ := List.mem_map.mp (h.perm.subset hp)
  rw [h.expected] at hnext
  have heq := h.eq_of_order hi le_rfl (by simp only [maxPending]; omega) hnext
  exact ⟨heq ▸ hi, by rw [heq]⟩

/-- **`Dequeue` keeps the invariant.** -/
theorem Inv.next (h : Inv c body queued pending s) : ∃ pending', Inv c body queued pending' s.next := by
  rw [Wrapping.next]
  split
  · exact ⟨pending, h⟩
  · rename_i lpPacket cList hdequeue
    obtain ⟨hlist, horder⟩ := dequeue_eq_some hdequeue
    have hmem : lpPacket ∈ s.cList := by
      rw [hlist]
      exact List.mem_cons_self
    obtain ⟨hfirst, rfl⟩ := h.eq_packetAt hmem horder
    set k := s.returned.length with hk
    have herase : pending.Perm (k :: pending.erase k) := List.perm_cons_erase hfirst
    refine ⟨pending.erase k, ?_⟩
    have hlen : (s.returned ++ [packetAt c body k]).length = k + 1 := by
      rw [List.length_append, List.length_singleton]
    refine ⟨?_, ?_, ?_, ?_, ?_, h.nodup, ?_⟩
    · rw [hlen, List.range_succ, List.map_append, ← h.inOrder]
      rfl
    · rw [hlen, interlockedIncrement, h.expected, Nat.mod_add_mod, Nat.add_assoc]
    · have hsorted := h.sorted
      rw [hlist] at hsorted
      exact (List.pairwise_cons.mp hsorted).2
    · have hperm := h.perm.trans (herase.map _)
      rw [hlist, List.map_cons] at hperm
      exact hperm.cons_inv
    · rw [hlen, List.range_succ, List.append_assoc, List.singleton_append]
      exact (herase.symm.append_left _).trans h.split
    · intro i hi
      have := h.lt i (List.mem_of_mem_erase hi)
      rw [hlen]
      omega

theorem Reached.inv (h : Reached c body queued s) : ∃ pending, Inv c body queued pending s := by
  induction h with
  | init => exact ⟨[], Inv.init⟩
  | queueSorted _ hnew hpending ih =>
    obtain ⟨pending, hinv⟩ := ih
    exact ⟨_, hinv.queueSorted hnew hpending⟩
  | dequeue _ ih =>
    obtain ⟨pending, hinv⟩ := ih
    exact hinv.next

/-! ### What `Dequeue` finds -/

/-- An order is smaller than the expected one after a wrap only. -/
theorem order_lt_iff {k j : Nat} (hj : k ≤ j) (hlt : j < k + maxPending) :
    (c + j) % ulong < (c + k) % ulong ↔ wraps c k < wraps c j := by
  simp only [wraps, ulong, maxPending] at *
  omega

/-- **Mixed lists**: they have a packet with a smaller order. -/
theorem Inv.mixed_iff (h : Inv c body queued pending s) :
    Mixed c queued s ↔
      s.returned.length ∈ pending ∧ ∃ p ∈ s.cList, p.nOrder < s.nNextOrder := by
  rw [Mixed, h.mem_iff le_rfl]
  refine and_congr_right fun _ => ?_
  rw [h.expected]
  constructor
  · rintro ⟨j, hj, hwrap⟩
    have hle : s.returned.length ≤ j := by
      by_contra hlt
      have hmono : wraps c j ≤ wraps c s.returned.length := Nat.div_le_div_right (by omega)
      omega
    have hjp := (h.mem_iff hle).mp hj
    refine ⟨packetAt c body j, h.perm.symm.subset (List.mem_map_of_mem hjp), ?_⟩
    exact (order_lt_iff hle (h.lt j hjp)).mpr hwrap
  · rintro ⟨p, hp, hsmall⟩
    obtain ⟨j, hj, rfl⟩ := List.mem_map.mp (h.perm.subset hp)
    exact ⟨j, (h.mem_iff (h.le j hj)).mpr hj, (order_lt_iff (h.le j hj) (h.lt j hj)).mp hsmall⟩

/-- **The head of a sorted list** is the packet with the expected order, if that is in the list and
no order is smaller. -/
theorem exists_dequeue_iff {cList : List (Packet β)} (hsorted : Sorted cList) {p : Packet β}
    (hp : p ∈ cList) :
    (∃ l, dequeue p.nOrder cList = some (p, l)) ↔ ∀ q ∈ cList, p.nOrder ≤ q.nOrder := by
  rcases cList with - | ⟨q, cList⟩
  · cases hp
  obtain ⟨hless, -⟩ := List.pairwise_cons.mp hsorted
  constructor
  · rintro ⟨l, hl⟩
    obtain ⟨hcons, -⟩ := dequeue_eq_some hl
    obtain ⟨rfl, -⟩ := List.cons.inj hcons
    intro r hr
    rcases List.mem_cons.mp hr with rfl | hr
    · exact le_rfl
    · exact (hless r hr).le
  · intro hmin
    rcases List.mem_cons.mp hp with rfl | hp
    · exact ⟨cList, by rw [dequeue, if_pos (beq_self_eq_true _)]⟩
    · have hlt := hless p hp
      have hge := hmin q List.mem_cons_self
      omega

/-- **Packets come in the order of the counter**, whatever the wraps and the order in which they are
queued, if and only if the expected one is never in the list with one from after the wrap. -/
theorem right_iff (h : Reached c body queued s) : Right c body queued s ↔ ¬ Mixed c queued s := by
  obtain ⟨pending, hinv⟩ := h.inv
  rw [hinv.mixed_iff]
  constructor
  · rintro hright ⟨hfirst, q, hq, hsmall⟩
    have hp : packetAt c body s.returned.length ∈ s.cList :=
      hinv.perm.symm.subset (List.mem_map_of_mem hfirst)
    have hfinds := hright.finds _ hp hinv.expected.symm
    rw [show s.nNextOrder = (packetAt c body s.returned.length).nOrder from hinv.expected] at hfinds hsmall
    have hle := (exists_dequeue_iff hinv.sorted hp).mp hfinds q hq
    omega
  · intro hmixed
    refine ⟨hinv.inOrder, ⟨?_, hinv.nodup⟩, hinv.expected, ?_⟩
    · have hsplit := hinv.split.map (packetAt c body)
      rw [List.map_append, ← hinv.inOrder] at hsplit
      exact (hinv.perm.append_left s.returned).trans hsplit
    · intro p hp hnext
      obtain ⟨hfirst, -⟩ := hinv.eq_packetAt hp hnext
      rw [← hnext]
      refine (exists_dequeue_iff hinv.sorted hp).mpr ?_
      intro q hq
      by_contra hlt
      exact hmixed ⟨hfirst, q, hq, by omega⟩

/-- Three packets from `0xFFFFFFFE` on, the first of which was dequeued. -/
def beforeWrap : Wrapping Nat :=
  ⟨[packetAt 0xFFFFFFFE id 1], 0xFFFFFFFF, [packetAt 0xFFFFFFFE id 0]⟩

theorem reached_beforeWrap : Reached 0xFFFFFFFE id [1, 0] beforeWrap :=
  .dequeue (.queueSorted (.queueSorted .init List.not_mem_nil (by decide)) (by decide) (by decide))

theorem right_beforeWrap : Right 0xFFFFFFFE id [1, 0] beforeWrap :=
  (right_iff reached_beforeWrap).mpr (by
    rintro ⟨-, j, hj, hwrap⟩
    revert hwrap
    revert j
    decide)

/-- **Then the packet with the order `0` is queued**, and the one with the order `0xFFFFFFFF`, which
is expected and in the list, is not found. -/
theorem not_right_wrap :
    ∃ s : Wrapping Nat, Reached 0xFFFFFFFE id [1, 0, 2] s ∧ packetAt 0xFFFFFFFE id 1 ∈ s.cList ∧
      (packetAt 0xFFFFFFFE id 1).nOrder = s.nNextOrder ∧ dequeue s.nNextOrder s.cList = none ∧
      ¬ Right 0xFFFFFFFE id [1, 0, 2] s := by
  have hreached : Reached 0xFFFFFFFE id [1, 0, 2] _ :=
    .queueSorted (i := 2) reached_beforeWrap (by decide) (by decide)
  have hlost : dequeue 0xFFFFFFFF (queueSorted (packetAt 0xFFFFFFFE id 2) beforeWrap.cList) = none := by decide
  refine ⟨_, hreached, by decide, by decide, hlost, ?_⟩
  intro h
  obtain ⟨l, hl⟩ := h.finds (packetAt 0xFFFFFFFE id 1) (by decide) (by decide)
  cases hlost.symm.trans hl

end Wrapping

end MxLib.Ipc
