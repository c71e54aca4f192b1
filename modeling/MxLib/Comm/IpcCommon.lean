import Mathlib.Algebra.Order.Ring.Nat
import Mathlib.Data.List.DropRight
import Mathlib.Data.List.Perm.Basic
import Mathlib.Data.Nat.Bitwise

/-!
# Packets

`CPacketBase` and `CPacketList` of the inter-process connections.  A packet has the
order in which it was numbered and carries a body: what is written, or what was read.
The list is doubly linked, so `QueueSorted` looks for the place from the tail.
-/

namespace MxLib.Ipc

variable {β : Type*}

/-- `CPacketBase`: the order, and what the packet carries. -/
structure Packet (β : Type*) where
  nOrder : Nat
  body : β
  deriving DecidableEq

/-- The 32 bits of an order or a counter. -/
abbrev ulong : Nat := 2 ^ 32

/-- `_InterlockedIncrement`, which gives the new value. -/
def interlockedIncrement (n : Nat) : Nat := (n + 1) % ulong

/-! ### `CPacketList` -/

/-- `QueueFirst`. -/
def queueFirst (lpPacket : Packet β) (cList : List (Packet β)) : List (Packet β) := lpPacket :: cList

/-- `QueueSorted`: behind the last packet with a smaller order. -/
def queueSorted (lpPacket : Packet β) (cList : List (Packet β)) : List (Packet β) :=
  let notBefore (lpCurrPacket : Packet β) : Bool := !(lpPacket.nOrder > lpCurrPacket.nOrder)
  cList.rdropWhile notBefore ++ lpPacket :: cList.rtakeWhile notBefore

/-- `Dequeue`: the head, if it has the given order. -/
def dequeue (nOrder : Nat) : List (Packet β) → Option (Packet β × List (Packet β))
  | [] => none
  | lpPacket :: cList => if lpPacket.nOrder == nOrder then some (lpPacket, cList) else none

/-- The orders of the packets increase. -/
def Sorted (cList : List (Packet β)) : Prop := cList.Pairwise fun p q => p.nOrder < q.nOrder

theorem Sorted.nil : Sorted ([] : List (Packet β)) := List.Pairwise.nil

theorem rdropWhile_append_rtakeWhile {α : Type*} (p : α → Bool) (l : List α) :
    l.rdropWhile p ++ l.rtakeWhile p = l := by
  rw [List.rdropWhile, List.rtakeWhile, ← List.reverse_append, List.takeWhile_append_dropWhile,
    List.reverse_reverse]

theorem perm_queueSorted (lpPacket : Packet β) (cList : List (Packet β)) :
    (queueSorted lpPacket cList).Perm (lpPacket :: cList) := by
  rw [queueSorted]
  refine List.perm_middle.trans (List.Perm.cons _ ?_)
  rw [rdropWhile_append_rtakeWhile]

/-- **`QueueSorted` keeps the list sorted.** -/
theorem Sorted.queueSorted {lpPacket : Packet β} {cList : List (Packet β)} (h : Sorted cList)
    (hne : ∀ p ∈ cList, p.nOrder ≠ lpPacket.nOrder) : Sorted (queueSorted lpPacket cList) := by
  set notBefore : Packet β → Bool := fun p => !(lpPacket.nOrder > p.nOrder) with hdef
  have hsplit := rdropWhile_append_rtakeWhile notBefore cList
  have hpair : (cList.rdropWhile notBefore ++ cList.rtakeWhile notBefore).Pairwise
      fun p q => p.nOrder < q.nOrder := by
    rw [hsplit]
    exact h
  obtain ⟨hbefore, hbehind, hcross⟩ := List.pairwise_append.mp hpair
  have hlast : ∀ q ∈ cList.rtakeWhile notBefore, lpPacket.nOrder < q.nOrder := by
    intro q hq
    have hge := List.mem_rtakeWhile_imp hq
    have hmem : q ∈ cList := (List.rtakeWhile_suffix notBefore cList).subset hq
    have := hne q hmem
    simp only [hdef, gt_iff_lt, Bool.not_eq_true', decide_eq_false_iff_not] at hge
    omega
  have hfirst : ∀ p ∈ cList.rdropWhile notBefore, p.nOrder < lpPacket.nOrder := by
    intro p hp
    -- the last of these is smaller, and they increase
    have hnil : cList.rdropWhile notBefore ≠ [] := List.ne_nil_of_mem hp
    have hsmall := List.rdropWhile_last_not notBefore cList hnil
    simp only [hdef, gt_iff_lt, Bool.not_eq_true', decide_eq_false_iff_not, not_not] at hsmall
    rw [← List.dropLast_append_getLast hnil] at hp hbefore
    rcases List.mem_append.mp hp with hp | hp
    · exact ((List.pairwise_append.mp hbefore).2.2 p hp _ (List.mem_singleton_self _)).trans hsmall
    · rw [List.mem_singleton.mp hp]
      exact hsmall
  refine List.pairwise_append.mpr ⟨hbefore, List.pairwise_cons.mpr ⟨hlast, hbehind⟩, ?_⟩
  intro p hp q hq
  rcases List.mem_cons.mp hq with rfl | hq
  · exact hfirst p hp
  · exact hcross p hp q hq

/-- What `Dequeue` gives is the head. -/
theorem dequeue_eq_some {nOrder : Nat} {cList l : List (Packet β)} {lpPacket : Packet β}
    (h : dequeue nOrder cList = some (lpPacket, l)) :
    cList = lpPacket :: l ∧ lpPacket.nOrder = nOrder := by
  rcases cList with - | ⟨p, cList⟩
  · cases h
  · rw [dequeue] at h
    split at h
    · rename_i heq
      obtain ⟨rfl, rfl⟩ := Prod.mk.inj (Option.some.inj h)
      exact ⟨rfl, beq_iff_eq.mp heq⟩
    · cases h

/-- **`Dequeue` misses nothing**: where it gives nothing, no packet of the list has an
order that is not above those of the others. -/
theorem not_mem_of_dequeue_eq_none {nOrder : Nat} {cList : List (Packet β)} (hsorted : Sorted cList)
    (hfirst : ∀ p ∈ cList, nOrder ≤ p.nOrder) (h : dequeue nOrder cList = none) :
    ∀ p ∈ cList, p.nOrder ≠ nOrder := by
  rcases cList with - | ⟨q, cList⟩
  · intro p hp
    cases hp
  · rw [dequeue] at h
    split at h
    · cases h
    · rename_i hne
      have hq : nOrder < q.nOrder :=
        lt_of_le_of_ne (hfirst q List.mem_cons_self) fun heq => hne (beq_iff_eq.mpr heq.symm)
      intro p hp
      rcases List.mem_cons.mp hp with rfl | hp
      · exact hq.ne'
      · exact (hq.trans ((List.pairwise_cons.mp hsorted).1 p hp)).ne'

end MxLib.Ipc
