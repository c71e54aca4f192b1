import MxLib.LinkedList

/-!
# Linked lists are sequences

In the memory of any history of calls every list stands for a sequence of nodes (`Represents`):
its links lead through the sequence forwards and backwards, its head, tail and count are those of
the sequence.  What an operation does to the links is said once (`Inserted`, `Removed`): a node
is put between two neighbours or taken out from between them, where the ends of a list are
neighbours too.
-/

namespace MxLib.LnkLst

open Function
open MxLib.Library

variable {α β : Type*}

namespace Heap

/-- The forward links of a list, its head among them. -/
def fwd (h : Heap α β) (b : β) : Option α → Option α
  | none => h.lpHead b
  | some n => h.lpNext n

/-- The backward links of a list, its tail among them. -/
def bwd (h : Heap α β) (b : β) : Option α → Option α
  | none => h.lpTail b
  | some n => h.lpPrev n

@[simp] theorem fwd_none (h : Heap α β) (b : β) : h.fwd b none = h.lpHead b := rfl
@[simp] theorem fwd_some (h : Heap α β) (b : β) (n : α) : h.fwd b (some n) = h.lpNext n := rfl
@[simp] theorem bwd_none (h : Heap α β) (b : β) : h.bwd b none = h.lpTail b := rfl
@[simp] theorem bwd_some (h : Heap α β) (b : β) (n : α) : h.bwd b (some n) = h.lpPrev n := rfl

/-- The list `b` stands for the sequence `l`. -/
structure Represents (h : Heap α β) (b : β) (l : List α) : Prop where
  nodup : l.Nodup
  owner : ∀ n, h.lpList n = some b ↔ n ∈ l
  forward : h.lpHead b :: l.map h.lpNext = l.map some ++ [none]
  backward : l.map h.lpPrev ++ [h.lpTail b] = none :: l.map some
  nCount : h.nCount b = l.length

theorem leads_fwd {h : Heap α β} {b : β} {l : List α} :
    Links.Leads (h.fwd b) none l none ↔ h.lpHead b :: l.map h.lpNext = l.map some ++ [none] := by
  unfold Links.Leads
  rw [List.map_cons, List.map_map]
  rfl

theorem leads_bwd {h : Heap α β} {b : β} {l : List α} :
    Links.Leads (h.bwd b) none l.reverse none ↔
      l.map h.lpPrev ++ [h.lpTail b] = none :: l.map some := by
  unfold Links.Leads
  rw [List.map_cons, List.map_map, ← List.reverse_inj]
  simp [Function.comp_def]

/-- Every list stands for its sequence, and a node in none of them has no links. -/
structure Refines (h : Heap α β) (lists : β → List α) : Prop where
  represents : ∀ b, h.Represents b (lists b)
  detached : ∀ n, h.lpList n = none → h.lpNext n = none ∧ h.lpPrev n = none

theorem refines_init : (Heap.init α β).Refines fun _ => [] where
  represents b := {
    nodup := List.nodup_nil
    owner := by intro n; simp [Heap.init]
    forward := rfl
    backward := rfl
    nCount := rfl }
  detached n _ := ⟨rfl, rfl⟩

section Reading

variable {h h' : Heap α β} {lists : β → List α} {a b : β}
  {l xs ys : List α} {n m : α}

theorem Represents.leadsFwd (hl : h.Represents b l) : Links.Leads (h.fwd b) none l none :=
  leads_fwd.mpr hl.forward

theorem Represents.leadsBwd (hl : h.Represents b l) :
    Links.Leads (h.bwd b) none l.reverse none :=
  leads_bwd.mpr hl.backward

theorem Represents.head (hl : h.Represents b l) : h.lpHead b = l.head? := hl.leadsFwd.head

theorem Represents.tail (hl : h.Represents b l) : h.lpTail b = l.getLast? := by
  have ht := hl.leadsBwd.head
  rwa [List.head?_reverse] at ht

theorem Represents.next (hl : h.Represents b (xs ++ n :: ys)) : h.lpNext n = ys.head? :=
  hl.leadsFwd.next

theorem Represents.prev (hl : h.Represents b (xs ++ n :: ys)) : h.lpPrev n = xs.getLast? := by
  have hb := hl.leadsBwd
  rw [List.reverse_append, List.reverse_cons, List.append_assoc, List.singleton_append] at hb
  have hp := hb.next
  rwa [List.head?_reverse] at hp

/-- A list none of whose members is changed stands for what it stood for. -/
theorem Represents.frame (hl : h.Represents a l)
    (hlist : ∀ m, h'.lpList m = some a ↔ h.lpList m = some a)
    (hends : h'.lpHead a = h.lpHead a ∧ h'.lpTail a = h.lpTail a)
    (hcount : h'.nCount a = h.nCount a)
    (hlinks : ∀ m ∈ l, h'.lpNext m = h.lpNext m ∧ h'.lpPrev m = h.lpPrev m) :
    h'.Represents a l where
  nodup := hl.nodup
  owner m := (hlist m).trans (hl.owner m)
  forward := by
    rw [hends.1, List.map_congr_left fun m hm => (hlinks m hm).1]
    exact hl.forward
  backward := by
    rw [hends.2, List.map_congr_left fun m hm => (hlinks m hm).2]
    exact hl.backward
  nCount := hcount.trans hl.nCount

/-- The neighbours of a place of a list are nodes of that list. -/
theorem Represents.ne_neighbours (hl : h.Represents b (xs ++ ys)) (hm : h.lpList m ≠ some b) :
    some m ≠ xs.getLast? ∧ some m ≠ ys.head? := by
  constructor
  · intro he
    exact hm ((hl.owner m).mpr (List.mem_append_left ys (List.mem_of_getLast? he.symm)))
  · intro he
    exact hm ((hl.owner m).mpr (List.mem_append_right xs (List.mem_of_head? he.symm)))

theorem Refines.empty_iff (hr : h.Refines lists) : h.lpHead b = none ↔ h.lpTail b = none := by
  rw [(hr.represents b).head, (hr.represents b).tail]
  simp

/-- A node in none of the sequences is detached. -/
theorem Refines.lpList_eq_none (hr : h.Refines lists) (hn : ∀ a, n ∉ lists a) :
    h.lpList n = none := by
  cases hlist : h.lpList n with
  | none => rfl
  | some a => exact absurd (((hr.represents a).owner n).mp hlist) (hn a)

end Reading

section Changes

variable [DecidableEq α] [DecidableEq β]

/-- The node `n` has been put between `c` and `d`. -/
structure Inserted (h h' : Heap α β) (b : β) (c : Option α) (n : α) (d : Option α) : Prop where
  fwd : h'.fwd b = update (update (h.fwd b) (some n) d) c (some n)
  bwd : h'.bwd b = update (update (h.bwd b) (some n) c) d (some n)
  lpList : h'.lpList = update h.lpList n (some b)
  nCount : h'.nCount = update h.nCount b (h.nCount b + 1)
  ends : ∀ a, a ≠ b → h'.lpHead a = h.lpHead a ∧ h'.lpTail a = h.lpTail a

/-- The node `n` has been taken out from between `c` and `d`. -/
structure Removed (h h' : Heap α β) (b : β) (c : Option α) (n : α) (d : Option α) : Prop where
  fwd : h'.fwd b = update (update (h.fwd b) c d) (some n) none
  bwd : h'.bwd b = update (update (h.bwd b) d c) (some n) none
  lpList : h'.lpList = update h.lpList n none
  nCount : h'.nCount = update h.nCount b (h.nCount b - 1)
  ends : ∀ a, a ≠ b → h'.lpHead a = h.lpHead a ∧ h'.lpTail a = h.lpTail a

section Ends

variable {h : Heap α β} {b : β} {n : α}

theorem pushHead_inserted (hempty : h.lpHead b = none ↔ h.lpTail b = none)
    (hprev : h.lpPrev n = none) : Inserted h (h.pushHead b n) b none n (h.lpHead b) := by
  have htail : ∀ y, h.lpHead b = some y → h.lpTail b ≠ none := by
    intro y hy ht
    rw [hempty.mpr ht] at hy
    cases hy
  have hsame : update (h.bwd b) (some n) none = h.bwd b := by
    rw [← hprev, ← bwd_some h b, update_eq_self]
  constructor
  case fwd =>
    funext e
    cases hhead : h.lpHead b <;> cases e <;>
      simp [pushHead, hhead, hempty.mp, htail, update_apply]
  case bwd =>
    rw [hsame]
    funext e
    cases hhead : h.lpHead b <;> cases e <;>
      simp [pushHead, hhead, hempty.mp, htail, update_apply]
  case lpList => cases hhead : h.lpHead b <;> simp [pushHead, hhead, hempty.mp, htail]
  case nCount => cases hhead : h.lpHead b <;> simp [pushHead, hhead, hempty.mp, htail]
  case ends =>
    intro a ha
    cases hhead : h.lpHead b <;> simp [pushHead, hhead, hempty.mp, htail, ha]

theorem pushTail_inserted (hempty : h.lpHead b = none ↔ h.lpTail b = none)
    (hnext : h.lpNext n = none) : Inserted h (h.pushTail b n) b (h.lpTail b) n none := by
  have hhead : ∀ y, h.lpTail b = some y → h.lpHead b ≠ none := by
    intro y hy hh
    rw [hempty.mp hh] at hy
    cases hy
  have hsame : update (h.fwd b) (some n) none = h.fwd b := by
    rw [← hnext, ← fwd_some h b, update_eq_self]
  constructor
  case fwd =>
    rw [hsame]
    funext e
    cases htail : h.lpTail b <;> cases e <;>
      simp [pushTail, htail, hempty.mpr, hhead, update_apply]
  case bwd =>
    funext e
    cases htail : h.lpTail b <;> cases e <;>
      simp [pushTail, htail, hempty.mpr, hhead, update_apply]
  case lpList => cases htail : h.lpTail b <;> simp [pushTail, htail, hempty.mpr, hhead]
  case nCount => cases htail : h.lpTail b <;> simp [pushTail, htail, hempty.mpr, hhead]
  case ends =>
    intro a ha
    cases htail : h.lpTail b <;> simp [pushTail, htail, hempty.mpr, hhead, ha]

end Ends

section Middle

variable {h : Heap α β} {b : β} {n y z : α}

theorem pushAfter_inserted (htail : h.lpTail b ≠ some y) (hny : y ≠ n)
    (hnext : h.lpNext y = some z) :
    Inserted h (h.pushAfter b n (some y)) b (some y) n (some z) := by
  have hbranch : some y ≠ h.lpTail b := fun he => htail he.symm
  constructor
  case fwd => funext e; cases e <;> simp [pushAfter, hbranch, hny, hnext, update_apply]
  case bwd => funext e; cases e <;> simp [pushAfter, hbranch, hny, hnext, update_apply]
  case lpList => simp [pushAfter, hbranch, hny, hnext]
  case nCount => simp [pushAfter, hbranch, hny, hnext]
  case ends => intro a _; simp [pushAfter, hbranch, hny, hnext]

theorem pushBefore_inserted (hhead : h.lpHead b ≠ some y) (hny : y ≠ n)
    (hprev : h.lpPrev y = some z) :
    Inserted h (h.pushBefore b n (some y)) b (some z) n (some y) := by
  have hbranch : some y ≠ h.lpHead b := fun he => hhead he.symm
  constructor
  case fwd => funext e; cases e <;> simp [pushBefore, hbranch, hny, hprev, update_apply]
  case bwd => funext e; cases e <;> simp [pushBefore, hbranch, hny, hprev, update_apply]
  case lpList => simp [pushBefore, hbranch, hny, hprev]
  case nCount => simp [pushBefore, hbranch, hny, hprev]
  case ends => intro a _; simp [pushBefore, hbranch, hny, hprev]

theorem remove_removed (hhead : h.lpHead b = some n ↔ h.lpPrev n = none)
    (htail : h.lpTail b = some n ↔ h.lpNext n = none)
    (hself : h.lpNext n ≠ some n ∧ h.lpPrev n ≠ some n) :
    Removed h (h.remove b n) b (h.lpPrev n) n (h.lpNext n) := by
  rcases hself with ⟨_, _⟩
  constructor
  case fwd =>
    funext e
    cases hp : h.lpPrev n <;> cases hx : h.lpNext n <;> cases e <;>
      simp_all [remove, update_apply]
  case bwd =>
    funext e
    cases hp : h.lpPrev n <;> cases hx : h.lpNext n <;> cases e <;>
      simp_all [remove, update_apply]
  case lpList =>
    cases hp : h.lpPrev n <;> cases hx : h.lpNext n <;> simp_all [remove, update_apply]
  case nCount =>
    cases hp : h.lpPrev n <;> cases hx : h.lpNext n <;> simp_all [remove, update_apply]
  case ends =>
    intro a ha
    cases hp : h.lpPrev n <;> cases hx : h.lpNext n <;> simp_all [remove, update_apply]

end Middle

section Effects

variable {h h' : Heap α β} {lists : β → List α} {a b : β} {c d : Option α} {l xs ys : List α}
  {n m : α}

theorem Inserted.links_of_ne (hi : Inserted h h' b c n d) (hn : m ≠ n) (hc : some m ≠ c)
    (hd : some m ≠ d) : h'.lpNext m = h.lpNext m ∧ h'.lpPrev m = h.lpPrev m := by
  have hsome : some m ≠ some n := fun he => hn (Option.some.inj he)
  constructor
  · rw [← fwd_some h' b, hi.fwd, update_of_ne hc, update_of_ne hsome, fwd_some]
  · rw [← bwd_some h' b, hi.bwd, update_of_ne hd, update_of_ne hsome, bwd_some]

theorem Removed.links_of_ne (hi : Removed h h' b c n d) (hn : m ≠ n) (hc : some m ≠ c)
    (hd : some m ≠ d) : h'.lpNext m = h.lpNext m ∧ h'.lpPrev m = h.lpPrev m := by
  have hsome : some m ≠ some n := fun he => hn (Option.some.inj he)
  constructor
  · rw [← fwd_some h' b, hi.fwd, update_of_ne hsome, update_of_ne hc, fwd_some]
  · rw [← bwd_some h' b, hi.bwd, update_of_ne hsome, update_of_ne hd, bwd_some]

theorem Represents.insert (hl : h.Represents b (xs ++ ys)) (hn : h.lpList n = none)
    (hi : Inserted h h' b xs.getLast? n ys.head?) : h'.Represents b (xs ++ n :: ys) := by
  have hfresh : n ∉ xs ++ ys := by
    intro hm
    rw [(hl.owner n).mpr hm] at hn
    cases hn
  have hrev : (xs ++ n :: ys).reverse = ys.reverse ++ n :: xs.reverse := by simp
  have hbwd := hl.leadsBwd
  rw [List.reverse_append] at hbwd
  constructor
  case nodup => exact List.nodup_middle.mpr (List.nodup_cons.mpr ⟨hfresh, hl.nodup⟩)
  case owner =>
    intro m
    rw [hi.lpList, update_apply]
    by_cases hm : m = n
    · simp [hm]
    · rw [if_neg hm, hl.owner]
      simp [hm]
  case forward =>
    apply leads_fwd.mp
    rw [hi.fwd, ← hl.leadsFwd.behind]
    exact hl.leadsFwd.insert hl.nodup hfresh
  case backward =>
    apply leads_bwd.mp
    have hbehind := hbwd.behind
    have hput := hbwd.insert (n := n)
      (by rw [← List.reverse_append]; exact List.nodup_reverse.mpr hl.nodup)
      (by rw [← List.reverse_append, List.mem_reverse]; exact hfresh)
    rw [List.getLast?_reverse, List.head?_reverse] at hbehind
    rw [List.getLast?_reverse, hbehind] at hput
    rw [hrev, hi.bwd]
    exact hput
  case nCount =>
    rw [hi.nCount, update_self, hl.nCount]
    simp
    omega

theorem Represents.remove (hl : h.Represents b (xs ++ n :: ys))
    (hi : Removed h h' b xs.getLast? n ys.head?) : h'.Represents b (xs ++ ys) := by
  have hbwd := hl.leadsBwd
  rw [List.reverse_append, List.reverse_cons, List.append_assoc, List.singleton_append] at hbwd
  have hmiddle := List.nodup_cons.mp (List.nodup_middle.mp hl.nodup)
  constructor
  case nodup => exact hmiddle.2
  case owner =>
    intro m
    rw [hi.lpList, update_apply]
    by_cases hm : m = n
    · simpa [hm] using hmiddle.1
    · rw [if_neg hm, hl.owner]
      simp [hm]
  case forward =>
    apply leads_fwd.mp
    have hout := hl.leadsFwd.remove hl.nodup
    rw [fwd_some, hl.next] at hout
    rw [hi.fwd]
    exact hout
  case backward =>
    apply leads_bwd.mp
    have hout := hbwd.remove (by
      have hr := List.nodup_reverse.mpr hl.nodup
      simpa using hr)
    rw [bwd_some, hl.prev, List.getLast?_reverse] at hout
    rw [List.reverse_append, hi.bwd]
    exact hout
  case nCount =>
    rw [hi.nCount, update_self, hl.nCount]
    simp

/-- A node put into one list leaves the others as they are. -/
theorem Refines.insert (hr : h.Refines lists) (hl : lists b = xs ++ ys) (hn : h.lpList n = none)
    (hi : Inserted h h' b xs.getLast? n ys.head?) :
    h'.Refines (update lists b (xs ++ n :: ys)) := by
  have hb := hr.represents b
  rw [hl] at hb
  constructor
  case represents =>
    intro a
    by_cases hab : a = b
    · subst hab
      rw [update_self]
      exact hb.insert hn hi
    · rw [update_of_ne hab]
      apply (hr.represents a).frame
      · intro m
        rw [hi.lpList, update_apply]
        split
        · next hm => subst hm; simp [hn, Ne.symm hab]
        · rfl
      · exact hi.ends a hab
      · rw [hi.nCount, update_of_ne hab]
      · intro m hm
        have howner := ((hr.represents a).owner m).mpr hm
        have hother : h.lpList m ≠ some b := by
          rw [howner]
          exact fun he => hab (Option.some.inj he)
        obtain ⟨hc, hd⟩ := hb.ne_neighbours hother
        apply hi.links_of_ne _ hc hd
        rintro rfl
        rw [howner] at hn
        cases hn
  case detached =>
    intro m hm
    rw [hi.lpList, update_apply] at hm
    by_cases hmn : m = n
    · rw [if_pos hmn] at hm
      cases hm
    · rw [if_neg hmn] at hm
      obtain ⟨hc, hd⟩ := hb.ne_neighbours (m := m) (by rw [hm]; exact nofun)
      obtain ⟨hnext, hprev⟩ := hi.links_of_ne hmn hc hd
      rw [hnext, hprev]
      exact hr.detached m hm

/-- `Remove` of a node of the list takes it out from between its neighbours. -/
theorem Represents.removed (hl : h.Represents b (xs ++ n :: ys)) :
    Removed h (h.remove b n) b xs.getLast? n ys.head? := by
  have hmiddle := (List.nodup_cons.mp (List.nodup_middle.mp hl.nodup)).1
  have hnx : n ∉ xs := fun hm => hmiddle (List.mem_append_left ys hm)
  have hny : n ∉ ys := fun hm => hmiddle (List.mem_append_right xs hm)
  have hnext : h.lpNext n ≠ some n := by
    rw [hl.next]
    exact fun he => hny (List.mem_of_head? he)
  have hprev : h.lpPrev n ≠ some n := by
    rw [hl.prev]
    exact fun he => hnx (List.mem_of_getLast? he)
  rw [← hl.prev, ← hl.next]
  apply remove_removed _ _ ⟨hnext, hprev⟩
  · rw [hl.head, hl.prev]
    cases xs with
    | nil => simp
    | cons x xs =>
        have hne : x ≠ n := fun he => hnx (he ▸ List.mem_cons_self)
        simp [hne]
  · rw [hl.tail, hl.next]
    rcases List.eq_nil_or_concat' ys with rfl | ⟨ys, y, rfl⟩
    · simp
    · have hne : y ≠ n := fun he => hny (he ▸ List.mem_append_right ys List.mem_cons_self)
      simp [List.getLast?_cons, hne]

/-- A node taken out of one list leaves the others as they are. -/
theorem Refines.remove (hr : h.Refines lists) (hl : lists b = xs ++ n :: ys) :
    (h.remove b n).Refines (update lists b (xs ++ ys)) := by
  have hb := hr.represents b
  rw [hl] at hb
  have hi := hb.removed
  have hn : h.lpList n = some b := (hb.owner n).mpr (by simp)
  have hne : ∀ m, m ≠ n → h.lpList m ≠ some b →
      (h.remove b n).lpNext m = h.lpNext m ∧ (h.remove b n).lpPrev m = h.lpPrev m := by
    intro m hmn hm
    have hrest : h.Represents b ((xs ++ [n]) ++ ys) := by simpa using hb
    have hc := (hb.ne_neighbours hm).1
    have hd := (hrest.ne_neighbours hm).2
    exact hi.links_of_ne hmn hc hd
  constructor
  case represents =>
    intro a
    by_cases hab : a = b
    · subst hab
      rw [update_self]
      exact hb.remove hi
    · rw [update_of_ne hab]
      apply (hr.represents a).frame
      · intro m
        rw [hi.lpList, update_apply]
        split
        · next hm => subst hm; simp [hn, Ne.symm hab]
        · rfl
      · exact hi.ends a hab
      · rw [hi.nCount, update_of_ne hab]
      · intro m hm
        have howner := ((hr.represents a).owner m).mpr hm
        apply hne m
        · rintro rfl
          rw [howner] at hn
          exact hab (Option.some.inj hn)
        · rw [howner]
          exact fun he => hab (Option.some.inj he)
  case detached =>
    intro m hm
    by_cases hmn : m = n
    · subst hmn
      constructor
      · rw [← fwd_some _ b, hi.fwd, update_self]
      · rw [← bwd_some _ b, hi.bwd, update_self]
    · rw [hi.lpList, update_of_ne hmn] at hm
      obtain ⟨hnext, hprev⟩ := hne m hmn (by rw [hm]; exact nofun)
      rw [hnext, hprev]
      exact hr.detached m hm

end Effects

end Changes

end Heap

end MxLib.LnkLst
