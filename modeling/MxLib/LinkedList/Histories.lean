import MxLib.LinkedList.Sequences

/-!
# Histories of linked lists

Any sequence of calls on any number of lists that share their nodes, walks with removals among
them, is the same sequence of operations on plain lists (`run_refines`).
-/

namespace MxLib.LnkLst

open Function
open MxLib.Library

variable {α β : Type*}

/-- The calls.  `forEach` is a loop with an `Iterator` that removes the nodes that `p` picks out
when they have been returned, `forEachRev` one with an `IteratorRev`. -/
inductive Op (α : Type*)
  | pushHead (lpNode : α)
  | pushTail (lpNode : α)
  | pushAfter (lpNode : α) (lpAfterNode : Option α)
  | pushBefore (lpNode : α) (lpBeforeNode : Option α)
  | remove (lpNode : α)
  | popHead
  | popTail
  | removeAll
  | forEach (p : α → Bool)
  | forEachRev (p : α → Bool)

section Sequences

variable [DecidableEq α]

/-- `n` right behind the first `y`. -/
def insertAfter (y n : α) : List α → List α
  | [] => []
  | x :: l => if x = y then x :: n :: l else x :: insertAfter y n l

/-- `n` right in front of the first `y`. -/
def insertBefore (y n : α) : List α → List α
  | [] => []
  | x :: l => if x = y then n :: x :: l else x :: insertBefore y n l

/-- What a call means for a sequence: the sequence after it, and the nodes that it returns one
after the other. -/
def Op.apply : Op α → List α → List α × List α
  | .pushHead n, l => (n :: l, [])
  | .pushTail n, l => (l ++ [n], [])
  | .pushAfter n none, l => (n :: l, [])
  | .pushAfter n (some y), l => (insertAfter y n l, [])
  | .pushBefore n none, l => (l ++ [n], [])
  | .pushBefore n (some y), l => (insertBefore y n l, [])
  | .remove n, l => (l.erase n, [])
  | .popHead, l => (l.tail, l.head?.toList)
  | .popTail, l => (l.dropLast, l.getLast?.toList)
  | .removeAll, _ => ([], [])
  | .forEach p, l => (l.filter (fun n => !p n), l)
  | .forEachRev p, l => (l.filter (fun n => !p n), l.reverse)

/-- The asserts: a node that is put in is in no list, and the node that a call refers to is in the
list of the call. -/
def Op.Valid (lists : β → List α) (b : β) : Op α → Prop
  | .pushHead n => ∀ a, n ∉ lists a
  | .pushTail n => ∀ a, n ∉ lists a
  | .pushAfter n y => (∀ a, n ∉ lists a) ∧ ∀ z, y = some z → z ∈ lists b
  | .pushBefore n y => (∀ a, n ∉ lists a) ∧ ∀ z, y = some z → z ∈ lists b
  | .remove n => n ∈ lists b
  | _ => True

theorem insertAfter_append {y n : α} {xs ys : List α} (h : y ∉ xs) :
    insertAfter y n (xs ++ y :: ys) = (xs ++ [y]) ++ n :: ys := by
  induction xs with
  | nil => simp [insertAfter]
  | cons x xs ih =>
      have hx : x ≠ y := fun he => h (he ▸ List.mem_cons_self)
      rw [List.cons_append, insertAfter, if_neg hx, ih fun hm => h (List.mem_cons_of_mem x hm)]
      rfl

theorem insertBefore_append {y n : α} {xs ys : List α} (h : y ∉ xs) :
    insertBefore y n (xs ++ y :: ys) = xs ++ n :: y :: ys := by
  induction xs with
  | nil => simp [insertBefore]
  | cons x xs ih =>
      have hx : x ≠ y := fun he => h (he ▸ List.mem_cons_self)
      rw [List.cons_append, insertBefore, if_neg hx, ih fun hm => h (List.mem_cons_of_mem x hm)]
      rfl

variable [DecidableEq β]

/-- The sequences after the calls, and what each call returns; a call names its list. -/
def apply (lists : β → List α) : List (β × Op α) → (β → List α) × List (List α)
  | [] => (lists, [])
  | (b, op) :: ops =>
    let (lists', out) := apply (update lists b (op.apply (lists b)).1) ops
    (lists', (op.apply (lists b)).2 :: out)

/-- Every call meets the asserts. -/
def Valid (lists : β → List α) : List (β × Op α) → Prop
  | [] => True
  | (b, op) :: ops => op.Valid lists b ∧ Valid (update lists b (op.apply (lists b)).1) ops

/-- A call in the memory, where a loop may make `fuel` turns: the memory after it, and the nodes
that it returns. -/
def Heap.exec (fuel : Nat) (h : Heap α β) (b : β) : Op α → Option (Heap α β × List α)
  | .pushHead n => some (h.pushHead b n, [])
  | .pushTail n => some (h.pushTail b n, [])
  | .pushAfter n y => some (h.pushAfter b n y, [])
  | .pushBefore n y => some (h.pushBefore b n y, [])
  | .remove n => some (h.remove b n, [])
  | .popHead => some ((h.popHead b).1, (h.popHead b).2.toList)
  | .popTail => some ((h.popTail b).1, (h.popTail b).2.toList)
  | .removeAll => (h.removeAll fuel b).map fun h' => (h', [])
  | .forEach p => walk fuel h b p
  | .forEachRev p => walkRev fuel h b p

def Heap.run (fuel : Nat) (h : Heap α β) : List (β × Op α) → Option (Heap α β × List (List α))
  | [] => some (h, [])
  | (b, op) :: ops =>
    match h.exec fuel b op with
    | none => none
    | some (h', out) => (h'.run fuel ops).map fun (h'', outs) => (h'', out :: outs)

end Sequences

section Calls

variable [DecidableEq α] [DecidableEq β] {h : Heap α β} {lists : β → List α} {b : β} {n y : α}

omit [DecidableEq α] in
theorem update_same {l : List α} (hl : lists b = l) : update lists b l = lists := by
  rw [← hl, update_eq_self]

namespace Heap.Refines

theorem pushHead (hr : h.Refines lists) (hn : ∀ a, n ∉ lists a) :
    (h.pushHead b n).Refines (update lists b (n :: lists b)) := by
  have hnone := hr.lpList_eq_none hn
  have hi := pushHead_inserted hr.empty_iff (hr.detached n hnone).2 (b := b)
  rw [(hr.represents b).head] at hi
  exact hr.insert (List.nil_append _).symm hnone hi

theorem pushTail (hr : h.Refines lists) (hn : ∀ a, n ∉ lists a) :
    (h.pushTail b n).Refines (update lists b (lists b ++ [n])) := by
  have hnone := hr.lpList_eq_none hn
  have hi := pushTail_inserted hr.empty_iff (hr.detached n hnone).1 (b := b)
  rw [(hr.represents b).tail] at hi
  exact hr.insert (List.append_nil _).symm hnone hi

theorem pushAfter (hr : h.Refines lists) (hn : ∀ a, n ∉ lists a) (hy : y ∈ lists b) :
    (h.pushAfter b n (some y)).Refines (update lists b (insertAfter y n (lists b))) := by
  obtain ⟨xs, ys, hl, hxs⟩ := List.eq_append_cons_of_mem hy
  have hb := hr.represents b
  rw [hl] at hb
  have hny : y ≠ n := fun he => hn b (he ▸ hy)
  rw [hl, insertAfter_append hxs]
  cases ys with
  | nil =>
      have htail : h.lpTail b = some y := by simp [hb.tail]
      rw [Heap.pushAfter, if_pos htail.symm, ← hl]
      exact hr.pushTail hn
  | cons z zs =>
      have htail : h.lpTail b ≠ some y := by
        have hnotin : y ∉ z :: zs := by
          have hmiddle := (List.nodup_cons.mp (List.nodup_middle.mp hb.nodup)).1
          exact fun hm => hmiddle (List.mem_append_right xs hm)
        rw [hb.tail]
        intro he
        rw [List.getLast?_append, List.getLast?_cons_cons] at he
        apply hnotin
        apply List.mem_of_getLast?
        cases hlast : (z :: zs).getLast? with
        | none => simp at hlast
        | some w => simpa [hlast] using he
      have hi := pushAfter_inserted htail hny hb.next
      have hl' : lists b = (xs ++ [y]) ++ z :: zs := by simp [hl]
      apply hr.insert hl' (hr.lpList_eq_none hn)
      simpa using hi

theorem pushBefore (hr : h.Refines lists) (hn : ∀ a, n ∉ lists a) (hy : y ∈ lists b) :
    (h.pushBefore b n (some y)).Refines (update lists b (insertBefore y n (lists b))) := by
  obtain ⟨xs, ys, hl, hxs⟩ := List.eq_append_cons_of_mem hy
  have hb := hr.represents b
  rw [hl] at hb
  have hny : y ≠ n := fun he => hn b (he ▸ hy)
  rw [hl, insertBefore_append hxs]
  rcases List.eq_nil_or_concat' xs with rfl | ⟨ws, z, rfl⟩
  · have hhead : h.lpHead b = some y := by simp [hb.head]
    rw [Heap.pushBefore, if_pos hhead.symm]
    have hpush := hr.pushHead hn (b := b)
    rw [hl] at hpush
    exact hpush
  · have hhead : h.lpHead b ≠ some y := by
      rw [hb.head]
      intro he
      apply hxs
      apply List.mem_of_head?
      cases ws with
      | nil => simpa using he
      | cons w ws => simpa using he
    have hprev : h.lpPrev y = some z := by
      rw [hb.prev]
      simp
    have hi := pushBefore_inserted hhead hny hprev
    apply hr.insert hl (hr.lpList_eq_none hn)
    simpa using hi

/-- Behind the null pointer is the front. -/
theorem pushAfter_null (hr : h.Refines lists) (hn : ∀ a, n ∉ lists a) :
    (h.pushAfter b n none).Refines (update lists b (n :: lists b)) := by
  unfold Heap.pushAfter
  split
  · next htail =>
    rw [(hr.represents b).tail] at htail
    have hnil : lists b = [] := List.getLast?_eq_none_iff.mp htail.symm
    have hpush := hr.pushTail hn (b := b)
    rw [hnil] at hpush ⊢
    exact hpush
  · exact hr.pushHead hn

/-- In front of the null pointer is the back. -/
theorem pushBefore_null (hr : h.Refines lists) (hn : ∀ a, n ∉ lists a) :
    (h.pushBefore b n none).Refines (update lists b (lists b ++ [n])) := by
  unfold Heap.pushBefore
  split
  · next hhead =>
    rw [(hr.represents b).head] at hhead
    have hnil : lists b = [] := List.head?_eq_none_iff.mp hhead.symm
    have hpush := hr.pushHead hn (b := b)
    rw [hnil] at hpush ⊢
    exact hpush
  · exact hr.pushTail hn

theorem erase (hr : h.Refines lists) (hn : n ∈ lists b) :
    (h.remove b n).Refines (update lists b ((lists b).erase n)) := by
  obtain ⟨xs, ys, hl, hxs⟩ := List.eq_append_cons_of_mem hn
  have hout := hr.remove hl
  rw [hl, List.erase_append_right _ hxs, List.erase_cons_head]
  exact hout

theorem popHead (hr : h.Refines lists) :
    (h.popHead b).2 = (lists b).head? ∧
      (h.popHead b).1.Refines (update lists b (lists b).tail) := by
  have hhead := (hr.represents b).head
  unfold Heap.popHead
  rw [hhead]
  cases hl : lists b with
  | nil =>
      refine ⟨rfl, ?_⟩
      rw [List.tail_nil, update_same hl]
      exact hr
  | cons x l => exact ⟨rfl, hr.remove (show lists b = [] ++ x :: l from hl)⟩

theorem popTail (hr : h.Refines lists) :
    (h.popTail b).2 = (lists b).getLast? ∧
      (h.popTail b).1.Refines (update lists b (lists b).dropLast) := by
  have htail := (hr.represents b).tail
  unfold Heap.popTail
  rw [htail]
  rcases List.eq_nil_or_concat' (lists b) with hl | ⟨l, x, hl⟩
  · rw [hl]
    refine ⟨rfl, ?_⟩
    rw [List.dropLast_nil, update_same hl]
    exact hr
  · have hout := hr.remove (show lists b = l ++ x :: [] from hl)
    rw [hl, List.getLast?_append, List.dropLast_concat]
    refine ⟨rfl, ?_⟩
    rw [List.append_nil] at hout
    exact hout

/-- The loop of `RemoveAll` comes to an end. -/
theorem removeAll : ∀ {h : Heap α β} {lists : β → List α}, h.Refines lists →
    ∃ h', h.removeAll ((lists b).length + 1) b = some h' ∧ h'.Refines (update lists b []) := by
  intro h lists hr
  generalize hl : lists b = l
  induction l generalizing h lists with
  | nil =>
      have hleave : removeAllTurn b h = .inr h := by
        rw [removeAllTurn, (hr.represents b).head, hl]
        rfl
      refine ⟨h, Loop.run_succ_inr hleave 0, ?_⟩
      rw [update_same hl]
      exact hr
  | cons x l ih =>
      have hturn : removeAllTurn b h = .inl (h.remove b x) := by
        rw [removeAllTurn, (hr.represents b).head, hl]
        rfl
      obtain ⟨h', hrun, hr'⟩ := ih (hr.remove (show lists b = [] ++ x :: l from hl))
        (update_self _ _ _)
      refine ⟨h', ?_, ?_⟩
      · rw [Heap.removeAll, List.length_cons, Loop.run_succ_inl hturn]
        exact hrun
      · rwa [update_idem] at hr'

end Heap.Refines

end Calls

section Walks

variable [DecidableEq α] [DecidableEq β] {lists : β → List α} {b : β} {p : α → Bool}

/-- What a walk in one direction needs: `Rep h l` says that in the memory `h` the nodes in front of
the iterator and behind it are `l`, in the order of the walk. -/
structure Direction (b : β) (link : Heap α β → α → Option α)
    (Rep : Heap α β → List α → Prop) : Prop where
  link_eq : ∀ {h xs ys y}, Rep h (xs ++ y :: ys) → link h y = ys.head?
  remove : ∀ {h xs ys y}, Rep h (xs ++ y :: ys) → Rep (h.remove b y) (xs ++ ys)

variable {link : Heap α β → α → Option α} {Rep : Heap α β → List α → Prop}

/-- The node that comes is returned, and the one behind it is read ahead. -/
theorem Direction.advance_eq (hdir : Direction b link Rep) {h : Heap α β} {xs ys : List α}
    (hrep : Rep h (xs ++ ys)) {it : Iterator α} (hit : it.lpNextCursor = ys.head?) :
    it.advance (link h) = (ys.head?, ⟨ys.head?, ys.tail.head?⟩) := by
  unfold Iterator.advance
  cases ys with
  | nil => simp [hit]
  | cons y ys => simp [hit, hdir.link_eq hrep]

/-- The loop goes through the nodes that are left, and keeps those that `p` does not pick out. -/
theorem Direction.run_walkTurn (hdir : Direction b link Rep) (p : α → Bool) {ys : List α} :
    ∀ {h : Heap α β} {xs : List α} (visited : List α) (lpCursor : Option α), Rep h (xs ++ ys) →
      ∃ h', Loop.run (walkTurn (fun h it => it.advance (link h)) b p) (ys.length + 1)
          ⟨h, ys.head?, ⟨lpCursor, ys.tail.head?⟩, visited⟩ = some (h', visited ++ ys) ∧
        Rep h' (xs ++ ys.filter fun n => !p n) := by
  induction ys with
  | nil =>
      intro h xs visited lpCursor hrep
      refine ⟨h, ?_, hrep⟩
      rw [List.append_nil]
      exact Loop.run_succ_inr rfl 0
  | cons y ys ih =>
      intro h xs visited lpCursor hrep
      obtain ⟨h₁, xs₁, hh₁, hrep₁, hkeep⟩ : ∃ h₁ xs₁,
          h₁ = (if p y then h.remove b y else h) ∧ Rep h₁ (xs₁ ++ ys) ∧
            xs₁ ++ ys.filter (fun n => !p n) = xs ++ (y :: ys).filter fun n => !p n := by
        cases hp : p y with
        | true => exact ⟨h.remove b y, xs, by simp, hdir.remove hrep, by simp [hp]⟩
        | false => exact ⟨h, xs ++ [y], by simp, by simpa using hrep, by simp [hp]⟩
      have hturn : walkTurn (fun h it => it.advance (link h)) b p
          ⟨h, (y :: ys).head?, ⟨lpCursor, (y :: ys).tail.head?⟩, visited⟩ =
            .inl ⟨h₁, ys.head?, ⟨ys.head?, ys.tail.head?⟩, visited ++ [y]⟩ := by
        simp only [walkTurn, List.head?_cons, List.tail_cons, ← hh₁]
        rw [hdir.advance_eq hrep₁ rfl]
      obtain ⟨h', hrun, hrep'⟩ := ih (visited ++ [y]) ys.head? hrep₁
      refine ⟨h', ?_, ?_⟩
      · rw [List.length_cons, Loop.run_succ_inl hturn, hrun, List.append_assoc]
        rfl
      · rwa [hkeep] at hrep'

theorem forward_direction (lists : β → List α) (b : β) :
    Direction b Heap.lpNext fun h l => h.Refines (update lists b l) where
  link_eq := by
    intro h xs ys y hrep
    have hb := hrep.represents b
    rw [update_self] at hb
    exact hb.next
  remove := by
    intro h xs ys y hrep
    have hout := hrep.remove (update_self b (xs ++ y :: ys) lists)
    rwa [update_idem] at hout

theorem backward_direction (lists : β → List α) (b : β) :
    Direction b Heap.lpPrev fun h l => h.Refines (update lists b l.reverse) where
  link_eq := by
    intro h xs ys y hrep
    have hb := hrep.represents b
    rw [update_self, List.reverse_append, List.reverse_cons, List.append_assoc,
      List.singleton_append] at hb
    rw [hb.prev, List.getLast?_reverse]
  remove := by
    intro h xs ys y hrep
    rw [List.reverse_append, List.reverse_cons, List.append_assoc, List.singleton_append] at hrep
    have hout := hrep.remove (update_self b (ys.reverse ++ y :: xs.reverse) lists)
    rwa [update_idem, ← List.reverse_append] at hout

/-- A walk forwards returns every node once, and leaves those that are not removed. -/
theorem Heap.Refines.walk {h : Heap α β} (hr : h.Refines lists) (p : α → Bool) :
    ∃ h', LnkLst.walk ((lists b).length + 1) h b p = some (h', lists b) ∧
      h'.Refines (update lists b ((lists b).filter fun n => !p n)) := by
  have hrep : h.Refines (update lists b ([] ++ lists b)) := by
    rw [List.nil_append, update_eq_self]
    exact hr
  obtain ⟨h', hrun, hr'⟩ := (forward_direction lists b).run_walkTurn p []
    (lists b).head? hrep
  refine ⟨h', ?_, hr'⟩
  have hstart : Iterator.start h b {} =
      ((lists b).head?, ⟨(lists b).head?, (lists b).tail.head?⟩) :=
    (forward_direction lists b).advance_eq hrep (hr.represents b).head
  rw [LnkLst.walk, hstart]
  exact hrun

theorem Heap.Refines.walkRev {h : Heap α β} (hr : h.Refines lists) (p : α → Bool) :
    ∃ h', LnkLst.walkRev ((lists b).length + 1) h b p = some (h', (lists b).reverse) ∧
      h'.Refines (update lists b ((lists b).filter fun n => !p n)) := by
  have hrep : h.Refines (update lists b ([] ++ (lists b).reverse).reverse) := by
    rw [List.nil_append, List.reverse_reverse, update_eq_self]
    exact hr
  obtain ⟨h', hrun, hr'⟩ := (backward_direction lists b).run_walkTurn p []
    (lists b).reverse.head? hrep
  have htail : h.lpTail b = (lists b).reverse.head? := by
    rw [List.head?_reverse]
    exact (hr.represents b).tail
  have hstart : Iterator.startRev h b {} =
      ((lists b).reverse.head?, ⟨(lists b).reverse.head?, (lists b).reverse.tail.head?⟩) :=
    (backward_direction lists b).advance_eq hrep htail
  refine ⟨h', ?_, ?_⟩
  · rw [LnkLst.walkRev, hstart, ← List.length_reverse]
    exact hrun
  · rwa [List.nil_append, List.filter_reverse, List.reverse_reverse] at hr'

end Walks

section Runs

variable [DecidableEq α] [DecidableEq β] {h : Heap α β} {lists : β → List α} {b : β}

/-- A call in the memory is what it means for the sequences, once it may make enough turns. -/
theorem Heap.Refines.exec (hr : h.Refines lists) {op : Op α} (hop : op.Valid lists b) :
    ∃ N h', (∀ fuel ≥ N, h.exec fuel b op = some (h', (op.apply (lists b)).2)) ∧
      h'.Refines (update lists b (op.apply (lists b)).1) := by
  cases op with
  | pushHead n => exact ⟨0, _, fun _ _ => rfl, hr.pushHead hop⟩
  | pushTail n => exact ⟨0, _, fun _ _ => rfl, hr.pushTail hop⟩
  | pushAfter n y =>
      obtain ⟨hn, hy⟩ := hop
      cases y with
      | some y => exact ⟨0, _, fun _ _ => rfl, hr.pushAfter hn (hy y rfl)⟩
      | none => exact ⟨0, _, fun _ _ => rfl, hr.pushAfter_null hn⟩
  | pushBefore n y =>
      obtain ⟨hn, hy⟩ := hop
      cases y with
      | some y => exact ⟨0, _, fun _ _ => rfl, hr.pushBefore hn (hy y rfl)⟩
      | none => exact ⟨0, _, fun _ _ => rfl, hr.pushBefore_null hn⟩
  | remove n => exact ⟨0, _, fun _ _ => rfl, hr.erase hop⟩
  | popHead =>
      obtain ⟨hout, hr'⟩ := hr.popHead (b := b)
      exact ⟨0, _, fun _ _ => by rw [Heap.exec, hout]; rfl, hr'⟩
  | popTail =>
      obtain ⟨hout, hr'⟩ := hr.popTail (b := b)
      exact ⟨0, _, fun _ _ => by rw [Heap.exec, hout]; rfl, hr'⟩
  | removeAll =>
      obtain ⟨h', hrun, hr'⟩ := hr.removeAll (b := b)
      refine ⟨(lists b).length + 1, h', fun fuel hfuel => ?_, hr'⟩
      have hmore : h.removeAll fuel b = some h' := Loop.run_mono hrun hfuel
      rw [Heap.exec, hmore]
      rfl
  | forEach p =>
      obtain ⟨h', hrun, hr'⟩ := hr.walk (b := b) p
      exact ⟨_, h', fun fuel hfuel => Loop.run_mono hrun hfuel, hr'⟩
  | forEachRev p =>
      obtain ⟨h', hrun, hr'⟩ := hr.walkRev (b := b) p
      exact ⟨_, h', fun fuel hfuel => Loop.run_mono hrun hfuel, hr'⟩

/-- The calls in the memory are what they mean for the sequences. -/
theorem Heap.Refines.run {ops : List (β × Op α)} : ∀ {h : Heap α β} {lists : β → List α},
    h.Refines lists → Valid lists ops →
      ∃ N h', (∀ fuel ≥ N, h.run fuel ops = some (h', (apply lists ops).2)) ∧
        h'.Refines (apply lists ops).1 := by
  induction ops with
  | nil => intro h lists hr _; exact ⟨0, h, fun _ _ => rfl, hr⟩
  | cons call ops ih =>
      intro h lists hr hvalid
      obtain ⟨b, op⟩ := call
      obtain ⟨N₁, h₁, hexec, hr₁⟩ := hr.exec hvalid.1
      obtain ⟨N₂, h₂, hrun, hr₂⟩ := ih hr₁ hvalid.2
      refine ⟨max N₁ N₂, h₂, fun fuel hfuel => ?_, hr₂⟩
      rw [Heap.run, hexec fuel (le_trans (le_max_left _ _) hfuel)]
      simp only [hrun fuel (le_trans (le_max_right _ _) hfuel)]
      rfl

/-- **Linked lists are sequences.**  Whatever calls are made on lists that are empty at first, in
the end the memory stands for the sequences that the calls make, and every call has returned the
nodes that it returns there. -/
theorem run_refines (ops : List (β × Op α)) (hvalid : Valid (fun _ => []) ops) :
    ∃ N h, (∀ fuel ≥ N, (Heap.init α β).run fuel ops = some (h, (apply (fun _ => []) ops).2)) ∧
      h.Refines (apply (fun _ => []) ops).1 :=
  Heap.refines_init.run hvalid

/-- Two lists, a node that goes from one to the other, and a walk backwards. -/
theorem run_refines_two : ∃ N h, (∀ fuel ≥ N, (Heap.init Nat Bool).run fuel
      [(true, .pushHead 1), (true, .pushAfter 2 none), (true, .pushBefore 3 (some 1)),
        (true, .forEachRev (· == 2)), (false, .pushTail 2), (true, .popTail)] =
      some (h, [[], [], [], [1, 3, 2], [], [1]])) ∧
    h.Refines (apply (fun _ => [])
      [(true, .pushHead 1), (true, .pushAfter 2 none), (true, .pushBefore 3 (some 1)),
        (true, .forEachRev (· == 2)), (false, .pushTail 2), (true, .popTail)]).1 :=
  run_refines _ (by
    simp [Valid, Op.Valid, Op.apply, insertBefore])

end Runs

end MxLib.LnkLst
