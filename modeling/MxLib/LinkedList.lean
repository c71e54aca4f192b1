import MxLib.Library.Links
import MxLib.Library.Loop

/-!
# Linked lists

`CLnkLst`: the nodes carry the links themselves, each with a pointer to the list it is in.  The
memory is one map for each member, of the nodes and of the lists, so that an assignment changes
one map; `none` is the null pointer.  Several lists share the nodes.  A count is a natural number:
there are fewer nodes in memory than a `SIZE_T` can count.
-/

namespace MxLib.LnkLst

open Function
open MxLib.Library

/-- The members of the `CLnkLstNode`s (pointers `α`) and of the `CLnkLst`s (pointers `β`). -/
structure Heap (α β : Type*) where
  lpList : α → Option β
  lpNext : α → Option α
  lpPrev : α → Option α
  lpHead : β → Option α
  lpTail : β → Option α
  nCount : β → Nat

/-- What the constructors leave. -/
def Heap.init (α β : Type*) : Heap α β where
  lpList _ := none
  lpNext _ := none
  lpPrev _ := none
  lpHead _ := none
  lpTail _ := none
  nCount _ := 0

namespace Heap

variable {α β : Type*} [DecidableEq α] [DecidableEq β]

/-! ### Assignments -/

@[simp] def setList (h : Heap α β) (n : α) (v : Option β) : Heap α β :=
  { h with lpList := update h.lpList n v }

@[simp] def setNext (h : Heap α β) (n : α) (v : Option α) : Heap α β :=
  { h with lpNext := update h.lpNext n v }

@[simp] def setPrev (h : Heap α β) (n : α) (v : Option α) : Heap α β :=
  { h with lpPrev := update h.lpPrev n v }

@[simp] def setHead (h : Heap α β) (this : β) (v : Option α) : Heap α β :=
  { h with lpHead := update h.lpHead this v }

@[simp] def setTail (h : Heap α β) (this : β) (v : Option α) : Heap α β :=
  { h with lpTail := update h.lpTail this v }

@[simp] def setCount (h : Heap α β) (this : β) (v : Nat) : Heap α β :=
  { h with nCount := update h.nCount this v }

/-- `if (lp != NULL) lp->lpNext = v` -/
@[simp] def setNextOf (h : Heap α β) (lp v : Option α) : Heap α β :=
  match lp with
  | none => h
  | some n => h.setNext n v

/-- `if (lp != NULL) lp->lpPrev = v` -/
@[simp] def setPrevOf (h : Heap α β) (lp v : Option α) : Heap α β :=
  match lp with
  | none => h
  | some n => h.setPrev n v

/-! ### The operations -/

/-- `Remove` -/
def remove (h : Heap α β) (this : β) (lpNode : α) : Heap α β :=
  let h := h.setList lpNode none
  let h := if h.lpHead this = some lpNode then h.setHead this (h.lpNext lpNode) else h
  let h := if h.lpTail this = some lpNode then h.setTail this (h.lpPrev lpNode) else h
  let h := h.setPrevOf (h.lpNext lpNode) (h.lpPrev lpNode)
  let h := h.setNextOf (h.lpPrev lpNode) (h.lpNext lpNode)
  let h := (h.setPrev lpNode none).setNext lpNode none
  h.setCount this (h.nCount this - 1)

/-- `PushHead` -/
def pushHead (h : Heap α β) (this : β) (lpNode : α) : Heap α β :=
  let h := h.setList lpNode (some this)
  let h := h.setPrevOf (h.lpHead this) (some lpNode)
  let h := h.setNext lpNode (h.lpHead this)
  let h := h.setHead this (some lpNode)
  let h := if h.lpTail this = none then h.setTail this (some lpNode) else h
  h.setCount this (h.nCount this + 1)

/-- `PushTail` -/
def pushTail (h : Heap α β) (this : β) (lpNode : α) : Heap α β :=
  let h := h.setList lpNode (some this)
  let h := h.setNextOf (h.lpTail this) (some lpNode)
  let h := h.setPrev lpNode (h.lpTail this)
  let h := h.setTail this (some lpNode)
  let h := if h.lpHead this = none then h.setHead this (some lpNode) else h
  h.setCount this (h.nCount this + 1)

/-- `PushAfter` -/
def pushAfter (h : Heap α β) (this : β) (lpNode : α) (lpAfterNode : Option α) : Heap α β :=
  if lpAfterNode = h.lpTail this then h.pushTail this lpNode
  else
    match lpAfterNode with
    | none => h.pushHead this lpNode
    | some lpAfterNode =>
      let h := h.setList lpNode (some this)
      let h := h.setNext lpNode (h.lpNext lpAfterNode)
      let h := h.setPrev lpNode (some lpAfterNode)
      let h := h.setPrevOf (h.lpNext lpAfterNode) (some lpNode)
      let h := h.setNext lpAfterNode (some lpNode)
      h.setCount this (h.nCount this + 1)

/-- `PushBefore` -/
def pushBefore (h : Heap α β) (this : β) (lpNode : α) (lpBeforeNode : Option α) : Heap α β :=
  if lpBeforeNode = h.lpHead this then h.pushHead this lpNode
  else
    match lpBeforeNode with
    | none => h.pushTail this lpNode
    | some lpBeforeNode =>
      let h := h.setList lpNode (some this)
      let h := h.setNext lpNode (some lpBeforeNode)
      let h := h.setPrev lpNode (h.lpPrev lpBeforeNode)
      let h := h.setNextOf (h.lpPrev lpBeforeNode) (some lpNode)
      let h := h.setPrev lpBeforeNode (some lpNode)
      h.setCount this (h.nCount this + 1)

/-- `PopHead`: the memory and the pointer that is returned. -/
def popHead (h : Heap α β) (this : β) : Heap α β × Option α :=
  match h.lpHead this with
  | none => (h, none)
  | some lpNode => (h.remove this lpNode, some lpNode)

/-- `PopTail` -/
def popTail (h : Heap α β) (this : β) : Heap α β × Option α :=
  match h.lpTail this with
  | none => (h, none)
  | some lpNode => (h.remove this lpNode, some lpNode)

/-- A turn of the loop of `RemoveAll`. -/
def removeAllTurn (this : β) (h : Heap α β) : Heap α β ⊕ Heap α β :=
  match h.lpHead this with
  | none => .inr h
  | some lpNode => .inl (h.remove this lpNode)

/-- `RemoveAll`, with at most `fuel` turns. -/
def removeAll (fuel : Nat) (h : Heap α β) (this : β) : Option (Heap α β) :=
  Loop.run (removeAllTurn this) fuel h

end Heap

/-! ### Iterators -/

/-- The members of `Iterator` and of `IteratorRev`. -/
structure Iterator (α : Type*) where
  lpCursor : Option α := none
  lpNextCursor : Option α := none

namespace Iterator

variable {α β : Type*}

/-- `Next`, where `lpLink` is the member it reads: the node that is returned, and the iterator. -/
def advance (lpLink : α → Option α) (it : Iterator α) : Option α × Iterator α :=
  let lpCursor := it.lpNextCursor
  match lpCursor with
  | none => (none, { it with lpCursor := none })
  | some n => (some n, { lpCursor := some n, lpNextCursor := lpLink n })

/-- `Iterator::Next` -/
def next (h : Heap α β) (it : Iterator α) : Option α × Iterator α := it.advance h.lpNext

/-- `Iterator::Begin` -/
def start (h : Heap α β) (cList : β) (it : Iterator α) : Option α × Iterator α :=
  next h { it with lpNextCursor := h.lpHead cList }

/-- `IteratorRev::Next` -/
def nextRev (h : Heap α β) (it : Iterator α) : Option α × Iterator α := it.advance h.lpPrev

/-- `IteratorRev::Begin` -/
def startRev (h : Heap α β) (cList : β) (it : Iterator α) : Option α × Iterator α :=
  nextRev h { it with lpNextCursor := h.lpTail cList }

end Iterator

/-- A `for` loop over a list: the memory, the node that the iterator has returned, the iterator,
and the nodes that the loop has been through. -/
structure Walk (α β : Type*) where
  heap : Heap α β
  lpNode : Option α
  it : Iterator α
  visited : List α

section Walks

variable {α β : Type*} [DecidableEq α] [DecidableEq β]

/-- A turn of `for (n = it.Begin(cList); n != NULL; n = it.Next())`, where the body removes the
nodes that `p` picks out. -/
def walkTurn (step : Heap α β → Iterator α → Option α × Iterator α) (cList : β) (p : α → Bool)
    (w : Walk α β) : Walk α β ⊕ (Heap α β × List α) :=
  match w.lpNode with
  | none => .inr (w.heap, w.visited)
  | some n =>
    let h := if p n then w.heap.remove cList n else w.heap
    let (lpNode, it) := step h w.it
    .inl ⟨h, lpNode, it, w.visited ++ [n]⟩

def walk (fuel : Nat) (h : Heap α β) (cList : β) (p : α → Bool) : Option (Heap α β × List α) :=
  let (lpNode, it) := Iterator.start h cList {}
  Loop.run (walkTurn Iterator.next cList p) fuel ⟨h, lpNode, it, []⟩

def walkRev (fuel : Nat) (h : Heap α β) (cList : β) (p : α → Bool) :
    Option (Heap α β × List α) :=
  let (lpNode, it) := Iterator.startRev h cList {}
  Loop.run (walkTurn Iterator.nextRev cList p) fuel ⟨h, lpNode, it, []⟩

end Walks

end MxLib.LnkLst
