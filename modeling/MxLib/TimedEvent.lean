import MxLib.ArrayList
import Mathlib.Data.List.TakeWhile
import Mathlib.Data.List.Perm.Basic
import Mathlib.Data.Fintype.Card

/-!
# Timers

`CTimerHandler` keeps its timers in two orders: by their ids in an array, and by the times when they
are due in a tree.  `AddTimer` numbers a timer with a counter of 32 bits, which comes back to an id
that a timer still has when enough timers were added in the meantime.  `SortedInsert` refuses that
timer and reports no failure, so that it is put into the tree only (`addsFresh_iff`).

A red-black tree is the sequence of its nodes here, and a timer is told from others by its address.
The flags of a timer are looked at while its callback runs, so they are kept for that timer only.
-/

namespace MxLib.TimedEvent

/-- `CTimer`, as it is from `AddTimer` on until it is freed. -/
structure Timer where
  lpTimer : Nat
  nId : Int32
  dwTimeoutMs : UInt32
  bOneShot : Bool
  deriving DecidableEq

/-- Both compare functions of the array. -/
def compareIds (nId1 nId2 : Int32) : Int := if nId1 < nId2 then -1 else if nId1 > nId2 then 1 else 0

/-- `InsertByIdCompareFunc` -/
def insertByIdCompareFunc (elem1 elem2 : Timer) : Int := compareIds elem1.nId elem2.nId

/-- `SearchByIdCompareFunc` -/
def searchByIdCompareFunc (key : Int32) (elem : Timer) : Int := compareIds key elem.nId

theorem compareIds_pos {a b : Int32} : 0 < compareIds a b ↔ b.toInt < a.toInt := by
  simp only [compareIds, gt_iff_lt, Int32.lt_iff_toInt_lt]
  split <;> [skip; split] <;> omega

theorem compareIds_neg {a b : Int32} : compareIds a b < 0 ↔ a.toInt < b.toInt := by
  simp only [compareIds, gt_iff_lt, Int32.lt_iff_toInt_lt]
  split <;> [skip; split] <;> omega

theorem compareIds_nonpos {a b : Int32} : compareIds a b ≤ 0 ↔ a.toInt ≤ b.toInt := by
  rw [← Int.not_lt, compareIds_pos, Int.not_lt]

theorem compareIds_eq_zero {a b : Int32} : compareIds a b = 0 ↔ a = b := by
  rw [← Int32.toInt_inj]
  have hpos := @compareIds_pos a b
  have hneg := @compareIds_neg a b
  omega

theorem totalPreorder_insertById : ArrayList.TotalPreorder insertByIdCompareFunc where
  swap := by
    intro x y
    exact compareIds_pos.trans compareIds_neg.symm
  trans := by
    intro x y z hxy hyz
    exact compareIds_nonpos.mpr (Int.le_trans (compareIds_nonpos.mp hxy) (compareIds_nonpos.mp hyz))

theorem goesWith_searchById (key : Int32) :
    ArrayList.GoesWith insertByIdCompareFunc (searchByIdCompareFunc key) where
  after := by
    intro x y hxy hy
    exact compareIds_pos.mpr (Int.lt_of_le_of_lt (compareIds_nonpos.mp hxy) (compareIds_pos.mp hy))
  before := by
    intro x y hxy hx
    exact compareIds_neg.mpr (Int.lt_of_lt_of_le (compareIds_neg.mp hx) (compareIds_nonpos.mp hxy))

/-- The ids of the timers increase. -/
def Increasing (timers : List Timer) : Prop := timers.Pairwise fun x y => x.nId < y.nId

theorem Increasing.sorted {timers : List Timer} (h : Increasing timers) :
    ArrayList.Sorted insertByIdCompareFunc timers := by
  refine h.imp ?_
  intro x y hlt
  exact compareIds_nonpos.mpr (Int.le_of_lt (Int32.lt_iff_toInt_lt.mp hlt))

theorem Increasing.distinct {l r : List Timer} {timer : Timer} (h : Increasing (l ++ timer :: r)) :
    ∀ x ∈ l ++ r, x.nId ≠ timer.nId := by
  obtain ⟨-, hright, hcross⟩ := List.pairwise_append.mp h
  intro x hx heq
  rcases List.mem_append.mp hx with hx | hx
  · have hlt := Int32.lt_iff_toInt_lt.mp (hcross x hx timer List.mem_cons_self)
    rw [heq] at hlt
    exact Int.lt_irrefl _ hlt
  · have hlt := Int32.lt_iff_toInt_lt.mp ((List.pairwise_cons.mp hright).1 x hx)
    rw [heq] at hlt
    exact Int.lt_irrefl _ hlt

/-- There are no more timers than ids. -/
theorem Increasing.length_le {timers : List Timer} (h : Increasing timers) : timers.length ≤ 2 ^ 32 := by
  have hnodup : (timers.map fun timer => timer.nId.toBitVec.toFin).Nodup := by
    rw [List.Nodup, List.pairwise_map]
    refine h.imp ?_
    intro x y hlt heq
    have hid : x.nId = y.nId := Int32.toBitVec_inj.mp (BitVec.toFin_inj.mp heq)
    rw [hid] at hlt
    exact Int.lt_irrefl _ (Int32.lt_iff_toInt_lt.mp hlt)
  have hcard := List.Nodup.length_le_card hnodup
  rwa [List.length_map, Fintype.card_fin] at hcard

/-! ### The tree -/

/-- A timer in the tree. -/
structure Node where
  nDueTime : UInt64
  timer : Timer
  deriving DecidableEq

/-- `cTree`, from `GetFirst` on. -/
structure DueTree where
  nodes : List Node
  sorted : nodes.Pairwise fun x y => x.nDueTime ≤ y.nDueTime

namespace DueTree

/-- The node is not due after the new one, so that this goes to the right of it. -/
def notAfter (node x : Node) : Bool := x.nDueTime ≤ node.nDueTime

theorem lt_of_mem_dropWhile {node y : Node} {nodes : List Node}
    (hsorted : nodes.Pairwise fun x y => x.nDueTime ≤ y.nDueTime)
    (hy : y ∈ nodes.dropWhile (notAfter node)) : node.nDueTime < y.nDueTime := by
  induction nodes with
  | nil => cases hy
  | cons x nodes ih =>
    obtain ⟨hx, hnodes⟩ := List.pairwise_cons.mp hsorted
    rw [List.dropWhile_cons] at hy
    split at hy
    · exact ih hnodes hy
    · rename_i hafter
      have hlt : node.nDueTime < x.nDueTime := by
        rw [notAfter, decide_eq_true_eq] at hafter
        exact UInt64.not_le.mp hafter
      rcases List.mem_cons.mp hy with rfl | hy
      · exact hlt
      · exact UInt64.lt_of_lt_of_le hlt (hx y hy)

/-- `Insert`, with duplicates: the new node is behind all those that are not due later. -/
def insert (tree : DueTree) (node : Node) : DueTree where
  nodes := tree.nodes.takeWhile (notAfter node) ++ node :: tree.nodes.dropWhile (notAfter node)
  sorted := by
    have hall := tree.sorted
    rw [← List.takeWhile_append_dropWhile (p := notAfter node) (l := tree.nodes)] at hall
    obtain ⟨hleft, hright, hcross⟩ := List.pairwise_append.mp hall
    have hlt : ∀ y ∈ tree.nodes.dropWhile (notAfter node), node.nDueTime ≤ y.nDueTime := by
      intro y hy
      exact UInt64.le_of_lt (lt_of_mem_dropWhile tree.sorted hy)
    refine List.pairwise_append.mpr ⟨hleft, List.pairwise_cons.mpr ⟨hlt, hright⟩, ?_⟩
    intro x hx y hy
    rcases List.mem_cons.mp hy with rfl | hy
    · have hbefore : notAfter y x = true := List.mem_takeWhile_imp hx
      exact of_decide_eq_true hbefore
    · exact hcross x hx y hy

/-- The node of a timer. -/
def isOf (timer : Timer) (x : Node) : Bool := x.timer == timer

/-- `Remove`, of the node of a timer. -/
def remove (tree : DueTree) (timer : Timer) : DueTree where
  nodes := tree.nodes.eraseP (isOf timer)
  sorted := tree.sorted.sublist List.eraseP_sublist

theorem perm_insert (tree : DueTree) (node : Node) : (tree.insert node).nodes.Perm (node :: tree.nodes) := by
  refine List.perm_middle.trans (List.Perm.cons _ ?_)
  rw [List.takeWhile_append_dropWhile]

/-- A node that was put in can be taken out again. -/
theorem remove_insert {tree : DueTree} {node : Node} (hnew : ∀ x ∈ tree.nodes, x.timer ≠ node.timer) :
    ((tree.insert node).remove node.timer).nodes = tree.nodes := by
  have hleft : ∀ x ∈ tree.nodes.takeWhile (notAfter node), ¬ isOf node.timer x = true := by
    intro x hx hof
    exact hnew x ((List.takeWhile_sublist _).subset hx) (beq_iff_eq.mp hof)
  change List.eraseP (isOf node.timer)
    (tree.nodes.takeWhile (notAfter node) ++ node :: tree.nodes.dropWhile (notAfter node)) = tree.nodes
  have hof : isOf node.timer node = true := beq_iff_eq.mpr rfl
  rw [List.eraseP_append_right _ hleft, List.eraseP_cons_of_pos hof, List.takeWhile_append_dropWhile]

end DueTree

/-! ### The handler -/

/-- The timer whose callback is running, and the flags that it may get meanwhile. -/
structure Running where
  timer : Timer
  bCanceled : Bool := false
  bCanceledInCallback : Bool := false

/-- `CTimerHandler`, its counter and its queue. -/
structure Handler where
  nNextTimerId : Int32
  cSortedByIdList : ArrayList Timer 32
  cTree : DueTree
  lpRunning : Option Running := none

/-- What a call of `AddTimer` gets, with what it meets: whether the pointer and the callback are
there, whether the rundown protection is acquired, the address from `AllocTimer`, the time, and
whether an allocation of the array succeeds. -/
structure AddArgs where
  hasTimerId : Bool
  bAcquired : Bool
  hasCallback : Bool
  dwTimeoutMs : UInt32
  bOneShot : Bool
  lpNewTimer : Option Nat
  uliCurrTime : UInt64
  bAlloc : Bool

namespace Handler

/-- The loop that numbers a timer: the counter after it, which goes on behind zero. -/
def assignTimerId (nNextTimerId : Int32) : Int32 :=
  let nId := nNextTimerId + 1
  if nId = 0 then nId + 1 else nId

/-- `MX_100NS_TO_MILLISECONDS` -/
def toMilliseconds (uliTime : UInt64) : UInt64 := uliTime / 10000

/-- `CalculateDueTime` -/
def calculateDueTime (dwTimeoutMs : UInt32) (uliCurrTime : UInt64) : UInt64 :=
  toMilliseconds uliCurrTime + dwTimeoutMs.toUInt64

/-- `AddTimer`: its result, what is written to `*lpnTimerId`, and the handler. -/
def addTimer (s : Handler) (args : AddArgs) : Option (HResult × Option Int32 × Handler) :=
  if !args.hasTimerId then some (.ePointer, none, s)
  else if !args.bAcquired then some (.mxNotReady, some 0, s)
  else if !args.hasCallback then some (.ePointer, some 0, s)
  else
    match args.lpNewTimer with
    | none => some (.eOutOfMemory, some 0, s)
    | some lpTimer =>
      let nId := assignTimerId s.nNextTimerId
      let cNewTimer : Timer := ⟨lpTimer, nId, args.dwTimeoutMs, args.bOneShot⟩
      let nDueTime := calculateDueTime args.dwTimeoutMs args.uliCurrTime
      match s.cSortedByIdList.sortedInsert cNewTimer insertByIdCompareFunc true args.bAlloc with
      | none => none
      | some (false, _, cList) =>
        some (.eOutOfMemory, some 0, { s with nNextTimerId := nId, cSortedByIdList := cList })
      | some (true, _, cList) =>
        some (.sOk, some nId, { s with
          nNextTimerId := nId
          cSortedByIdList := cList
          cTree := s.cTree.insert ⟨nDueTime, cNewTimer⟩ })

/-- `SetAsCanceled`, as far as it matters. -/
def setAsCanceled (s : Handler) (timer : Timer) (bInsideCallback : Bool) : Option Running :=
  s.lpRunning.map fun r =>
    if r.timer = timer then
      { r with bCanceled := true, bCanceledInCallback := r.bCanceledInCallback || bInsideCallback }
    else r

/-- `RemoveTimer`, for an id that was read from `*lpnTimerId`. -/
def removeTimer (s : Handler) (nTimerId : Int32) (bInsideCallback : Bool) : Option Handler :=
  if nTimerId = 0 then some s
  else
    match s.cSortedByIdList.binarySearch nTimerId searchByIdCompareFunc with
    | none => none
    | some none => some s
    | some (some nIndex) =>
      match s.cSortedByIdList.lpItems[nIndex]? with
      | none => none
      | some lpTimer =>
        some { s with
          lpRunning := s.setAsCanceled lpTimer bInsideCallback
          cSortedByIdList := (s.cSortedByIdList.removeElementAt nIndex 1).2
          cTree := s.cTree.remove lpTimer }

/-- The list and the tree have the same timers, and their ids differ. -/
structure Consistent (s : Handler) : Prop where
  increasing : Increasing s.cSortedByIdList.lpItems
  same : s.cSortedByIdList.lpItems.Perm (s.cTree.nodes.map Node.timer)

/-- **What `AddTimer` is to do**: it fails and leaves the list and the tree as they are, or it
succeeds with a new id, under which the timer is in both of them and can be removed from both. -/
def AddsFresh (s : Handler) (args : AddArgs) : Prop :=
  ∃ hRes nTimerId s', s.addTimer args = some (hRes, nTimerId, s') ∧
    ((hRes.failed = true ∧ s'.cSortedByIdList = s.cSortedByIdList ∧ s'.cTree = s.cTree) ∨
      ∃ node : Node, hRes = .sOk ∧ nTimerId = some node.timer.nId ∧ node.timer.nId ≠ 0 ∧
        (∀ timer ∈ s.cSortedByIdList.lpItems, timer.nId ≠ node.timer.nId) ∧
        s'.cSortedByIdList.lpItems.Perm (node.timer :: s.cSortedByIdList.lpItems) ∧
        s'.cTree.nodes.Perm (node :: s.cTree.nodes) ∧
        ∀ bInsideCallback, ∃ s'', s'.removeTimer node.timer.nId bInsideCallback = some s'' ∧
          s''.cSortedByIdList.lpItems = s.cSortedByIdList.lpItems ∧ s''.cTree.nodes = s.cTree.nodes)

/-- The call comes to the insertion. -/
def Accepted (args : AddArgs) : Prop :=
  args.hasTimerId = true ∧ args.bAcquired = true ∧ args.hasCallback = true ∧ args.lpNewTimer.isSome = true

theorem assignTimerId_ne_zero (nNextTimerId : Int32) : assignTimerId nNextTimerId ≠ 0 := by
  simp only [assignTimerId]
  split
  · rename_i hzero
    rw [hzero]
    decide
  · assumption

/-- **`RemoveTimer` takes the timer with the id out** of a list whose ids differ, and out of the
tree. -/
theorem removeTimer_spec {s : Handler} {l r : List Timer} {timer : Timer}
    (hitems : s.cSortedByIdList.lpItems = l ++ timer :: r)
    (hincreasing : Increasing (l ++ timer :: r)) (hid : timer.nId ≠ 0) (bInsideCallback : Bool) :
    ∃ s', s.removeTimer timer.nId bInsideCallback = some s' ∧
      s'.cSortedByIdList.lpItems = l ++ r ∧ s'.cTree = s.cTree.remove timer := by
  have hdistinct := hincreasing.distinct
  have htimer : s.cSortedByIdList.lpItems[l.length]? = some timer := by
    rw [hitems, List.getElem?_append_right le_rfl, Nat.sub_self, List.getElem?_cons_zero]
  have hsorted := hincreasing.sorted
  rw [← hitems] at hsorted
  -- the index that is found is that of the timer, as no other has its id
  obtain ⟨found, hsearch, hsome, hnone⟩ :=
    ArrayList.searchesInOrder hsorted timer.nId searchByIdCompareFunc (goesWith_searchById timer.nId)
  cases found with
  | none =>
    have hmem : timer ∈ s.cSortedByIdList.lpItems := List.mem_of_getElem? htimer
    exact absurd (compareIds_eq_zero.mpr rfl) (hnone rfl timer hmem)
  | some nIndex =>
    obtain ⟨x, hx, hzero⟩ := hsome nIndex rfl
    have hxid : x.nId = timer.nId := (compareIds_eq_zero.mp hzero).symm
    have hindex : nIndex = l.length := by
      rw [hitems] at hx
      rcases Nat.lt_trichotomy nIndex l.length with hlt | heq | hgt
      · rw [List.getElem?_append_left hlt] at hx
        exact absurd hxid (hdistinct x (List.mem_append_left _ (List.mem_of_getElem? hx)))
      · exact heq
      · obtain ⟨k, rfl⟩ : ∃ k, nIndex = l.length + (k + 1) := ⟨nIndex - l.length - 1, by omega⟩
        rw [List.getElem?_append_right (Nat.le_add_right _ _), Nat.add_sub_cancel_left,
          List.getElem?_cons_succ] at hx
        exact absurd hxid (hdistinct x (List.mem_append_right _ (List.mem_of_getElem? hx)))
    subst hindex
    refine ⟨{ s with
      lpRunning := s.setAsCanceled timer bInsideCallback
      cSortedByIdList := (s.cSortedByIdList.removeElementAt l.length 1).2
      cTree := s.cTree.remove timer }, ?_, ?_, rfl⟩
    · rw [removeTimer, if_neg hid, hsearch]
      simp only [htimer]
    · have hlen : s.cSortedByIdList.nCount = l.length + (r.length + 1) := by
        rw [ArrayList.nCount, hitems, List.length_append, List.length_cons]
      have hcard := hincreasing.length_le
      rw [List.length_append, List.length_cons] at hcard
      have hroom : ¬ (l.length ≥ s.cSortedByIdList.nCount ∨ 1 = 0 ∨ (l.length + 1) % 2 ^ 64 < l.length) := by
        omega
      have hone : ¬ l.length + 1 > s.cSortedByIdList.nCount := by omega
      rw [ArrayList.removeElementAt, if_neg hroom]
      simp only [if_neg hone]
      rw [hitems, List.take_left', List.drop_append]
      · simp
      · rfl

/-- What `AddTimer` does once the timer is there. -/
theorem addTimer_accepted {s : Handler} {args : AddArgs} (h : Accepted args) :
    ∃ node : Node, node.timer.nId = assignTimerId s.nNextTimerId ∧
      s.addTimer args =
        match s.cSortedByIdList.sortedInsert node.timer insertByIdCompareFunc true args.bAlloc with
        | none => none
        | some (false, _, cList) =>
          some (.eOutOfMemory, some 0,
            { s with nNextTimerId := node.timer.nId, cSortedByIdList := cList })
        | some (true, _, cList) =>
          some (.sOk, some node.timer.nId, { s with
            nNextTimerId := node.timer.nId
            cSortedByIdList := cList
            cTree := s.cTree.insert node }) := by
  obtain ⟨hid, hacquired, hcallback, hnew⟩ := h
  obtain ⟨lpTimer, hlp⟩ := Option.isSome_iff_exists.mp hnew
  refine ⟨⟨calculateDueTime args.dwTimeoutMs args.uliCurrTime,
    ⟨lpTimer, assignTimerId s.nNextTimerId, args.dwTimeoutMs, args.bOneShot⟩⟩, rfl, ?_⟩
  rw [addTimer, hid, hacquired, hcallback, hlp]
  rfl

/-- A call that does not come to the insertion changes nothing. -/
theorem addTimer_refused {s : Handler} {args : AddArgs} (h : ¬ Accepted args) :
    ∃ hRes nTimerId, s.addTimer args = some (hRes, nTimerId, s) ∧ hRes.failed = true := by
  unfold addTimer
  split
  · exact ⟨_, _, rfl, rfl⟩
  split
  · exact ⟨_, _, rfl, rfl⟩
  split
  · exact ⟨_, _, rfl, rfl⟩
  rename_i hid hacquired hcallback
  split
  · exact ⟨_, _, rfl, rfl⟩
  · rename_i lpTimer hlp
    refine absurd ⟨?_, ?_, ?_, by rw [hlp]; rfl⟩ h
    · simpa using hid
    · simpa using hacquired
    · simpa using hcallback

/-- A new id is put where it belongs. -/
theorem increasing_insert {l r : List Timer} {timer : Timer} (h : Increasing (l ++ r))
    (hnew : ∀ x ∈ l ++ r, x.nId ≠ timer.nId) (hl : ∀ x ∈ l, 0 < insertByIdCompareFunc timer x)
    (hr : ∀ x ∈ r, insertByIdCompareFunc timer x ≤ 0) : Increasing (l ++ timer :: r) := by
  obtain ⟨hleft, hright, hcross⟩ := List.pairwise_append.mp h
  refine List.pairwise_append.mpr ⟨hleft, List.pairwise_cons.mpr ⟨?_, hright⟩, ?_⟩
  · intro x hx
    have hle := compareIds_nonpos.mp (hr x hx)
    have hne := hnew x (List.mem_append_right _ hx)
    rw [ne_eq, ← Int32.toInt_inj] at hne
    exact Int32.lt_iff_toInt_lt.mpr (by omega)
  · intro x hx y hy
    rcases List.mem_cons.mp hy with rfl | hy
    · exact Int32.lt_iff_toInt_lt.mpr (compareIds_pos.mp (hl x hx))
    · exact hcross x hx y hy

/-- **`AddTimer` gives a fresh id** and keeps the two orders alike if and only if no timer has the
id that comes next. -/
theorem addsFresh_iff {s : Handler} (h : s.Consistent) (args : AddArgs) :
    s.AddsFresh args ↔
      ¬ (Accepted args ∧ ∃ timer ∈ s.cSortedByIdList.lpItems, timer.nId = assignTimerId s.nNextTimerId) := by
  by_cases haccepted : Accepted args
  case neg =>
    obtain ⟨hRes, nTimerId, hadd, hfailed⟩ := addTimer_refused (s := s) haccepted
    exact ⟨fun _ hused => haccepted hused.1, fun _ => ⟨hRes, nTimerId, s, hadd, .inl ⟨hfailed, rfl, rfl⟩⟩⟩
  obtain ⟨node, hnode, hadd⟩ := addTimer_accepted (s := s) haccepted
  obtain ⟨bRet, bAlready, cList, hinsert, halready, hthere, hput, hfail⟩ :=
    ArrayList.insertsInOrder totalPreorder_insertById h.increasing.sorted node.timer true args.bAlloc
  rw [hinsert] at hadd
  have hused : bAlready = true ↔
      ∃ timer ∈ s.cSortedByIdList.lpItems, timer.nId = assignTimerId s.nNextTimerId := by
    rw [halready, ← hnode]
    simp only [true_and, insertByIdCompareFunc, compareIds_eq_zero]
    exact ⟨fun ⟨x, hx, heq⟩ => ⟨x, hx, heq.symm⟩, fun ⟨x, hx, heq⟩ => ⟨x, hx, heq.symm⟩⟩
  cases bAlready with
  | true =>
    -- the array reports success
    obtain ⟨rfl, rfl⟩ := hthere rfl
    obtain ⟨timer, hmem, hid⟩ := hused.mp rfl
    refine ⟨?_, fun hfree => absurd ⟨haccepted, timer, hmem, hid⟩ hfree⟩
    rintro ⟨hRes, nTimerId, s', hadd', hright⟩
    obtain ⟨rfl, rfl, -⟩ : hRes = .sOk ∧ nTimerId = some node.timer.nId ∧ _ := by
      have heq := Option.some.inj (hadd.symm.trans hadd')
      exact ⟨(congrArg Prod.fst heq).symm, (congrArg (fun r => r.2.1) heq).symm, trivial⟩
    rcases hright with ⟨hfailed, -⟩ | ⟨node', -, hnId, -, hfresh, -⟩
    · cases hfailed
    · have heq := Option.some.inj hnId
      exact absurd (hid.trans (hnode.symm.trans heq)) (hfresh timer hmem)
  | false =>
    have hfree : ∀ timer ∈ s.cSortedByIdList.lpItems, timer.nId ≠ node.timer.nId := by
      intro timer hmem heq
      cases hused.mpr ⟨timer, hmem, heq.trans hnode⟩
    refine ⟨fun _ hdup => ?_, fun _ => ?_⟩
    · obtain ⟨timer, hmem, hid⟩ := hdup.2
      exact hfree timer hmem (hid.trans hnode.symm)
    cases bRet with
    | false =>
      obtain ⟨-, rfl⟩ := hfail rfl
      exact ⟨_, _, _, hadd, .inl ⟨rfl, rfl, rfl⟩⟩
    | true =>
      obtain ⟨l, r, hold, hnew, hl, hr⟩ := hput rfl rfl
      have hincreasing : Increasing (l ++ node.timer :: r) := by
        have hbefore := h.increasing
        rw [hold] at hbefore hfree
        exact increasing_insert hbefore hfree hl hr
      have hzero : node.timer.nId ≠ 0 := by
        rw [hnode]
        exact assignTimerId_ne_zero s.nNextTimerId
      have hnodes : ∀ x ∈ s.cTree.nodes, x.timer ≠ node.timer := by
        intro x hx heq
        have hmem := h.same.symm.subset (List.mem_map_of_mem hx)
        exact hfree x.timer hmem (congrArg Timer.nId heq)
      refine ⟨_, _, _, hadd, .inr ⟨node, rfl, rfl, hzero, hfree, ?_, s.cTree.perm_insert node, ?_⟩⟩
      · change cList.lpItems.Perm _
        rw [hnew, hold]
        exact List.perm_middle
      · intro bInsideCallback
        obtain ⟨s'', hremove, hlist, htree⟩ := removeTimer_spec (s := { s with
          nNextTimerId := node.timer.nId
          cSortedByIdList := cList
          cTree := s.cTree.insert node }) hnew hincreasing hzero bInsideCallback
        refine ⟨s'', hremove, hlist.trans hold.symm, ?_⟩
        rw [htree]
        exact DueTree.remove_insert hnodes

/-- An interval timer of one second, when nothing fails. -/
def anyArgs : AddArgs := ⟨true, true, true, 1000, false, some 2, 0, true⟩

/-- A handler without timers. -/
def unused : Handler := ⟨0, ArrayList.empty, ⟨[], List.Pairwise.nil⟩, none⟩

theorem addsFresh_unused : unused.Consistent ∧ unused.AddsFresh anyArgs := by
  have hconsistent : unused.Consistent := ⟨List.Pairwise.nil, List.Perm.nil⟩
  refine ⟨hconsistent, (addsFresh_iff hconsistent anyArgs).mpr ?_⟩
  rintro ⟨-, timer, hmem, -⟩
  cases hmem

/-- A handler whose first timer is still there when the counter has come round. -/
def wrapped : Handler where
  nNextTimerId := -1
  cSortedByIdList := ⟨[⟨1, 1, 1000, false⟩], 1, Nat.le_refl 1⟩
  cTree := ⟨[⟨1000, 1, 1, 1000, false⟩], List.pairwise_singleton _ _⟩

/-- **The id of a timer is given again**: the call succeeds with the id `1`, and the new timer is in
the tree only. -/
theorem not_addsFresh_wrapped :
    wrapped.Consistent ∧
      (∃ s', wrapped.addTimer anyArgs = some (.sOk, some 1, s') ∧
        s'.cSortedByIdList.lpItems = [⟨1, 1, 1000, false⟩] ∧
        s'.cTree.nodes = [⟨1000, 1, 1, 1000, false⟩, ⟨1000, 2, 1, 1000, false⟩]) ∧
      ¬ wrapped.AddsFresh anyArgs := by
  have hadd : ∃ s', wrapped.addTimer anyArgs = some (.sOk, some 1, s') ∧
      s'.cSortedByIdList.lpItems = [⟨1, 1, 1000, false⟩] ∧
      s'.cTree.nodes = [⟨1000, 1, 1, 1000, false⟩, ⟨1000, 2, 1, 1000, false⟩] :=
    ⟨_, rfl, rfl, by decide⟩
  refine ⟨⟨List.pairwise_singleton _ _, List.Perm.refl _⟩, hadd, ?_⟩
  rintro ⟨hRes, nTimerId, s', hadd', hright⟩
  obtain ⟨s₁, hadd, -⟩ := hadd
  rw [hadd] at hadd'
  obtain ⟨rfl, rfl, rfl⟩ : .sOk = hRes ∧ some 1 = nTimerId ∧ s₁ = s' := by
    simpa only [Option.some.injEq, Prod.mk.injEq] using hadd'
  rcases hright with ⟨hfailed, -⟩ | ⟨node, -, hid, -, hfresh, -⟩
  · cases hfailed
  · exact hfresh ⟨1, 1, 1000, false⟩ List.mem_cons_self (Option.some.inj hid)

end Handler

end MxLib.TimedEvent
