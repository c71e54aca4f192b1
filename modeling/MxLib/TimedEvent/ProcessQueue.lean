import MxLib.TimedEvent
import MxLib.Library.Loop

/-!
# The thread of the timers

`ProcessQueue` fires the timers that are due, one in every round of its loop, and returns how long
the thread may sleep.  While a callback runs, and between two rounds, the queue is not locked, so
any timers may be added and removed.

In the last round no timer of the tree is due, as the first one is not.  What is returned is at most
the time up to that one; but when this is `0xFFFFFFFF` milliseconds, it is `INFINITE`.
-/

namespace MxLib.TimedEvent

open MxLib.Library

/-- A call of another thread, or of the callback that is running. -/
inductive Call
  | addTimer (args : AddArgs)
  | removeTimer (nTimerId : Int32) (bInsideCallback : Bool)

/-- What a round of the loop meets: the calls up to the lock and while the callback runs, what the
clock shows, and what the callback answers. -/
structure Round where
  uliCurrTime : UInt64
  before : List Call
  during : List Call
  bCancel : Bool

/-- What `ProcessQueue` leaves: its result, the time of its last look at the clock, and the tree as
it was when it was locked the last time. -/
structure Waiting where
  dwTimeoutMs : UInt32
  nNow : UInt64
  cTree : DueTree

abbrev infinite : UInt32 := 0xFFFFFFFF

namespace Handler

def call (s : Handler) : Call → Option Handler
  | .addTimer args => (s.addTimer args).map fun r => r.2.2
  | .removeTimer nTimerId bInsideCallback => s.removeTimer nTimerId bInsideCallback

def calls (s : Handler) (l : List Call) : Option Handler := l.foldlM call s

/-- A timer that will not be fired again is taken out of the array. -/
def removeFromList (s : Handler) (timer : Timer) : Option Handler :=
  match s.cSortedByIdList.binarySearch timer.nId searchByIdCompareFunc with
  | none => none
  | some none => some s
  | some (some nIndex) => some { s with cSortedByIdList := (s.cSortedByIdList.removeElementAt nIndex 1).2 }

/-- What is done after the callback of a timer. -/
def afterCallback (s : Handler) (timer : Timer) (uliCurrTime : UInt64) (bCancel : Bool) : Option Handler :=
  if s.lpRunning.any Running.bCanceled then some { s with lpRunning := none }
  else
    let s := { s with cTree := s.cTree.remove timer, lpRunning := none }
    if bCancel || timer.bOneShot then s.removeFromList timer
    else some { s with
      cTree := s.cTree.insert ⟨calculateDueTime timer.dwTimeoutMs uliCurrTime, timer⟩ }

/-- How long to wait for a timer that is due in `nDiff` milliseconds. -/
def waitFor (nDiff : UInt64) : UInt32 := if nDiff > 0xFFFFFFFF then 0xFFFFFFFE else nDiff.toUInt32

/-- A round of the loop of `ProcessQueue`.  No timer of the tree is canceled, as `RemoveTimer` sets
that flag and takes the timer out under one lock, so the first timer that is due is fired. -/
def processRound (env : Nat → Round) : Nat × Handler → (Nat × Handler) ⊕ Option Waiting
  | (k, s) =>
    let nNow := toMilliseconds (env k).uliCurrTime
    match s.calls (env k).before with
    | none => .inr none
    | some s =>
      match s.cTree.nodes with
      | [] => .inr (some ⟨infinite, nNow, s.cTree⟩)
      | node :: _ =>
        if node.nDueTime ≤ nNow then
          match { s with lpRunning := some ⟨node.timer, false, false⟩ }.calls (env k).during with
          | none => .inr none
          | some s =>
            match s.afterCallback node.timer (env k).uliCurrTime (env k).bCancel with
            | none => .inr none
            | some s => .inl (k + 1, s)
        else .inr (some ⟨waitFor (node.nDueTime - nNow), nNow, s.cTree⟩)

/-- `ProcessQueue`, with at most `n` rounds; the inner `none` stands for a read outside the array. -/
def processQueue (env : Nat → Round) (n : Nat) (s : Handler) : Option (Option Waiting) :=
  Loop.run (processRound env) n (0, s)

/-- **The thread does not oversleep**: no timer that is left was due, and if any is left the thread
wakes up again, and not after the first of them is due. -/
structure NotTooLong (w : Waiting) : Prop where
  none_due : ∀ node ∈ w.cTree.nodes, w.nNow < node.nDueTime
  wakes : w.cTree.nodes ≠ [] → w.dwTimeoutMs ≠ infinite
  in_time : ∀ node ∈ w.cTree.nodes, w.nNow.toNat + w.dwTimeoutMs.toNat ≤ node.nDueTime.toNat

/-- The first timer is due exactly `0xFFFFFFFF` milliseconds after the last look at the clock. -/
def DueAtInfinite (w : Waiting) : Prop :=
  ∃ node, w.cTree.nodes.head? = some node ∧ node.nDueTime.toNat = w.nNow.toNat + 0xFFFFFFFF

/-! ### The array of the timers -/

section Calls

variable {s s' : Handler}

theorem addTimer_increasing (h : Increasing s.cSortedByIdList.lpItems) (args : AddArgs) :
    ∃ r, s.addTimer args = some r ∧ Increasing r.2.2.cSortedByIdList.lpItems := by
  by_cases haccepted : Accepted args
  case neg =>
    obtain ⟨hRes, nTimerId, hadd, -⟩ := addTimer_refused (s := s) haccepted
    exact ⟨_, hadd, h⟩
  obtain ⟨node, -, hadd⟩ := addTimer_accepted (s := s) haccepted
  obtain ⟨bRet, bAlready, cList, hinsert, halready, hthere, hput, hfail⟩ :=
    ArrayList.insertsInOrder totalPreorder_insertById h.sorted node.timer true args.bAlloc
  rw [hinsert] at hadd
  have hlist : Increasing cList.lpItems := by
    cases bAlready with
    | true =>
      rw [(hthere rfl).2]
      exact h
    | false =>
      cases bRet with
      | false =>
        rw [(hfail rfl).2]
        exact h
      | true =>
        obtain ⟨l, r, hold, hnew, hl, hr⟩ := hput rfl rfl
        rw [hold] at h halready
        rw [hnew]
        refine increasing_insert h ?_ hl hr
        intro x hx heq
        cases halready.mpr ⟨rfl, x, hx, compareIds_eq_zero.mpr heq.symm⟩
  cases bRet <;> exact ⟨_, hadd, hlist⟩

/-- A search by id reads timers of the array only, and finds one of them or none. -/
theorem search_cases (h : Increasing s.cSortedByIdList.lpItems) (nId : Int32) :
    s.cSortedByIdList.binarySearch nId searchByIdCompareFunc = some none ∨
      ∃ nIndex timer, s.cSortedByIdList.binarySearch nId searchByIdCompareFunc = some (some nIndex) ∧
        s.cSortedByIdList.lpItems[nIndex]? = some timer := by
  obtain ⟨found, hsearch, hsome, -⟩ :=
    ArrayList.searchesInOrder h.sorted nId searchByIdCompareFunc (goesWith_searchById nId)
  cases found with
  | none => exact .inl hsearch
  | some nIndex =>
    obtain ⟨timer, htimer, -⟩ := hsome nIndex rfl
    exact .inr ⟨nIndex, timer, hsearch, htimer⟩

theorem increasing_removeElementAt (h : Increasing s.cSortedByIdList.lpItems) (nIndex : Nat) :
    Increasing (s.cSortedByIdList.removeElementAt nIndex 1).2.lpItems :=
  List.Pairwise.sublist (ArrayList.removeElementAt_sublist _ _ _) h

theorem removeTimer_increasing (h : Increasing s.cSortedByIdList.lpItems) (nTimerId : Int32)
    (bInsideCallback : Bool) :
    ∃ s', s.removeTimer nTimerId bInsideCallback = some s' ∧ Increasing s'.cSortedByIdList.lpItems := by
  rw [removeTimer]
  split
  · exact ⟨s, rfl, h⟩
  · rcases search_cases h nTimerId with hsearch | ⟨nIndex, timer, hsearch, htimer⟩
    · rw [hsearch]
      exact ⟨s, rfl, h⟩
    · rw [hsearch]
      simp only [htimer]
      exact ⟨_, rfl, increasing_removeElementAt h nIndex⟩

theorem removeFromList_increasing (h : Increasing s.cSortedByIdList.lpItems) (timer : Timer) :
    ∃ s', s.removeFromList timer = some s' ∧ Increasing s'.cSortedByIdList.lpItems := by
  rw [removeFromList]
  rcases search_cases h timer.nId with hsearch | ⟨nIndex, timer', hsearch, htimer⟩
  · rw [hsearch]
    exact ⟨s, rfl, h⟩
  · rw [hsearch]
    exact ⟨_, rfl, increasing_removeElementAt h nIndex⟩

theorem call_increasing (h : Increasing s.cSortedByIdList.lpItems) (c : Call) :
    ∃ s', s.call c = some s' ∧ Increasing s'.cSortedByIdList.lpItems := by
  cases c with
  | addTimer args =>
    obtain ⟨r, hadd, hr⟩ := addTimer_increasing h args
    exact ⟨r.2.2, by rw [call, hadd, Option.map_some], hr⟩
  | removeTimer nTimerId bInsideCallback => exact removeTimer_increasing h nTimerId bInsideCallback

theorem calls_increasing (h : Increasing s.cSortedByIdList.lpItems) (l : List Call) :
    ∃ s', s.calls l = some s' ∧ Increasing s'.cSortedByIdList.lpItems := by
  induction l generalizing s with
  | nil => exact ⟨s, rfl, h⟩
  | cons c l ih =>
    obtain ⟨s₁, hcall, h₁⟩ := call_increasing h c
    obtain ⟨s', hcalls, h'⟩ := ih h₁
    refine ⟨s', ?_, h'⟩
    rw [calls, List.foldlM_cons, hcall]
    exact hcalls

theorem afterCallback_increasing (h : Increasing s.cSortedByIdList.lpItems) (timer : Timer)
    (uliCurrTime : UInt64) (bCancel : Bool) :
    ∃ s', s.afterCallback timer uliCurrTime bCancel = some s' ∧ Increasing s'.cSortedByIdList.lpItems := by
  rw [afterCallback]
  split
  · exact ⟨_, rfl, h⟩
  · split
    · exact removeFromList_increasing (s := { s with cTree := s.cTree.remove timer, lpRunning := none }) h timer
    · exact ⟨_, rfl, h⟩

end Calls

/-- A round from an array whose ids increase goes on with such an array, or it returns. -/
theorem processRound_cases (env : Nat → Round) {k : Nat} {s : Handler}
    (h : Increasing s.cSortedByIdList.lpItems) :
    (∃ s', processRound env (k, s) = .inl (k + 1, s') ∧ Increasing s'.cSortedByIdList.lpItems) ∨
      ∃ w, processRound env (k, s) = .inr (some w) := by
  obtain ⟨s₁, hcalls, h₁⟩ := calls_increasing h (env k).before
  rw [processRound, hcalls]
  simp only
  split
  · exact .inr ⟨_, rfl⟩
  · rename_i node rest hnodes
    split
    · obtain ⟨s₂, hduring, h₂⟩ :=
        calls_increasing (s := { s₁ with lpRunning := some ⟨node.timer, false, false⟩ }) h₁ (env k).during
      obtain ⟨s₃, hafter, h₃⟩ := afterCallback_increasing h₂ node.timer (env k).uliCurrTime (env k).bCancel
      rw [hduring]
      simp only [hafter]
      exact .inl ⟨s₃, rfl, h₃⟩
    · exact .inr ⟨_, rfl⟩

/-- **The rounds read the array within its bounds**, from any array whose ids increase. -/
theorem processQueue_defined (env : Nat → Round) {n : Nat} {s : Handler} {r : Option Waiting}
    (hs : Increasing s.cSortedByIdList.lpItems) (h : s.processQueue env n = some r) : r ≠ none := by
  refine Loop.run_induct (fun x => Increasing x.2.cSortedByIdList.lpItems) (· ≠ none) ?_ ?_ hs h
  · rintro ⟨k, s⟩ t hs hround
    rcases processRound_cases env (k := k) hs with ⟨s', hnext, h'⟩ | ⟨w, hleave⟩
    · obtain rfl := Sum.inl.inj (hnext.symm.trans hround)
      exact h'
    · cases hleave.symm.trans hround
  · rintro ⟨k, s⟩ r hs hround
    rcases processRound_cases env (k := k) hs with ⟨s', hnext, -⟩ | ⟨w, hleave⟩
    · cases hnext.symm.trans hround
    · obtain rfl := Sum.inr.inj (hleave.symm.trans hround)
      exact Option.some_ne_none w

/-! ### What is returned -/

/-- **A timer is due as many milliseconds after the time as it was given**: the sum has 64 bits. -/
theorem toNat_calculateDueTime (dwTimeoutMs : UInt32) (uliCurrTime : UInt64) :
    (calculateDueTime dwTimeoutMs uliCurrTime).toNat = uliCurrTime.toNat / 10000 + dwTimeoutMs.toNat := by
  have htime := uliCurrTime.toNat_lt
  have htimeout := dwTimeoutMs.toNat_lt
  have hms : (toMilliseconds uliCurrTime).toNat = uliCurrTime.toNat / 10000 := UInt64.toNat_div _ _
  rw [calculateDueTime, UInt64.toNat_add, hms, UInt32.toNat_toUInt64]
  exact Nat.mod_eq_of_lt (by omega)

theorem toNat_waitFor (nDiff : UInt64) :
    (waitFor nDiff).toNat = if nDiff.toNat > 0xFFFFFFFF then 0xFFFFFFFE else nDiff.toNat := by
  rw [waitFor]
  have hgt : nDiff > 0xFFFFFFFF ↔ nDiff.toNat > 0xFFFFFFFF := UInt64.lt_iff_toNat_lt
  split
  · rename_i h
    rw [if_pos (hgt.mp h)]
    rfl
  · rename_i h
    rw [hgt] at h
    rw [if_neg h, UInt64.toNat_toUInt32]
    exact Nat.mod_eq_of_lt (by omega)

/-- What the last round leaves. -/
def Left (w : Waiting) : Prop :=
  match w.cTree.nodes with
  | [] => w.dwTimeoutMs = infinite
  | node :: _ => w.nNow < node.nDueTime ∧ w.dwTimeoutMs = waitFor (node.nDueTime - w.nNow)

theorem Left.notTooLong_iff {w : Waiting} (h : Left w) : NotTooLong w ↔ ¬ DueAtInfinite w := by
  have hsorted := w.cTree.sorted
  rw [Left] at h
  rcases hnodes : w.cTree.nodes with - | ⟨first, rest⟩
  · -- an empty tree
    refine ⟨?_, fun _ => ⟨?_, ?_, ?_⟩⟩
    · rintro - ⟨node, hhead, -⟩
      rw [hnodes] at hhead
      cases hhead
    · rw [hnodes]
      exact nofun
    · exact fun hne => absurd hnodes hne
    · rw [hnodes]
      exact nofun
  · rw [hnodes] at h hsorted
    obtain ⟨hlt, hwait⟩ := h
    have hltNat := UInt64.lt_iff_toNat_lt.mp hlt
    have hdiff : (first.nDueTime - w.nNow).toNat = first.nDueTime.toNat - w.nNow.toNat :=
      UInt64.toNat_sub_of_le _ _ (UInt64.le_of_lt hlt)
    have hvalue := toNat_waitFor (first.nDueTime - w.nNow)
    rw [← hwait, hdiff] at hvalue
    have hinfinite : w.dwTimeoutMs = infinite ↔ w.dwTimeoutMs.toNat = 0xFFFFFFFF :=
      ⟨fun heq => by rw [heq]; rfl, fun heq => UInt32.toNat_inj.mp heq⟩
    constructor
    · rintro hright ⟨node, hhead, hdue⟩
      rw [hnodes] at hhead
      obtain rfl := Option.some.inj hhead
      refine hright.wakes (by rw [hnodes]; exact List.cons_ne_nil _ _) (hinfinite.mpr ?_)
      rw [hvalue, if_neg (by omega)]
      omega
    · intro hnot
      have hne : first.nDueTime.toNat ≠ w.nNow.toNat + 0xFFFFFFFF :=
        fun heq => hnot ⟨first, by rw [hnodes]; rfl, heq⟩
      have hfirst : ∀ node ∈ w.cTree.nodes, first.nDueTime.toNat ≤ node.nDueTime.toNat := by
        intro node hnode
        rw [hnodes] at hnode
        rcases List.mem_cons.mp hnode with rfl | hnode
        · exact Nat.le_refl _
        · exact UInt64.le_iff_toNat_le.mp ((List.pairwise_cons.mp hsorted).1 node hnode)
      refine ⟨?_, ?_, ?_⟩
      · intro node hnode
        exact UInt64.lt_iff_toNat_lt.mpr (Nat.lt_of_lt_of_le hltNat (hfirst node hnode))
      · intro _ heq
        rw [hinfinite.mp heq] at hvalue
        split at hvalue <;> omega
      · intro node hnode
        have := hfirst node hnode
        split at hvalue <;> omega

/-- The last round looks at the first timer, which is not due. -/
theorem left_of_processRound {env : Nat → Round} {k : Nat} {s : Handler} {w : Waiting}
    (h : processRound env (k, s) = .inr (some w)) : Left w := by
  simp only [processRound] at h
  split at h
  · cases h
  split at h
  · rename_i hnodes
    obtain rfl := Option.some.inj (Sum.inr.inj h)
    rw [Left, hnodes]
  · rename_i node rest hnodes
    split at h
    · split at h
      · cases h
      · split at h <;> cases h
    · rename_i hdue
      obtain rfl := Option.some.inj (Sum.inr.inj h)
      rw [Left, hnodes]
      exact ⟨UInt64.not_le.mp hdue, rfl⟩

/-- **The timer thread does not oversleep** if and only if the first timer that is left is not due in
exactly `0xFFFFFFFF` milliseconds. -/
theorem processQueue_iff (env : Nat → Round) {n : Nat} {s : Handler} {w : Waiting}
    (h : s.processQueue env n = some (some w)) : NotTooLong w ↔ ¬ DueAtInfinite w := by
  have hleft : ∀ w', some w = some w' → Left w' :=
    Loop.run_induct (fun _ => True) (fun r => ∀ w', r = some w' → Left w') (fun _ _ _ _ => trivial)
      (fun s r _ hround w' hr => left_of_processRound (k := s.1) (s := s.2) (hround.trans (congrArg Sum.inr hr)))
      trivial h
  exact (hleft w rfl).notTooLong_iff

/-- One timer is added at the time `0`, before the thread looks at it. -/
def addedAtZero (dwTimeoutMs : UInt32) (_ : Nat) : Round :=
  ⟨0, [.addTimer { anyArgs with dwTimeoutMs }], [], false⟩

theorem notTooLong_second :
    ∃ w, unused.processQueue (addedAtZero 1000) 1 = some (some w) ∧ w.dwTimeoutMs = 1000 ∧ NotTooLong w := by
  obtain ⟨w, hw, hdue, hwait⟩ : ∃ w, unused.processQueue (addedAtZero 1000) 1 = some (some w) ∧
      w.cTree.nodes.head? = some ⟨1000, 2, 1, 1000, false⟩ ∧ w.dwTimeoutMs = 1000 ∧ w.nNow = 0 :=
    ⟨_, rfl, by decide, by decide, by decide⟩
  refine ⟨w, hw, hwait.1, (processQueue_iff _ hw).mpr ?_⟩
  rintro ⟨node, hhead, heq⟩
  obtain rfl := Option.some.inj (hdue.symm.trans hhead)
  rw [hwait.2] at heq
  revert heq
  decide

/-- **A timer of `0xFFFFFFFF` milliseconds**: the thread is told to wait without an end. -/
theorem not_notTooLong_infinite :
    ∃ w, unused.processQueue (addedAtZero 0xFFFFFFFF) 1 = some (some w) ∧
      w.cTree.nodes = [⟨0xFFFFFFFF, 2, 1, 0xFFFFFFFF, false⟩] ∧ w.dwTimeoutMs = infinite ∧
      ¬ NotTooLong w := by
  refine ⟨_, rfl, by decide, by decide, ?_⟩
  intro h
  exact h.wakes (by decide) (by decide)

end Handler

end MxLib.TimedEvent
