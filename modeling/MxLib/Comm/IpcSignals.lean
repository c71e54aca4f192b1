import MxLib.Comm.IpcBytes

/-!
# Signals and wake-ups

What has been recorded accounts for every write: each one that was given to `DoWrite` has completed
or is in progress.  A callback is invoked by the thread with the next packet after it has seen the
counter at zero, and nobody else writes in between, so everything has completed then (`Recorded`).

A thread that leaves the next packet in the list goes away only while the output is paused or a
write is counted, and the completion of that write is handled by another thread that looks at the
list again (`Awake`).
-/

namespace MxLib.Ipc

open MxLib.Library

/-! ### The writes that were recorded -/

def Event.written : Event → Option (Nat × Buffer)
  | .doWrite nOrder aBuffer => some (nOrder, aBuffer)
  | _ => none

def Event.finished : Event → Option (Nat × Buffer)
  | .completed nOrder aBuffer => some (nOrder, aBuffer)
  | _ => none

/-- The writes that were given to `DoWrite`. -/
def writesOf (history : List Event) : List (Nat × Buffer) := history.filterMap Event.written

/-- The writes that have completed. -/
def completedOf (history : List Event) : List (Nat × Buffer) := history.filterMap Event.finished

/-- The write that a thread is about to start. -/
def Thread.starts : Thread → List (Nat × Buffer)
  | .sendWritePacket nOrder aBuffer _ => [(nOrder, aBuffer)]
  | _ => []

/-- The writes that were given to `DoWrite` and have not completed. -/
def Connection.inProgress (s : Connection) : List (Nat × Buffer) :=
  s.writes ++ s.threads.flatMap Thread.starts

/-- **The record accounts for every write**, a thread that invokes a callback has nothing to wait
for, and every callback was invoked when all writes before it had completed. -/
structure Recorded (s : Connection) : Prop where
  accounts : (writesOf s.history).Perm (completedOf s.history ++ s.inProgress)
  ready : ∀ nOrder, .signalInvoke nOrder ∈ s.threads → s.counted = []
  invoked : ∀ history nOrder, history ++ [.invoke nOrder] <+: s.history →
    (writesOf history).Perm (completedOf history)

theorem Recorded.init : Recorded {} where
  accounts := .refl _
  ready := by
    intro nOrder h
    cases h
  invoked := by
    intro history nOrder h
    exact absurd (List.prefix_nil.mp h) (List.append_ne_nil_of_right_ne_nil _ (List.cons_ne_nil _ _))

/-- What the step of a thread adds to the record. -/
def Thread.records (bPending : Bool) : Thread → List Event
  | .signalInvoke nOrder => [.invoke nOrder]
  | .streamRead nOrder none [] => [.endOfStream nOrder]
  | .doWrite nOrder aBuffer _ => [.doWrite nOrder aBuffer]
  | .sendWritePacket nOrder aBuffer _ => if bPending then [] else [.completed nOrder aBuffer]
  | _ => []

section Step

variable {options : Options} {bPending : Bool} {s s' : Connection} {l r : List Thread} {t u : Thread}
  {f : Nat} {queue : List Request}

variable (options bPending s t) in
theorem exec_history : (exec options bPending s t).1.history = s.history ++ t.records bPending := by
  cases t with
  | signalInvoke nOrder | doWrite nOrder aBuffer lpStream => rfl
  | incoming | outgoingPacket =>
    rw [exec]
    split <;> exact (List.append_nil _).symm
  | streamRead nOrder lpNewPacket lpStream =>
    cases lpNewPacket with
    | some lpNewPacket => exact (List.append_nil _).symm
    | none =>
      cases lpStream with
      | nil => rfl
      | cons lpNewPacket lpStream => exact (List.append_nil _).symm
  | sendWritePacket nOrder aBuffer lpStream =>
    rw [exec, Thread.records]
    split
    · exact (List.append_nil _).symm
    · rfl
  | _ => exact (List.append_nil _).symm

variable (options bPending s t) in
/-- A write that a step records is started, and one that is in progress or has completed was. -/
theorem exec_accounts :
    (writesOf (t.records bPending) ++ (s.writes ++ t.starts)).Perm
      (completedOf (t.records bPending) ++ ((exec options bPending s t).1.writes ++
        (exec options bPending s t).2.toList.flatMap Thread.starts)) := by
  cases t with
  | doWrite nOrder aBuffer lpStream =>
    show ([(nOrder, aBuffer)] ++ (s.writes ++ [])).Perm (s.writes ++ [(nOrder, aBuffer)])
    rw [List.append_nil]
    exact List.perm_append_comm
  | sendWritePacket nOrder aBuffer lpStream =>
    rw [exec, Thread.records]
    have hafter : (afterDoWrite nOrder lpStream).starts = [] := by cases lpStream <;> rfl
    split
    · show (s.writes ++ [(nOrder, aBuffer)]).Perm
        ((s.writes ++ [(nOrder, aBuffer)]) ++ [afterDoWrite nOrder lpStream].flatMap Thread.starts)
      rw [List.flatMap_singleton, hafter, List.append_nil]
    · show (s.writes ++ [(nOrder, aBuffer)]).Perm ([(nOrder, aBuffer)] ++ (s.writes ++ []))
      rw [List.append_nil]
      exact List.perm_append_comm
  | incoming =>
    rw [exec]
    split <;> exact .refl _
  | outgoingPacket =>
    rw [exec]
    split
    · exact .refl _
    · rename_i lpPacket cList hdequeue
      obtain ⟨nOrder, body⟩ := lpPacket
      cases body <;> exact .refl _
  | readPaused | outgoing | outgoingBytes | signalBytes | signal | stream =>
    rw [exec]
    split <;> exact .refl _
  | streamRead nOrder lpNewPacket lpStream =>
    cases lpNewPacket <;> cases lpStream <;> exact .refl _
  | written nOrder aBuffer lpStream =>
    cases lpStream <;> exact .refl _
  | _ => exact .refl _

variable (options bPending s) in
/-- A step of a thread with no write of its own that does not begin one. -/
theorem exec_counted (hcounted : t.counted = []) (hdoWrite : ∀ nOrder aBuffer lpStream,
    t ≠ .doWrite nOrder aBuffer lpStream) :
    (exec options bPending s t).1.writes = s.writes ∧
      ∀ t' ∈ (exec options bPending s t).2, t'.counted = [] := by
  cases t with
  | doWrite nOrder aBuffer lpStream => exact absurd rfl (hdoWrite _ _ _)
  | write | sendWritePacket | written => cases hcounted
  | incoming =>
    rw [exec]
    split <;> exact ⟨rfl, fun t' ht => by obtain rfl := Option.mem_some_iff.mp ht; rfl⟩
  | outgoingPacket =>
    rw [exec]
    split
    · exact ⟨rfl, fun t' ht => by cases ht⟩
    · rename_i lpPacket cList hdequeue
      refine ⟨rfl, fun t' ht => ?_⟩
      obtain rfl := Option.mem_some_iff.mp ht
      obtain ⟨nOrder, body⟩ := lpPacket
      cases body <;> rfl
  | readPaused | outgoing | outgoingBytes | signalBytes =>
    refine ⟨rfl, fun t' ht => ?_⟩
    rw [exec] at ht
    dsimp only at ht
    split at ht <;> first | (obtain rfl := Option.mem_some_iff.mp ht; rfl) | cases ht
  | signal | stream =>
    refine ⟨rfl, fun t' ht => ?_⟩
    obtain rfl := Option.mem_some_iff.mp ht
    split <;> rfl
  | streamRead nOrder lpNewPacket lpStream =>
    cases lpNewPacket <;> cases lpStream <;>
      exact ⟨rfl, fun t' ht => by obtain rfl := Option.mem_some_iff.mp ht; rfl⟩
  | _ => exact ⟨rfl, fun t' ht => by obtain rfl := Option.mem_some_iff.mp ht; rfl⟩

/-- Whoever comes to invoke a callback has seen the counter at zero. -/
theorem exec_signalInvoke {nOrder : Nat}
    (h : .signalInvoke nOrder ∈ (exec options bPending s t).2.toList) :
    ∃ nOrder', t = .signal nOrder' ∧ s.nOutgoingBytes = 0 := by
  cases t with
  | signal nOrder' =>
    refine ⟨nOrder', rfl, ?_⟩
    by_cases hzero : s.nOutgoingBytes = 0
    · exact hzero
    · rw [exec, if_neg (by simpa using hzero), Option.toList_some, List.mem_singleton] at h
      cases h
  | incoming =>
    rw [exec] at h
    split at h <;> cases List.mem_singleton.mp h
  | outgoingPacket =>
    rw [exec] at h
    split at h
    · cases h
    · rename_i lpPacket cList hdequeue
      obtain ⟨nOrder', body⟩ := lpPacket
      cases body <;> cases List.mem_singleton.mp h
  | readPaused | outgoing | outgoingBytes | signalBytes | stream =>
    rw [exec] at h
    dsimp only at h
    split at h <;> simp at h
  | streamRead nOrder' lpNewPacket lpStream =>
    cases lpNewPacket <;> cases lpStream <;> cases List.mem_singleton.mp h
  | sendWritePacket nOrder' aBuffer lpStream =>
    rw [exec] at h
    split at h
    · cases lpStream <;> cases List.mem_singleton.mp h
    · cases List.mem_singleton.mp h
  | written nOrder' aBuffer lpStream =>
    cases lpStream <;> cases List.mem_singleton.mp h
  | _ => cases List.mem_singleton.mp h

/-- **Only one thread has a packet.** -/
theorem Outgoing.dequeued_eq_nil {p : Packet Request} (h : Outgoing s f queue)
    (hth : s.threads = l ++ t :: r) (hpackets : t.packets = [p]) (hdequeued : t.dequeued = [p])
    (hu : u ∈ l ++ r) : u.dequeued = [] := by
  have hp : p.nOrder = s.nNextWriteOrderToProcess :=
    h.order_of hth p (hdequeued ▸ List.mem_singleton_self _)
  have hord := h.ordered_of hth
  rw [hpackets] at hord
  obtain ⟨-, hnext, queue', -, hperm⟩ := hord.head hp
  refine List.eq_nil_iff_forall_not_mem.mpr fun q hq => ?_
  have hmem : q ∈ numbered (f + 2) queue' :=
    hperm.subset (List.mem_append_right _ (mem_of_packets (s := s) hu hq))
  have hrange : q.nOrder ∈ List.range' (f + 2) queue'.length := by
    rw [← map_numbered]
    exact List.mem_map_of_mem hmem
  have hq := h.holder_of hth u hu q hq
  have := List.mem_range'_1.mp hrange
  omega

theorem counted_eq_nil_iff : s.counted = [] ↔ s.writes = [] ∧ ∀ t ∈ s.threads, t.counted = [] := by
  rw [Connection.counted, List.append_eq_nil_iff, List.flatMap_eq_nil_iff]

/-- What has not completed is counted. -/
theorem inProgress_eq_nil (h : s.counted = []) : s.inProgress = [] := by
  obtain ⟨hwrites, hthreads⟩ := counted_eq_nil_iff.mp h
  rw [Connection.inProgress, hwrites, List.nil_append, List.flatMap_eq_nil_iff]
  intro t ht
  have hcounted := hthreads t ht
  cases t <;> first | rfl | cases hcounted

/-- A thread goes on, and whoever invokes a callback still has nothing to wait for. -/
theorem Recorded.ready_thread (h : Recorded s) (hout : Outgoing s f queue) (hbytes : Bytes options s)
    (hth : s.threads = l ++ t :: r) {nOrder : Nat}
    (hinvoke : .signalInvoke nOrder ∈ l ++ ((exec options bPending s t).2.toList ++ r)) :
    (exec options bPending s t).1.writes = [] ∧
      ∀ u ∈ l ++ ((exec options bPending s t).2.toList ++ r), u.counted = [] := by
  -- all is quiet before the step
  have hquiet : s.counted = [] ∧ ∀ nOrder aBuffer lpStream, t ≠ .doWrite nOrder aBuffer lpStream := by
    by_cases hother : .signalInvoke nOrder ∈ l ++ r
    · refine ⟨h.ready nOrder ?_, ?_⟩
      · rw [hth]
        rcases List.mem_append.mp hother with hin | hin
        · exact List.mem_append_left _ hin
        · exact List.mem_append_right _ (List.mem_cons_of_mem _ hin)
      · rintro nOrder' aBuffer lpStream rfl
        have hnil : (Thread.signalInvoke nOrder).dequeued = [] := by
          cases lpStream with
          | none => exact hout.dequeued_eq_nil hth rfl rfl hother
          | some lpStream => exact hout.dequeued_eq_nil hth rfl rfl hother
        cases hnil
    · -- the thread has just seen the counter at zero
      have hthis : .signalInvoke nOrder ∈ (exec options bPending s t).2.toList := by
        rcases List.mem_append.mp hinvoke with hin | hin
        · exact absurd (List.mem_append_left _ hin) hother
        · rcases List.mem_append.mp hin with hin | hin
          · exact hin
          · exact absurd (List.mem_append_right _ hin) hother
      obtain ⟨nOrder', rfl, hzero⟩ := exec_signalInvoke hthis
      refine ⟨eq_nil_of_sizeOf_eq_zero ?_, fun _ _ _ h => by cases h⟩
      rw [← hbytes.toNat, hzero]
      rfl
  obtain ⟨hcounted, hdoWrite⟩ := hquiet
  obtain ⟨hwrites, hthreads⟩ := counted_eq_nil_iff.mp hcounted
  rw [hth] at hthreads
  obtain ⟨hsame, hnew⟩ := exec_counted options bPending s
    (hthreads t (List.mem_append_right _ List.mem_cons_self)) hdoWrite
  refine ⟨hsame.trans hwrites, fun u hu => ?_⟩
  rcases List.mem_append.mp hu with hu | hu
  · exact hthreads u (List.mem_append_left _ hu)
  · rcases List.mem_append.mp hu with hu | hu
    · exact hnew u (Option.mem_toList.mp hu)
    · exact hthreads u (List.mem_append_right _ (List.mem_cons_of_mem _ hu))

/-- A record that gets longer by what the step of a thread adds. -/
theorem records_cases (t : Thread) (bPending : Bool) :
    t.records bPending = [] ∨ ∃ e, t.records bPending = [e] ∧
      ∀ nOrder, e = .invoke nOrder → t = .signalInvoke nOrder := by
  cases t with
  | signalInvoke nOrder => exact Or.inr ⟨_, rfl, fun nOrder' h => by cases h; rfl⟩
  | doWrite nOrder aBuffer lpStream => exact Or.inr ⟨_, rfl, fun nOrder' h => by cases h⟩
  | streamRead nOrder lpNewPacket lpStream =>
    cases lpNewPacket with
    | some lpNewPacket => exact Or.inl rfl
    | none =>
      cases lpStream with
      | nil => exact Or.inr ⟨_, rfl, fun nOrder' h => by cases h⟩
      | cons lpNewPacket lpStream => exact Or.inl rfl
  | sendWritePacket nOrder aBuffer lpStream =>
    cases bPending with
    | true => exact Or.inl rfl
    | false => exact Or.inr ⟨_, rfl, fun nOrder' h => by cases h⟩
  | _ => exact Or.inl rfl

/-- A thread of the pool goes on. -/
theorem Recorded.thread {i : Nat} (h : Recorded s) (hout : Outgoing s f queue) (hbytes : Bytes options s)
    (hstep : next options s (.thread i bPending) = some s') : Recorded s' := by
  obtain ⟨l, t, r, hth, rfl⟩ := next_thread hstep
  have hhistory := exec_history options bPending s t
  have haccounts := exec_accounts options bPending s t
  refine ⟨?_, ?_, ?_⟩
  · -- every write is accounted for
    have hbefore := h.accounts
    rw [Connection.inProgress, hth] at hbefore
    refine List.perm_iff_count.mpr fun x => ?_
    have hb := List.perm_iff_count.mp hbefore x
    have ha := List.perm_iff_count.mp haccounts x
    show List.count x (writesOf (exec options bPending s t).1.history) = _
    rw [hhistory]
    simp only [writesOf, completedOf, Connection.inProgress, List.filterMap_append,
      List.flatMap_append, List.flatMap_cons, List.count_append] at ha hb ⊢
    omega
  · intro nOrder hin
    exact counted_eq_nil_iff.mpr (h.ready_thread hout hbytes hth hin)
  · intro history nOrder hprefix
    have hprefix : history ++ [.invoke nOrder] <+: s.history ++ t.records bPending := hhistory ▸ hprefix
    rcases records_cases t bPending with hnil | ⟨e, he, hinvoke⟩
    · rw [hnil, List.append_nil] at hprefix
      exact h.invoked history nOrder hprefix
    · rw [he] at hprefix
      rcases List.prefix_concat_iff.mp hprefix with heq | hprefix
      · -- the callback is invoked now
        obtain ⟨rfl, hlast⟩ := List.append_inj' heq rfl
        obtain rfl := hinvoke nOrder (List.cons.inj hlast).1.symm
        have hquiet := h.ready nOrder (hth ▸ List.mem_append_right _ List.mem_cons_self)
        have hall := h.accounts
        rw [inProgress_eq_nil hquiet, List.append_nil] at hall
        exact hall
      · exact h.invoked history nOrder hprefix

/-- A step that neither writes nor invokes. -/
theorem Recorded.congr (h : Recorded s) (hhistory : s'.history = s.history) (hwrites : s'.writes = s.writes)
    (hthreads : s'.threads = s.threads) : Recorded s' := by
  have hprogress : s'.inProgress = s.inProgress := by
    rw [Connection.inProgress, hwrites, hthreads, Connection.inProgress]
  have hcounted : s'.counted = s.counted := by rw [Connection.counted, hwrites, hthreads, Connection.counted]
  refine ⟨?_, ?_, ?_⟩
  · rw [hhistory, hprogress]
    exact h.accounts
  · rw [hthreads, hcounted]
    exact h.ready
  · rw [hhistory]
    exact h.invoked

/-- A thread with no write joins the others. -/
theorem Recorded.dispatch (h : Recorded s) (hcounted : t.counted = []) (hstarts : t.starts = [])
    (hinvoke : ∀ nOrder, t ≠ .signalInvoke nOrder) (hstep : Ipc.dispatch options s t = some s') :
    Recorded s' := by
  obtain ⟨-, rfl⟩ := dispatch_eq_some hstep
  refine ⟨?_, ?_, h.invoked⟩
  · have hsame : (s.threads ++ [t]).flatMap Thread.starts = s.threads.flatMap Thread.starts := by
      rw [List.flatMap_append, List.flatMap_singleton, hstarts, List.append_nil]
    show (writesOf s.history).Perm (completedOf s.history ++
      (s.writes ++ (s.threads ++ [t]).flatMap Thread.starts))
    rw [hsame]
    exact h.accounts
  · intro nOrder hin
    rcases List.mem_append.mp hin with hin | hin
    · have hquiet := h.ready nOrder hin
      show s.writes ++ (s.threads ++ [t]).flatMap Thread.counted = []
      rw [List.flatMap_append, List.flatMap_singleton, hcounted, List.append_nil]
      exact hquiet
    · exact absurd (List.mem_singleton.mp hin).symm (hinvoke nOrder)

/-- A write has completed. -/
theorem Recorded.dispatchWrite {i : Nat} (h : Recorded s)
    (hstep : next options s (.dispatchWrite i) = some s') : Recorded s' := by
  rw [next, Option.bind_eq_some_iff] at hstep
  obtain ⟨⟨nOrder, aBuffer⟩, hget, hstep⟩ := hstep
  obtain ⟨-, rfl⟩ := dispatch_eq_some hstep
  obtain ⟨a, b, hsplit, herase, -⟩ := exists_append_of_getElem? hget
  refine ⟨?_, ?_, ?_⟩
  · have hbefore := h.accounts
    rw [Connection.inProgress, hsplit] at hbefore
    show (writesOf (s.history ++ [.completed nOrder aBuffer])).Perm
      (completedOf (s.history ++ [.completed nOrder aBuffer]) ++
        (s.writes.eraseIdx i ++ (s.threads ++ [Thread.write nOrder aBuffer]).flatMap Thread.starts))
    have hstarts : (s.threads ++ [Thread.write nOrder aBuffer]).flatMap Thread.starts =
        s.threads.flatMap Thread.starts := by
      rw [List.flatMap_append]
      exact List.append_nil _
    have hwrites : writesOf (s.history ++ [.completed nOrder aBuffer]) = writesOf s.history := by
      rw [writesOf, List.filterMap_append]
      exact List.append_nil _
    have hcompleted : completedOf (s.history ++ [.completed nOrder aBuffer]) =
        completedOf s.history ++ [(nOrder, aBuffer)] := by
      rw [completedOf, List.filterMap_append]
      rfl
    rw [herase, hstarts, hwrites, hcompleted]
    refine hbefore.trans (List.perm_iff_count.mpr fun x => ?_)
    simp only [List.count_append, List.count_cons, List.count_nil]
    omega
  · intro nOrder' hin
    have hthis : .signalInvoke nOrder' ∈ s.threads := by
      rcases List.mem_append.mp hin with hin | hin
      · exact hin
      · cases List.mem_singleton.mp hin
    have hquiet := (counted_eq_nil_iff.mp (h.ready nOrder' hthis)).1
    rw [hsplit] at hquiet
    exact absurd hquiet (List.append_ne_nil_of_right_ne_nil _ (List.cons_ne_nil _ _))
  · intro history nOrder' hprefix
    rcases List.prefix_concat_iff.mp hprefix with heq | hprefix
    · cases (List.cons.inj (List.append_inj' heq rfl).2).1
    · exact h.invoked history nOrder' hprefix

/-- **Every step keeps the record.** -/
theorem Recorded.step {action : Action} (h : Recorded s) (hout : Outgoing s f queue)
    (hbytes : Bytes options s) (hstep : next options s action = some s') : Recorded s' := by
  cases action with
  | sendMsg lpData =>
    rw [next] at hstep
    split at hstep
    · obtain rfl := Option.some.inj hstep
      exact h
    · obtain rfl := Option.some.inj hstep
      exact h.congr rfl rfl rfl
  | sendStream lpStream =>
    obtain rfl := Option.some.inj hstep
    exact h.congr rfl rfl rfl
  | afterWriteSignal =>
    obtain rfl := Option.some.inj hstep
    exact h.congr rfl rfl rfl
  | sender i =>
    obtain ⟨l, lpSender, r, -, rfl⟩ := next_sender hstep
    obtain ⟨-, hwrites, hthreads, hhistory, -⟩ := execSender_rest options s lpSender
    exact h.congr hhistory hwrites hthreads
  | dispatchWriteRequest i =>
    rw [next, Option.bind_eq_some_iff] at hstep
    obtain ⟨lpPacket, -, hstep⟩ := hstep
    have hrequests : Recorded { s with writeRequests := s.writeRequests.eraseIdx i } := h.congr rfl rfl rfl
    exact hrequests.dispatch rfl rfl (fun nOrder heq => by cases heq) hstep
  | dispatchWrite i => exact h.dispatchWrite hstep
  | dispatchRead i aBuffer =>
    rw [next, Option.bind_eq_some_iff] at hstep
    obtain ⟨nOrder, -, hstep⟩ := hstep
    split at hstep
    · cases hstep
    · have hreads : Recorded
          { s with
            reads := s.reads.eraseIdx i
            arrived := s.arrived ++ [⟨nOrder, aBuffer⟩] } := h.congr rfl rfl rfl
      exact hreads.dispatch rfl rfl (fun nOrder heq => by cases heq) hstep
  | dispatchResume i =>
    rw [next, Option.bind_eq_some_iff] at hstep
    obtain ⟨bIsRead, -, hstep⟩ := hstep
    have hresumes : Recorded { s with resumes := s.resumes.eraseIdx i } := h.congr rfl rfl rfl
    cases bIsRead with
    | true => exact hresumes.dispatch rfl rfl (fun nOrder heq => by cases heq) hstep
    | false => exact hresumes.dispatch rfl rfl (fun nOrder heq => by cases heq) hstep
  | thread i bPending => exact h.thread hout hbytes hstep
  | doRead | pauseOutputProcessing | pauseInputProcessing =>
    obtain rfl := Option.some.inj hstep
    exact h.congr rfl rfl rfl
  | resumeOutputProcessing | resumeInputProcessing =>
    rw [next] at hstep
    split at hstep
    · obtain rfl := Option.some.inj hstep
      exact h.congr rfl rfl rfl
    · obtain rfl := Option.some.inj hstep
      exact h

end Step

/-! ### Nobody is forgotten -/

/-- The handlers look at the pending packets before they end, but for one that finds the input paused. -/
def Thread.looks : Thread → Bool
  | .read _ | .readPaused => false
  | _ => true

/-- **The next packet is not forgotten**: while it is pending, somebody will look at it, or the
output is paused. -/
def Awake (s : Connection) : Prop :=
  (∃ p ∈ s.sPendingWritePackets, p.nOrder = s.nNextWriteOrderToProcess) →
    s.bOutputProcessingPaused = true ∨ false ∈ s.resumes ∨ s.writes ≠ [] ∨ ∃ t ∈ s.threads, t.looks = true

theorem Awake.init : Awake {} := by
  rintro ⟨p, hp, -⟩
  cases hp

section Wake

variable {options : Options} {bPending : Bool} {s s' : Connection} {l r : List Thread} {t : Thread}
  {f : Nat} {queue : List Request}

/-- A handler that goes on will look. -/
theorem exec_looks {t' : Thread} (h : (exec options bPending s t).2 = some t') :
    t'.looks = true ∨ ∃ lpPacket, t = .read lpPacket := by
  cases t with
  | read lpPacket => exact Or.inr ⟨lpPacket, rfl⟩
  | incoming =>
    rw [exec] at h
    split at h <;> obtain rfl := Option.some.inj h <;> exact Or.inl rfl
  | outgoingPacket =>
    rw [exec] at h
    split at h
    · cases h
    · rename_i lpPacket cList hdequeue
      obtain ⟨nOrder, body⟩ := lpPacket
      obtain rfl := Option.some.inj h
      cases body <;> exact Or.inl rfl
  | readPaused | outgoing | outgoingBytes | signalBytes =>
    rw [exec] at h
    dsimp only at h
    split at h <;> first | (obtain rfl := Option.some.inj h; exact Or.inl rfl) | cases h
  | signal | stream =>
    obtain rfl := Option.some.inj h
    split <;> exact Or.inl rfl
  | streamRead nOrder lpNewPacket lpStream =>
    cases lpNewPacket <;> cases lpStream <;> obtain rfl := Option.some.inj h <;> exact Or.inl rfl
  | sendWritePacket nOrder aBuffer lpStream =>
    rw [exec] at h
    split at h
    · obtain rfl := Option.some.inj h
      cases lpStream <;> exact Or.inl rfl
    · obtain rfl := Option.some.inj h
      exact Or.inl rfl
  | written nOrder aBuffer lpStream =>
    obtain rfl := Option.some.inj h
    cases lpStream <;> exact Or.inl rfl
  | _ =>
    obtain rfl := Option.some.inj h
    exact Or.inl rfl

/-- A write that is counted will be looked after. -/
theorem awake_of_counted (h : s.counted ≠ []) : s.writes ≠ [] ∨ ∃ t ∈ s.threads, t.counted ≠ [] := by
  by_contra hnone
  obtain ⟨hwrites, hthreads⟩ := not_or.mp hnone
  refine h (counted_eq_nil_iff.mpr ⟨not_not.mp hwrites, fun t ht => ?_⟩)
  by_contra hcounted
  exact hthreads ⟨t, ht, hcounted⟩

theorem looks_of_counted (h : t.counted ≠ []) : t.looks = true := by
  cases t <;> first | rfl | exact absurd rfl h

/-- A handler that ends has found the output paused, a write that is counted, no packet to look at,
or the input paused. -/
theorem exec_ends (h : (exec options bPending s t).2 = none) :
    (exec options bPending s t).1 = s ∧ t.counted = [] ∧
      (s.bOutputProcessingPaused = true ∨ s.nOutgoingBytes ≠ 0 ∨
        dequeue s.nNextWriteOrderToProcess s.sPendingWritePackets = none ∨ t.looks = false) := by
  have hmax := options.maxOutgoingBytes_ge
  cases t with
  | readPaused => exact ⟨rfl, rfl, Or.inr (Or.inr (Or.inr rfl))⟩
  | outgoing =>
    rw [exec] at h
    dsimp only at h
    split at h
    · rename_i hpaused
      exact ⟨rfl, rfl, Or.inl hpaused⟩
    · cases h
  | outgoingBytes =>
    rw [exec] at h
    dsimp only at h
    split at h
    · cases h
    · rename_i hge
      refine ⟨rfl, rfl, Or.inr (Or.inl fun hzero => ?_)⟩
      rw [hzero] at hge
      exact hge (Nat.lt_of_lt_of_le (by decide) hmax)
  | outgoingPacket =>
    rw [exec] at h ⊢
    split at h
    · rename_i hnone
      exact ⟨rfl, rfl, Or.inr (Or.inr (Or.inl hnone))⟩
    · cases h
  | signalBytes =>
    rw [exec] at h
    dsimp only at h
    split at h
    · rename_i hpos
      refine ⟨rfl, rfl, Or.inr (Or.inl fun hzero => ?_)⟩
      rw [hzero] at hpos
      exact absurd hpos (by decide)
    · cases h
  | incoming =>
    rw [exec] at h
    split at h <;> cases h
  | streamRead nOrder lpNewPacket lpStream =>
    cases lpNewPacket <;> cases lpStream <;> cases h
  | sendWritePacket nOrder aBuffer lpStream =>
    rw [exec] at h
    split at h <;> cases h
  | _ => cases h

/-- What a handler leaves alone, and what a sender does. -/
theorem exec_paused (options : Options) (bPending : Bool) (s : Connection) (t : Thread) :
    (exec options bPending s t).1.bOutputProcessingPaused = s.bOutputProcessingPaused ∧
      (exec options bPending s t).1.resumes = s.resumes := by
  cases t with
  | incoming | outgoingPacket | sendWritePacket =>
    rw [exec]
    split <;> exact ⟨rfl, rfl⟩
  | streamRead nOrder lpNewPacket lpStream =>
    cases lpNewPacket <;> cases lpStream <;> exact ⟨rfl, rfl⟩
  | _ => exact ⟨rfl, rfl⟩

/-- A thread of the pool goes on. -/
theorem Awake.thread {i : Nat} (h : Awake s) (hout : Outgoing s f queue) (hbytes : Bytes options s)
    (hstep : next options s (.thread i bPending) = some s') : Awake s' := by
  obtain ⟨l, t, r, hth, rfl⟩ := next_thread hstep
  have hpaused := exec_paused options bPending s t
  cases hexec : (exec options bPending s t).2 with
  | some t' =>
    rcases exec_looks hexec with hlooks | ⟨lpPacket, rfl⟩
    · intro _
      refine Or.inr (Or.inr (Or.inr ⟨t', ?_, hlooks⟩))
      exact List.mem_append_right _ (List.mem_append_left _ (List.mem_singleton_self _))
    · -- nothing has changed for the packets that are written
      intro hnext
      rcases h hnext with hp | hres | hw | ⟨u, hu, hlooks⟩
      · exact Or.inl hp
      · exact Or.inr (Or.inl hres)
      · exact Or.inr (Or.inr (Or.inl hw))
      · refine Or.inr (Or.inr (Or.inr ⟨u, ?_, hlooks⟩))
        rw [hth] at hu
        rcases List.mem_append.mp hu with hu | hu
        · exact List.mem_append_left _ hu
        · rcases List.mem_cons.mp hu with rfl | hu
          · cases hlooks
          · exact List.mem_append_right _ (List.mem_append_right _ hu)
  | none =>
    obtain ⟨hsame, hcounted, hends⟩ := exec_ends hexec
    intro hnext
    rw [Option.toList_none, List.nil_append]
    rw [hsame] at hnext ⊢
    have hothers : ∀ u ∈ s.threads, u ≠ t → u ∈ l ++ r := by
      intro u hu hne
      rw [hth] at hu
      rcases List.mem_append.mp hu with hu | hu
      · exact List.mem_append_left _ hu
      · rcases List.mem_cons.mp hu with rfl | hu
        · exact absurd rfl hne
        · exact List.mem_append_right _ hu
    rcases hends with hends | hends | hends | hends
    · exact Or.inl hends
    · -- the completion of the write will be handled
      have hne : s.counted ≠ [] := by
        intro hnil
        have hzero := hbytes.counts
        rw [hnil] at hzero
        exact hends hzero
      rcases awake_of_counted hne with hw | ⟨u, hu, hcu⟩
      · exact Or.inr (Or.inr (Or.inl hw))
      · refine Or.inr (Or.inr (Or.inr ⟨u, hothers u hu ?_, looks_of_counted hcu⟩))
        rintro rfl
        exact hcu hcounted
    · obtain ⟨p, hp, hpn⟩ := hnext
      exact absurd hpn (hout.ordered.not_pending hends p hp)
    · rcases h hnext with hp | hres | hw | ⟨u, hu, hlooks⟩
      · exact Or.inl hp
      · exact Or.inr (Or.inl hres)
      · exact Or.inr (Or.inr (Or.inl hw))
      · refine Or.inr (Or.inr (Or.inr ⟨u, hothers u hu ?_, hlooks⟩))
        rintro rfl
        rw [hlooks] at hends
        cases hends

/-- A step that takes nobody away. -/
theorem Awake.congr (h : Awake s) (hpending : s'.sPendingWritePackets = s.sPendingWritePackets)
    (hnext : s'.nNextWriteOrderToProcess = s.nNextWriteOrderToProcess)
    (hpaused : s.bOutputProcessingPaused = true → s'.bOutputProcessingPaused = true)
    (hresumes : false ∈ s.resumes → false ∈ s'.resumes) (hwrites : s.writes ≠ [] → s'.writes ≠ [])
    (hthreads : s'.threads = s.threads) : Awake s' := by
  intro hin
  rw [hpending, hnext] at hin
  rw [hthreads]
  exact (h hin).imp hpaused (Or.imp hresumes (Or.imp hwrites id))

/-- A handler that will look. -/
theorem Awake.dispatch (hlooks : t.looks = true) (hstep : Ipc.dispatch options s t = some s') : Awake s' := by
  obtain ⟨-, rfl⟩ := dispatch_eq_some hstep
  exact fun _ => Or.inr (Or.inr (Or.inr ⟨t, List.mem_append_right _ (List.mem_singleton_self _), hlooks⟩))

/-- **Every step keeps somebody awake** for the next packet. -/
theorem Awake.step {action : Action} (h : Awake s) (hout : Outgoing s f queue) (hbytes : Bytes options s)
    (hstep : next options s action = some s') : Awake s' := by
  cases action with
  | sendMsg lpData =>
    rw [next] at hstep
    split at hstep
    · obtain rfl := Option.some.inj hstep
      exact h
    · obtain rfl := Option.some.inj hstep
      exact h.congr rfl rfl id id id rfl
  | sendStream lpStream =>
    obtain rfl := Option.some.inj hstep
    exact h.congr rfl rfl id id id rfl
  | afterWriteSignal =>
    obtain rfl := Option.some.inj hstep
    exact h.congr rfl rfl id id id rfl
  | sender i =>
    obtain ⟨l, lpSender, r, -, rfl⟩ := next_sender hstep
    obtain ⟨-, hwrites, hthreads, -, hpending, hnext, hpaused, hresumes⟩ :=
      execSender_rest options s lpSender
    refine h.congr hpending hnext (fun hp => hpaused.trans hp) (fun hin => ?_) (fun hne => ?_) hthreads
    · show false ∈ (execSender options s lpSender).1.resumes
      rw [hresumes]
      exact hin
    · exact fun hnil => hne (hwrites.symm.trans hnil)
  | dispatchWriteRequest i =>
    rw [next, Option.bind_eq_some_iff] at hstep
    obtain ⟨lpPacket, -, hstep⟩ := hstep
    exact Awake.dispatch rfl hstep
  | dispatchWrite i =>
    rw [next, Option.bind_eq_some_iff] at hstep
    obtain ⟨⟨nOrder, aBuffer⟩, -, hstep⟩ := hstep
    exact Awake.dispatch rfl hstep
  | dispatchRead i aBuffer =>
    rw [next, Option.bind_eq_some_iff] at hstep
    obtain ⟨nOrder, -, hstep⟩ := hstep
    split at hstep
    · cases hstep
    · obtain ⟨-, rfl⟩ := dispatch_eq_some hstep
      intro hin
      rcases h hin with hp | hres | hw | ⟨u, hu, hlooks⟩
      · exact Or.inl hp
      · exact Or.inr (Or.inl hres)
      · exact Or.inr (Or.inr (Or.inl hw))
      · exact Or.inr (Or.inr (Or.inr ⟨u, List.mem_append_left _ hu, hlooks⟩))
  | dispatchResume i =>
    rw [next, Option.bind_eq_some_iff] at hstep
    obtain ⟨bIsRead, -, hstep⟩ := hstep
    cases bIsRead with
    | true => exact Awake.dispatch rfl hstep
    | false => exact Awake.dispatch rfl hstep
  | thread i bPending => exact h.thread hout hbytes hstep
  | doRead | pauseInputProcessing =>
    obtain rfl := Option.some.inj hstep
    exact h.congr rfl rfl id id id rfl
  | pauseOutputProcessing =>
    obtain rfl := Option.some.inj hstep
    exact fun _ => Or.inl rfl
  | resumeOutputProcessing =>
    rw [next] at hstep
    split at hstep
    · obtain rfl := Option.some.inj hstep
      exact fun _ => Or.inr (Or.inl (List.mem_append_right _ (List.mem_singleton_self _)))
    · obtain rfl := Option.some.inj hstep
      exact h
  | resumeInputProcessing =>
    rw [next] at hstep
    split at hstep
    · obtain rfl := Option.some.inj hstep
      exact h.congr rfl rfl id (fun hin => List.mem_append_left _ hin) id rfl
    · obtain rfl := Option.some.inj hstep
      exact h

end Wake

end MxLib.Ipc
