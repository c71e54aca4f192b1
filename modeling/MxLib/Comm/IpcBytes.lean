import MxLib.Comm.IpcOutgoing

/-!
# The bytes that are on their way

`nOutgoingBytes` counts the bytes of the writes that were given to `DoWrite` and whose completion was
not handled yet.  A thread looks at the counter before each write and there may be other threads
between the look and the write, so the counter exceeds the limit by a packet for each thread at most
and does not wrap.
-/

namespace MxLib.Ipc

open MxLib.Library

/-- The write that a thread has added to the counter and has to subtract or to give away. -/
def Thread.counted : Thread → List (Nat × Buffer)
  | .write nOrder aBuffer | .sendWritePacket nOrder aBuffer _ | .written nOrder aBuffer _ => [(nOrder, aBuffer)]
  | _ => []

/-- One for a thread that has seen the counter below the limit and may write. -/
def Thread.permit : Thread → Nat
  | .outgoingPacket | .streamRead _ _ _ | .doWrite _ _ _ => 1
  | _ => 0

/-- The writes that the counter counts. -/
def Connection.counted (s : Connection) : List (Nat × Buffer) :=
  s.writes ++ s.threads.flatMap Thread.counted

/-- The number of bytes. -/
def sizeOf (writes : List (Nat × Buffer)) : Nat := (writes.map fun x => x.2.1.length).sum

def permits (threads : List Thread) : Nat := (threads.map Thread.permit).sum

/-- The counter counts the writes, and no more than the limit with a packet for each thread. -/
structure Bytes (options : Options) (s : Connection) : Prop where
  threads_le : s.threads.length ≤ options.nThreads
  counts : s.nOutgoingBytes = UInt32.ofNat (sizeOf s.counted)
  budget : sizeOf s.counted + 32768 * permits s.threads ≤
    options.dwMaxOutgoingBytes + 32768 * options.nThreads

theorem Bytes.init (options : Options) : Bytes options {} :=
  ⟨Nat.zero_le _, rfl, Nat.zero_le _⟩

theorem sizeOf_append (l r : List (Nat × Buffer)) : sizeOf (l ++ r) = sizeOf l + sizeOf r := by
  rw [sizeOf, List.map_append, List.sum_append, sizeOf, sizeOf]

theorem sizeOf_singleton (nOrder : Nat) (aBuffer : Buffer) : sizeOf [(nOrder, aBuffer)] = aBuffer.1.length := by
  rw [sizeOf, List.map_singleton, List.sum_singleton]

theorem permits_append (l r : List Thread) : permits (l ++ r) = permits l + permits r := by
  rw [permits, List.map_append, List.sum_append, permits, permits]

theorem permits_le_length (threads : List Thread) : permits threads ≤ threads.length := by
  induction threads with
  | nil => exact Nat.le_refl _
  | cons t threads ih =>
    have hle : t.permit ≤ 1 := by cases t <;> first | exact Nat.le_refl _ | exact Nat.zero_le _
    rw [permits, List.map_cons, List.sum_cons, List.length_cons]
    rw [permits] at ih
    omega

/-- A write that is counted has a byte, so the counter tells whether there is one. -/
theorem eq_nil_of_sizeOf_eq_zero {writes : List (Nat × Buffer)} (h : sizeOf writes = 0) : writes = [] := by
  rcases writes with - | ⟨⟨nOrder, aBuffer⟩, writes⟩
  · rfl
  · rw [sizeOf, List.map_cons, List.sum_cons] at h
    exact absurd (List.length_eq_zero_iff.mp (Nat.eq_zero_of_add_eq_zero_right h)) aBuffer.2.1

section Step

variable {options : Options} {s s' : Connection} {l r : List Thread} {t : Thread}

/-- **The counter does not wrap.** -/
theorem Bytes.lt (h : Bytes options s) : sizeOf s.counted < 2 ^ 32 := by
  have hbudget := h.budget
  have hmax := options.maxOutgoingBytes_le
  have hthreads := options.threads_le
  omega

theorem Bytes.toNat (h : Bytes options s) : s.nOutgoingBytes.toNat = sizeOf s.counted := by
  rw [h.counts, UInt32.toNat_ofNat_of_lt' h.lt]

/-- What the counter and the limit are for one of the threads. -/
structure Counts (options : Options) (s : Connection) (others : List Thread) (threads : List Thread) :
    Prop where
  counts : s.nOutgoingBytes = UInt32.ofNat
    (sizeOf (threads.flatMap Thread.counted) + sizeOf (s.writes ++ others.flatMap Thread.counted))
  budget : sizeOf (threads.flatMap Thread.counted) + sizeOf (s.writes ++ others.flatMap Thread.counted) +
    32768 * (permits threads + permits others) ≤ options.dwMaxOutgoingBytes + 32768 * options.nThreads

theorem sizeOf_counted (s : Connection) (l r threads : List Thread) :
    sizeOf (s.writes ++ (l ++ (threads ++ r)).flatMap Thread.counted) =
      sizeOf (threads.flatMap Thread.counted) + sizeOf (s.writes ++ (l ++ r).flatMap Thread.counted) := by
  simp only [List.flatMap_append, sizeOf_append]
  omega

theorem permits_split (l r threads : List Thread) :
    permits (l ++ (threads ++ r)) = permits threads + permits (l ++ r) := by
  simp only [permits_append]
  omega

theorem Bytes.counts_of (h : Bytes options s) (hth : s.threads = l ++ t :: r) :
    Counts options s (l ++ r) [t] := by
  have hcounts := h.counts
  have hbudget := h.budget
  rw [Connection.counted, hth] at hcounts hbudget
  rw [← List.singleton_append (l := r), sizeOf_counted] at hcounts hbudget
  rw [permits_split] at hbudget
  exact ⟨hcounts, hbudget⟩

/-- There is room for another write for each of the threads. -/
theorem Bytes.counts_permit {t' : Thread} (h : Bytes options s) (hth : s.threads = l ++ t :: r)
    (hlt : s.nOutgoingBytes.toNat < options.dwMaxOutgoingBytes) (hold : t.counted = [])
    (hnew : t'.counted = []) : Counts options s (l ++ r) [t'] := by
  have hcounts := h.counts_of hth
  have hsize : sizeOf s.counted = sizeOf (s.writes ++ (l ++ r).flatMap Thread.counted) := by
    rw [Connection.counted, hth, ← List.singleton_append (l := r), sizeOf_counted, List.flatMap_singleton, hold]
    exact Nat.zero_add _
  refine ⟨?_, ?_⟩
  · have hc := hcounts.counts
    rw [List.flatMap_singleton, hold] at hc
    rw [List.flatMap_singleton, hnew]
    exact hc
  · rw [h.toNat, hsize] at hlt
    have hlen := h.threads_le
    rw [hth, List.length_append, List.length_cons] at hlen
    have hothers := permits_le_length (l ++ r)
    rw [List.length_append] at hothers
    have hone := permits_le_length [t']
    rw [List.length_singleton] at hone
    rw [List.flatMap_singleton, hnew, show sizeOf [] = 0 from rfl]
    omega

/-- A step that leaves the counter alone, and gives no permission to write. -/
theorem Counts.congr {t' : Thread} {others : List Thread} (h : Counts options s others [t])
    (hbytes : s'.nOutgoingBytes = s.nOutgoingBytes) (hwrites : s'.writes = s.writes)
    (houtgoing : t'.counted = t.counted) (hpermit : t'.permit ≤ t.permit) :
    Counts options s' others [t'] where
  counts := by
    rw [hbytes, hwrites, List.flatMap_singleton, houtgoing]
    have hcounts := h.counts
    rw [List.flatMap_singleton] at hcounts
    exact hcounts
  budget := by
    have hbudget := h.budget
    rw [List.flatMap_singleton, permits, List.map_singleton, List.sum_singleton] at hbudget
    rw [hwrites, List.flatMap_singleton, houtgoing, permits, List.map_singleton, List.sum_singleton]
    omega

theorem Counts.done {others : List Thread} (h : Counts options s others [t]) (houtgoing : t.counted = []) :
    Counts options s others [] where
  counts := by
    have hcounts := h.counts
    rw [List.flatMap_singleton, houtgoing] at hcounts
    exact hcounts
  budget := by
    have hbudget := h.budget
    rw [List.flatMap_singleton, houtgoing] at hbudget
    rw [List.flatMap_nil, show permits [] = 0 from rfl]
    omega

theorem ofNat_sub (n m : Nat) : UInt32.ofNat (n + m) - UInt32.ofNat n = UInt32.ofNat m := by
  rw [UInt32.ofNat_add, UInt32.add_comm, UInt32.add_sub_cancel]

/-- **The bytes of a write that is done are subtracted.** -/
theorem Counts.subtract {t' : Thread} {others : List Thread} {nOrder : Nat} {aBuffer : Buffer}
    (h : Counts options s others [t]) (houtgoing : t.counted = [(nOrder, aBuffer)])
    (hnew : t'.counted = []) (hpermit : t'.permit = 0) :
    Counts options { s with nOutgoingBytes := s.nOutgoingBytes - dwTotalBytes aBuffer } others [t'] where
  counts := by
    have hcounts := h.counts
    rw [List.flatMap_singleton, houtgoing, sizeOf_singleton] at hcounts
    show s.nOutgoingBytes - dwTotalBytes aBuffer = _
    rw [hcounts, dwTotalBytes, ofNat_sub, List.flatMap_singleton, hnew]
    exact congrArg UInt32.ofNat (Nat.zero_add _).symm
  budget := by
    have hbudget := h.budget
    show sizeOf _ + sizeOf (s.writes ++ _) + _ ≤ _
    rw [List.flatMap_singleton, hnew, show sizeOf [] = 0 from rfl, permits, List.map_singleton,
      List.sum_singleton, hpermit]
    omega

/-- **Every step of a thread keeps the count.** -/
theorem Bytes.counts_exec {bPending : Bool} (h : Bytes options s) (hth : s.threads = l ++ t :: r) :
    Counts options (exec options bPending s t).1 (l ++ r) (exec options bPending s t).2.toList := by
  have hc := h.counts_of hth
  cases t with
  | writeRequest lpPacket => exact hc.congr rfl rfl rfl (Nat.le_refl _)
  | write nOrder aBuffer => exact hc.subtract rfl rfl rfl
  | read lpPacket => exact hc.congr rfl rfl rfl (Nat.le_refl _)
  | readPaused =>
    rw [exec]
    split
    · exact hc.done rfl
    · exact hc.congr rfl rfl rfl (Nat.le_refl _)
  | incoming =>
    rw [exec]
    split <;> exact hc.congr rfl rfl rfl (Nat.le_refl _)
  | receive lpPacket => exact hc.congr rfl rfl rfl (Nat.le_refl _)
  | incomingNext => exact hc.congr rfl rfl rfl (Nat.le_refl _)
  | outgoing =>
    rw [exec]
    split
    · exact hc.done rfl
    · exact hc.congr rfl rfl rfl (Nat.le_refl _)
  | outgoingBytes =>
    rw [exec]
    split
    · rename_i hlt
      exact h.counts_permit hth hlt rfl rfl
    · exact hc.done rfl
  | outgoingPacket =>
    rw [exec]
    split
    · exact hc.done rfl
    · rename_i lpPacket cList hdequeue
      obtain ⟨nOrder, body⟩ := lpPacket
      cases body with
      | data aBuffer => exact hc.congr rfl rfl rfl (Nat.le_refl _)
      | stream lpLinkedPacket lpStream => exact hc.congr rfl rfl rfl (Nat.zero_le _)
      | afterWriteSignal => exact hc.congr rfl rfl rfl (Nat.zero_le _)
  | signal nOrder =>
    rw [exec]
    split <;> exact hc.congr rfl rfl rfl (Nat.le_refl _)
  | signalInvoke nOrder => exact hc.congr rfl rfl rfl (Nat.le_refl _)
  | signalRequeue nOrder => exact hc.congr rfl rfl rfl (Nat.le_refl _)
  | signalBytes =>
    rw [exec]
    split
    · exact hc.done rfl
    · exact hc.congr rfl rfl rfl (Nat.le_refl _)
  | stream nOrder lpNewPacket lpStream =>
    rw [exec]
    split
    · rename_i hlt
      exact h.counts_permit hth hlt rfl rfl
    · exact hc.congr rfl rfl rfl (Nat.le_refl _)
  | streamRead nOrder lpNewPacket lpStream =>
    cases lpNewPacket with
    | some lpNewPacket => exact hc.congr rfl rfl rfl (Nat.le_refl _)
    | none =>
      cases lpStream with
      | nil => exact hc.congr rfl rfl rfl (Nat.zero_le _)
      | cons lpNewPacket lpStream => exact hc.congr rfl rfl rfl (Nat.le_refl _)
  | streamRequeue nOrder lpNewPacket lpStream => exact hc.congr rfl rfl rfl (Nat.le_refl _)
  | outgoingNext => exact hc.congr rfl rfl rfl (Nat.le_refl _)
  | doWrite nOrder aBuffer lpStream =>
    have hcounts := hc.counts
    have hbudget := hc.budget
    refine ⟨?_, ?_⟩
    · show s.nOutgoingBytes + dwTotalBytes aBuffer = UInt32.ofNat (sizeOf [(nOrder, aBuffer)] + sizeOf _)
      rw [hcounts, sizeOf_singleton, UInt32.ofNat_add aBuffer.1.length, UInt32.add_comm, dwTotalBytes]
      exact congrArg (UInt32.ofNat aBuffer.1.length + UInt32.ofNat ·) (Nat.zero_add _)
    · have hsize := aBuffer.2.2
      have hold : 0 + sizeOf (s.writes ++ (l ++ r).flatMap Thread.counted) + 32768 * (1 + permits (l ++ r)) ≤
          options.dwMaxOutgoingBytes + 32768 * options.nThreads := hbudget
      show sizeOf [(nOrder, aBuffer)] + sizeOf (s.writes ++ _) + 32768 * (0 + permits (l ++ r)) ≤ _
      rw [sizeOf_singleton]
      omega
  | sendWritePacket nOrder aBuffer lpStream =>
    rw [exec]
    split
    · -- the write is in progress, and still counted
      have hsize : sizeOf (s.writes ++ [(nOrder, aBuffer)] ++ (l ++ r).flatMap Thread.counted) =
          sizeOf [(nOrder, aBuffer)] + sizeOf (s.writes ++ (l ++ r).flatMap Thread.counted) := by
        simp only [sizeOf_append]
        omega
      have hnew : (afterDoWrite nOrder lpStream).counted = [] ∧ (afterDoWrite nOrder lpStream).permit = 0 := by
        cases lpStream <;> exact ⟨rfl, rfl⟩
      refine ⟨?_, ?_⟩
      · show s.nOutgoingBytes = UInt32.ofNat (sizeOf ([afterDoWrite nOrder lpStream].flatMap _) + sizeOf (_ ++ _))
        rw [List.flatMap_singleton, hnew.1, hsize, hc.counts]
        exact congrArg UInt32.ofNat (Nat.zero_add _).symm
      · show sizeOf ([afterDoWrite nOrder lpStream].flatMap _) + sizeOf (_ ++ _) +
          32768 * (permits [afterDoWrite nOrder lpStream] + _) ≤ _
        rw [List.flatMap_singleton, hnew.1, hsize, permits, List.map_singleton, List.sum_singleton, hnew.2]
        have hbudget := hc.budget
        rw [show sizeOf [] = 0 from rfl, Nat.zero_add]
        exact hbudget
    · exact hc.congr rfl rfl rfl (Nat.le_refl _)
  | written nOrder aBuffer lpStream =>
    cases lpStream <;> exact hc.subtract rfl rfl rfl

/-- A thread of the pool goes on. -/
theorem Bytes.thread {i : Nat} {bPending : Bool} (h : Bytes options s)
    (hstep : next options s (.thread i bPending) = some s') : Bytes options s' := by
  obtain ⟨l, t, r, hth, rfl⟩ := next_thread hstep
  have hcounts : Counts options (exec options bPending s t).1 _ _ := h.counts_exec hth
  have hlen := h.threads_le
  rw [hth, List.length_append, List.length_cons] at hlen
  generalize exec options bPending s t = x at hcounts
  obtain ⟨s₁, t'⟩ := x
  refine ⟨?_, ?_, ?_⟩
  · show (l ++ (t'.toList ++ r)).length ≤ _
    have hone : t'.toList.length ≤ 1 := by cases t' <;> simp
    rw [List.length_append, List.length_append]
    omega
  · show s₁.nOutgoingBytes = UInt32.ofNat (sizeOf (s₁.writes ++ _))
    rw [sizeOf_counted]
    exact hcounts.counts
  · show sizeOf (s₁.writes ++ _) + 32768 * permits (l ++ (t'.toList ++ r)) ≤ _
    rw [sizeOf_counted, permits_split]
    exact hcounts.budget

/-- A step that leaves the writes and the counter alone. -/
theorem Bytes.congr (h : Bytes options s) (hbytes : s'.nOutgoingBytes = s.nOutgoingBytes)
    (hwrites : s'.writes = s.writes) (hthreads : s'.threads = s.threads) : Bytes options s' := by
  have hcounted : s'.counted = s.counted := by rw [Connection.counted, hwrites, hthreads, Connection.counted]
  refine ⟨hthreads ▸ h.threads_le, ?_, ?_⟩
  · rw [hbytes, hcounted]
    exact h.counts
  · rw [hcounted, hthreads]
    exact h.budget

/-- A thread that has nothing to do with writes joins the others. -/
theorem Bytes.dispatch (h : Bytes options s) (hcounted : t.counted = []) (hpermit : t.permit = 0)
    (hstep : Ipc.dispatch options s t = some s') : Bytes options s' := by
  obtain ⟨hlt, rfl⟩ := dispatch_eq_some hstep
  have hsame : s.writes ++ (s.threads ++ [t]).flatMap Thread.counted = s.counted := by
    rw [List.flatMap_append, List.flatMap_singleton, hcounted, List.append_nil, Connection.counted]
  have hpermits : permits (s.threads ++ [t]) = permits s.threads := by
    rw [permits_append, show permits [t] = t.permit by rw [permits, List.map_singleton, List.sum_singleton],
      hpermit, Nat.add_zero]
  refine ⟨?_, ?_, ?_⟩
  · show (s.threads ++ [t]).length ≤ _
    rw [List.length_append, List.length_singleton]
    exact hlt
  · show s.nOutgoingBytes = UInt32.ofNat (sizeOf (s.writes ++ (s.threads ++ [t]).flatMap Thread.counted))
    rw [hsame]
    exact h.counts
  · show sizeOf (s.writes ++ (s.threads ++ [t]).flatMap Thread.counted) + 32768 * permits (s.threads ++ [t]) ≤ _
    rw [hsame, hpermits]
    exact h.budget

/-- A write that has completed is still counted. -/
theorem Bytes.dispatchWrite {i : Nat} (h : Bytes options s)
    (hstep : next options s (.dispatchWrite i) = some s') : Bytes options s' := by
  rw [next, Option.bind_eq_some_iff] at hstep
  obtain ⟨⟨nOrder, aBuffer⟩, hget, hstep⟩ := hstep
  obtain ⟨hlt, rfl⟩ := dispatch_eq_some hstep
  obtain ⟨a, b, hsplit, herase, -⟩ := exists_append_of_getElem? hget
  have hsize : sizeOf (s.writes.eraseIdx i ++ (s.threads ++ [Thread.write nOrder aBuffer]).flatMap Thread.counted) =
      sizeOf s.counted := by
    have hone : (Thread.write nOrder aBuffer).counted = [(nOrder, aBuffer)] := rfl
    rw [herase, Connection.counted, hsplit, List.flatMap_append, List.flatMap_singleton, hone,
      ← List.singleton_append (l := b)]
    simp only [sizeOf_append]
    omega
  refine ⟨?_, ?_, ?_⟩
  · show (s.threads ++ [Thread.write nOrder aBuffer]).length ≤ _
    rw [List.length_append, List.length_singleton]
    exact hlt
  · show s.nOutgoingBytes = UInt32.ofNat (sizeOf (s.writes.eraseIdx i ++ _))
    rw [hsize]
    exact h.counts
  · show sizeOf (s.writes.eraseIdx i ++ _) + 32768 * permits (s.threads ++ [Thread.write nOrder aBuffer]) ≤ _
    rw [hsize, permits_append]
    exact h.budget

/-- The step of a call leaves the writes and the threads alone. -/
theorem execSender_rest (options : Options) (s : Connection) (lpSender : Sender) :
    (execSender options s lpSender).1.nOutgoingBytes = s.nOutgoingBytes ∧
      (execSender options s lpSender).1.writes = s.writes ∧
      (execSender options s lpSender).1.threads = s.threads ∧
      (execSender options s lpSender).1.history = s.history ∧
      (execSender options s lpSender).1.sPendingWritePackets = s.sPendingWritePackets ∧
      (execSender options s lpSender).1.nNextWriteOrderToProcess = s.nNextWriteOrderToProcess ∧
      (execSender options s lpSender).1.bOutputProcessingPaused = s.bOutputProcessingPaused ∧
      (execSender options s lpSender).1.resumes = s.resumes := by
  cases lpSender with
  | sendMsg lpData =>
    rw [execSender]
    split <;> exact ⟨rfl, rfl, rfl, rfl, rfl, rfl, rfl, rfl⟩
  | setOrder request => exact ⟨rfl, rfl, rfl, rfl, rfl, rfl, rfl, rfl⟩
  | post lpPacket lpData => exact ⟨rfl, rfl, rfl, rfl, rfl, rfl, rfl, rfl⟩

/-- **Every step keeps the count of the bytes.** -/
theorem Bytes.step {action : Action} (h : Bytes options s) (hstep : next options s action = some s') :
    Bytes options s' := by
  cases action with
  | sendMsg lpData =>
    rw [next] at hstep
    split at hstep
    · obtain rfl := Option.some.inj hstep
      exact h
    · obtain rfl := Option.some.inj hstep
      exact h.congr rfl rfl rfl
  | sendStream lpStream =>
    obtain rfl := Option.some.inj hstep
    exact h.congr rfl rfl rfl
  | afterWriteSignal =>
    obtain rfl := Option.some.inj hstep
    exact h.congr rfl rfl rfl
  | sender i =>
    obtain ⟨l, lpSender, r, -, rfl⟩ := next_sender hstep
    obtain ⟨hbytes, hwrites, hthreads, -⟩ := execSender_rest options s lpSender
    exact h.congr hbytes hwrites hthreads
  | dispatchWriteRequest i =>
    rw [next, Option.bind_eq_some_iff] at hstep
    obtain ⟨lpPacket, -, hstep⟩ := hstep
    have hrequests : Bytes options { s with writeRequests := s.writeRequests.eraseIdx i } :=
      h.congr rfl rfl rfl
    exact hrequests.dispatch rfl rfl hstep
  | dispatchWrite i => exact h.dispatchWrite hstep
  | dispatchRead i aBuffer =>
    rw [next, Option.bind_eq_some_iff] at hstep
    obtain ⟨nOrder, -, hstep⟩ := hstep
    split at hstep
    · cases hstep
    · have hreads : Bytes options
          { s with
            reads := s.reads.eraseIdx i
            arrived := s.arrived ++ [⟨nOrder, aBuffer⟩] } := h.congr rfl rfl rfl
      exact hreads.dispatch rfl rfl hstep
  | dispatchResume i =>
    rw [next, Option.bind_eq_some_iff] at hstep
    obtain ⟨bIsRead, -, hstep⟩ := hstep
    have hresumes : Bytes options { s with resumes := s.resumes.eraseIdx i } := h.congr rfl rfl rfl
    cases bIsRead with
    | true => exact hresumes.dispatch rfl rfl hstep
    | false => exact hresumes.dispatch rfl rfl hstep
  | thread i bPending => exact h.thread hstep
  | doRead | pauseOutputProcessing | pauseInputProcessing =>
    obtain rfl := Option.some.inj hstep
    exact h.congr rfl rfl rfl
  | resumeOutputProcessing | resumeInputProcessing =>
    rw [next] at hstep
    split at hstep
    · obtain rfl := Option.some.inj hstep
      exact h.congr rfl rfl rfl
    · obtain rfl := Option.some.inj hstep
      exact h

end Step

end MxLib.Ipc
