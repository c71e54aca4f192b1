import MxLib.Comm.IpcIncoming
import MxLib.Comm.IpcSignals

/-!
# Ordered transport

Whatever the order in which the calls, the handlers and the completions take their steps: what was
passed on is a beginning of what the packets stand for in the order in which they were numbered, a
callback is invoked when all before it has completed, no packet is forgotten, and what was received
are the packets of the reads in the order in which they were posted.
-/

namespace MxLib.Ipc

open MxLib.Library

/-- The output is paused, or the packet of the call that resumes it was not dispatched yet. -/
def Connection.OutputPaused (s : Connection) : Prop := s.bOutputProcessingPaused = true ∨ false ∈ s.resumes

/-- What every step keeps. -/
structure Invariant (options : Options) (s : Connection) : Prop where
  outgoing : ∃ f queue, Outgoing s f queue
  bytes : Bytes options s
  recorded : Recorded s
  awake : Awake s
  incoming : ∃ g, Incoming s g

section Run

variable {options : Options} {s s' : Connection}

theorem Invariant.init (options : Options) : Invariant options {} :=
  ⟨⟨0, [], Outgoing.init⟩, Bytes.init options, Recorded.init, Awake.init, ⟨0, Incoming.init⟩⟩

theorem Invariant.step {action : Action} (h : Invariant options s) (hstep : next options s action = some s')
    (hsent : s'.sent.length < ulong) (hreads : s'.nReads < ulong) : Invariant options s' := by
  obtain ⟨f, queue, hout⟩ := h.outgoing
  obtain ⟨g, hin⟩ := h.incoming
  exact ⟨hout.step hstep hsent, h.bytes.step hstep, h.recorded.step hout h.bytes hstep,
    h.awake.step hout h.bytes hstep, hin.step hstep hreads⟩

/-- Neither packets nor reads become fewer. -/
theorem next_mono {action : Action} (hstep : next options s action = some s') :
    s.sent.length ≤ s'.sent.length ∧ s.nReads ≤ s'.nReads := by
  cases action with
  | sender i =>
    obtain ⟨l, lpSender, r, -, rfl⟩ := next_sender hstep
    cases lpSender with
    | sendMsg lpData =>
      rw [execSender]
      split
      · exact ⟨Nat.le_refl _, Nat.le_refl _⟩
      · refine ⟨?_, Nat.le_refl _⟩
        show s.sent.length ≤ (s.sent ++ [_]).length
        rw [List.length_append]
        exact Nat.le_add_right _ _
    | setOrder request =>
      refine ⟨?_, Nat.le_refl _⟩
      show s.sent.length ≤ (s.sent ++ [request]).length
      rw [List.length_append]
      exact Nat.le_add_right _ _
    | post lpPacket lpData => exact ⟨Nat.le_refl _, Nat.le_refl _⟩
  | thread i bPending =>
    obtain ⟨l, t, r, -, rfl⟩ := next_thread hstep
    have hsent := (exec_rest options bPending s t).1
    have hreads : (exec options bPending s t).1.nReads = s.nReads := by
      cases hincoming : t.isIncoming with
      | false => exact (exec_sameReads options bPending s hincoming).1.nReads
      | true =>
        cases t with
        | incoming =>
          rw [exec]
          split <;> rfl
        | read | receive | incomingNext => rfl
        | _ => cases hincoming
    exact ⟨(congrArg List.length hsent).ge, hreads.ge⟩
  | dispatchWriteRequest i =>
    rw [next, Option.bind_eq_some_iff] at hstep
    obtain ⟨lpPacket, -, hstep⟩ := hstep
    obtain ⟨-, rfl⟩ := dispatch_eq_some hstep
    exact ⟨Nat.le_refl _, Nat.le_refl _⟩
  | dispatchWrite i =>
    rw [next, Option.bind_eq_some_iff] at hstep
    obtain ⟨⟨nOrder, aBuffer⟩, -, hstep⟩ := hstep
    obtain ⟨-, rfl⟩ := dispatch_eq_some hstep
    exact ⟨Nat.le_refl _, Nat.le_refl _⟩
  | dispatchRead i aBuffer =>
    rw [next, Option.bind_eq_some_iff] at hstep
    obtain ⟨nOrder, -, hstep⟩ := hstep
    split at hstep
    · cases hstep
    · obtain ⟨-, rfl⟩ := dispatch_eq_some hstep
      exact ⟨Nat.le_refl _, Nat.le_refl _⟩
  | dispatchResume i =>
    rw [next, Option.bind_eq_some_iff] at hstep
    obtain ⟨bIsRead, -, hstep⟩ := hstep
    obtain ⟨-, rfl⟩ := dispatch_eq_some hstep
    exact ⟨Nat.le_refl _, Nat.le_refl _⟩
  | sendMsg | resumeOutputProcessing | resumeInputProcessing =>
    rw [next] at hstep
    split at hstep <;> obtain rfl := Option.some.inj hstep <;> exact ⟨Nat.le_refl _, Nat.le_refl _⟩
  | doRead =>
    obtain rfl := Option.some.inj hstep
    exact ⟨Nat.le_refl _, Nat.le_succ _⟩
  | sendStream | afterWriteSignal | pauseOutputProcessing | pauseInputProcessing =>
    obtain rfl := Option.some.inj hstep
    exact ⟨Nat.le_refl _, Nat.le_refl _⟩

/-- The invariant holds after every run with fewer than 2^32 packets and reads. -/
theorem Invariant.run {actions : List Action} (h : Ipc.run options {} actions = some s)
    (hsent : s.sent.length < ulong) (hreads : s.nReads < ulong) : Invariant options s := by
  have hall : s.sent.length < ulong → s.nReads < ulong → Invariant options s := by
    refine run_induct (P := fun s => s.sent.length < ulong → s.nReads < ulong → Invariant options s)
      (fun s action s' ih hstep hsent hreads => ?_) h fun _ _ => Invariant.init options
    obtain ⟨hle, hle'⟩ := next_mono hstep
    exact (ih (hle.trans_lt hsent) (hle'.trans_lt hreads)).step hstep hsent hreads
  exact hall hsent hreads

end Run

section Resume

variable {options : Options} {s s' : Connection}

/-- Whether a call resumes the input or the output. -/
def Action.resumes : Action → Bool
  | .resumeOutputProcessing | .resumeInputProcessing => true
  | _ => false

theorem next_resumes {action : Action} (haction : action.resumes = false) (hs : s.resumes = [])
    (hstep : next options s action = some s') : s'.resumes = [] := by
  cases action with
  | sender i =>
    obtain ⟨l, lpSender, r, -, rfl⟩ := next_sender hstep
    obtain ⟨-, -, -, -, -, -, -, hsame⟩ := execSender_rest options s lpSender
    exact hsame.trans hs
  | thread i bPending =>
    obtain ⟨l, t, r, -, rfl⟩ := next_thread hstep
    exact (exec_paused options bPending s t).2.trans hs
  | dispatchWriteRequest i | dispatchWrite i =>
    rw [next, Option.bind_eq_some_iff] at hstep
    obtain ⟨x, -, hstep⟩ := hstep
    obtain ⟨-, rfl⟩ := dispatch_eq_some hstep
    exact hs
  | dispatchRead i aBuffer =>
    rw [next, Option.bind_eq_some_iff] at hstep
    obtain ⟨nOrder, -, hstep⟩ := hstep
    split at hstep
    · cases hstep
    · obtain ⟨-, rfl⟩ := dispatch_eq_some hstep
      exact hs
  | dispatchResume i =>
    rw [next, hs] at hstep
    cases hstep
  | sendMsg lpData =>
    rw [next] at hstep
    split at hstep <;> obtain rfl := Option.some.inj hstep <;> exact hs
  | resumeOutputProcessing | resumeInputProcessing => cases haction
  | doRead | sendStream | afterWriteSignal | pauseOutputProcessing | pauseInputProcessing =>
    obtain rfl := Option.some.inj hstep
    exact hs

/-- As long as nobody calls to resume, the output is paused just when its flag is set. -/
theorem outputPaused_iff_of_run {actions : List Action} (h : Ipc.run options {} actions = some s)
    (hactions : ∀ action ∈ actions, action.resumes = false) :
    s.OutputPaused ↔ s.bOutputProcessingPaused = true := by
  have hall : ∀ (actions : List Action) (s₀ : Connection), s₀.resumes = [] →
      (∀ action ∈ actions, action.resumes = false) → Ipc.run options s₀ actions = some s → s.resumes = [] := by
    intro actions
    induction actions with
    | nil =>
      intro s₀ hs₀ _ h
      obtain rfl := Option.some.inj h
      exact hs₀
    | cons action actions ih =>
      intro s₀ hs₀ hactions h
      rw [Ipc.run, Option.bind_eq_some_iff] at h
      obtain ⟨s₁, hnext, hrest⟩ := h
      obtain ⟨haction, hactions⟩ := List.forall_mem_cons.mp hactions
      exact ih s₁ (next_resumes haction hs₀ hnext) hactions hrest
  rw [Connection.OutputPaused, hall actions {} rfl hactions h]
  exact or_iff_left List.not_mem_nil

end Resume

end MxLib.Ipc
