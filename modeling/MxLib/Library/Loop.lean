import Mathlib.Algebra.Order.Ring.Nat
import Mathlib.Data.Nat.Find
import Mathlib.Logic.Relation

/-!
# Loops with an explicit number of turns

A `while` loop is a body that either asks for another turn in a new state or
leaves with a result.  `run body n s` makes at most `n` turns.  A run is
determined by its body (`run_mono`, `run_unique`), so a loop **terminates** when
some number of turns is enough, and it has at most one result.

* `exists_run_of_measure`: a measure that drops on every turn bounds the turns.
* `not_terminates_of_invariant`: turns that never leave a set of states go on forever.
* `exists_turns_at`: how often the turns of a loop are at one position.
* `run_induct`: an invariant of the turns holds when the loop is left.
* `exec_inl`, `exec_inr`: a loop whose turns drop a measure is a total function.
-/

namespace MxLib.Library.Loop

variable {σ ρ : Type*}

/-- At most `n` turns of the loop with the given body, from `s`. -/
def run (body : σ → σ ⊕ ρ) : Nat → σ → Option ρ
  | 0, _ => none
  | n + 1, s =>
    match body s with
    | .inl t => run body n t
    | .inr r => some r

/-- Some number of turns is enough to leave the loop. -/
def Terminates (body : σ → σ ⊕ ρ) (s : σ) : Prop := ∃ n r, run body n s = some r

/-- One turn of the loop leads from `s` to `t`. -/
def Turn (body : σ → σ ⊕ ρ) (s t : σ) : Prop := body s = .inl t

/-- `t` is reached from `s` after any number of turns. -/
def Reach (body : σ → σ ⊕ ρ) : σ → σ → Prop := Relation.ReflTransGen (Turn body)

/-- The state after exactly `n` turns, if the loop makes that many. -/
def turns (body : σ → σ ⊕ ρ) : Nat → σ → Option σ
  | 0, s => some s
  | n + 1, s =>
    match body s with
    | .inl t => turns body n t
    | .inr _ => none

variable {body : σ → σ ⊕ ρ}

theorem reach_of_turns : ∀ {n : Nat} {s t : σ}, turns body n s = some t → Reach body s t := by
  intro n
  induction n with
  | zero =>
    intro s t h
    obtain rfl := Option.some.inj h
    exact Relation.ReflTransGen.refl
  | succ n ih =>
    intro s t h
    cases hb : body s with
    | inl u => rw [turns, hb] at h; exact Relation.ReflTransGen.head hb (ih h)
    | inr r => rw [turns, hb] at h; cases h

theorem turns_succ_eq_some_iff : ∀ {n : Nat} {s u : σ},
    turns body (n + 1) s = some u ↔ ∃ t, turns body n s = some t ∧ body t = .inl u := by
  intro n
  induction n with
  | zero =>
    intro s u
    rw [turns]
    cases hb : body s with
    | inl t => simp [turns, hb]
    | inr r => simp [turns, hb]
  | succ n ih =>
    intro s u
    rw [turns]
    cases hb : body s with
    | inl t =>
      dsimp only
      rw [ih, turns, hb]
    | inr r => simp [turns, hb]

section Position

variable {pos : σ → Nat} (hmono : ∀ s t, body s = .inl t → pos s ≤ pos t)
include hmono

theorem pos_le_of_turns {s t u : σ} {i : Nat} (hi : turns body i s = some t) :
    ∀ {k : Nat}, turns body (i + k) s = some u → pos t ≤ pos u := by
  intro k
  induction k generalizing u with
  | zero =>
    intro hu
    rw [Nat.add_zero, hi] at hu
    obtain rfl := Option.some.inj hu
    exact Nat.le_refl _
  | succ k ih =>
    intro hu
    obtain ⟨v, hv, hb⟩ := turns_succ_eq_some_iff.mp hu
    exact Nat.le_trans (ih hv) (hmono v u hb)

/-- **A position that two turns leave behind is that of two turns at most**, one right
after the other. -/
theorem exists_turns_at (hstrict : ∀ s t u, body s = .inl t → body t = .inl u → pos s < pos u)
    (s : σ) (k : Nat) :
    ∃ i, ∀ j t, turns body j s = some t → pos t = k → j = i ∨ j = i + 1 := by
  classical
  by_cases hex : ∃ i t, turns body i s = some t ∧ pos t = k
  · obtain ⟨t, hi, hpos⟩ := Nat.find_spec hex
    refine ⟨Nat.find hex, fun j u hj hu => ?_⟩
    have hle : Nat.find hex ≤ j := Nat.find_min' hex ⟨u, hj, hu⟩
    by_contra hnot
    obtain ⟨m, rfl⟩ : ∃ m, j = Nat.find hex + 2 + m := ⟨j - (Nat.find hex + 2), by omega⟩
    -- the position after two turns is already behind `k`
    have hsome : ∀ {m v}, turns body (Nat.find hex + 2 + m) s = some v →
        ∃ w, turns body (Nat.find hex + 2) s = some w := by
      intro m
      induction m with
      | zero => exact fun h => ⟨_, h⟩
      | succ m ih =>
        intro v h
        obtain ⟨w, hw, -⟩ := turns_succ_eq_some_iff.mp h
        exact ih hw
    obtain ⟨w, hw⟩ := hsome hj
    obtain ⟨v, hv, hbw⟩ := turns_succ_eq_some_iff.mp hw
    obtain ⟨t', ht', hbv⟩ := turns_succ_eq_some_iff.mp hv
    obtain rfl := Option.some.inj (hi.symm.trans ht')
    have hlt := hstrict _ _ _ hbv hbw
    have hge := pos_le_of_turns hmono hw hj
    omega
  · exact ⟨0, fun j t hj ht => absurd ⟨j, t, hj, ht⟩ hex⟩

end Position

@[simp] theorem run_zero (s : σ) : run body 0 s = none := rfl

theorem run_succ_inl {s t : σ} (h : body s = .inl t) (n : Nat) :
    run body (n + 1) s = run body n t := by
  rw [run, h]

theorem run_succ_inr {s : σ} {r : ρ} (h : body s = .inr r) (n : Nat) :
    run body (n + 1) s = some r := by
  rw [run, h]

theorem run_mono : ∀ {n m : Nat} {s : σ} {r : ρ}, run body n s = some r → n ≤ m →
    run body m s = some r := by
  intro n
  induction n with
  | zero => intro m s r h _; simp at h
  | succ n ih =>
    intro m s r h hm
    obtain ⟨m, rfl⟩ : ∃ k, m = k + 1 := ⟨m - 1, by omega⟩
    cases hb : body s with
    | inl t =>
      rw [run_succ_inl hb] at h ⊢
      exact ih h (by omega)
    | inr q => rw [run_succ_inr hb] at h ⊢; exact h

/-- **A loop has at most one result**, whatever the number of turns allowed. -/
theorem run_unique {n m : Nat} {s : σ} {q r : ρ} (hq : run body n s = some q)
    (hr : run body m s = some r) : q = r := by
  have hq' := run_mono hq (Nat.le_max_left n m)
  have hr' := run_mono hr (Nat.le_max_right n m)
  exact Option.some.inj (hq'.symm.trans hr')

/-- **Turns that never leave an invariant set of states go on forever.** -/
theorem not_terminates_of_invariant (Inv : σ → Prop)
    (hturn : ∀ s, Inv s → ∃ t, body s = .inl t ∧ Inv t) {s : σ} (hs : Inv s) :
    ¬ Terminates body s := by
  rintro ⟨n, r, hr⟩
  induction n generalizing s with
  | zero => simp at hr
  | succ n ih =>
    obtain ⟨t, hb, ht⟩ := hturn s hs
    rw [run_succ_inl hb] at hr
    exact ih ht hr

/-- **A measure that drops on every turn bounds the number of turns**, from any
state of an invariant the turns keep. -/
theorem exists_run_of_measure (Inv : σ → Prop) (m : σ → Nat)
    (hturn : ∀ s t, Inv s → body s = .inl t → Inv t ∧ m t < m s) :
    ∀ (n : Nat) (s : σ), Inv s → m s < n → ∃ r, run body n s = some r := by
  intro n
  induction n with
  | zero => intro s _ h; omega
  | succ n ih =>
    intro s hs hm
    cases hb : body s with
    | inl t =>
      obtain ⟨ht, hlt⟩ := hturn s t hs hb
      rw [run_succ_inl hb]
      exact ih t ht (by omega)
    | inr r => exact ⟨r, run_succ_inr hb n⟩

theorem terminates_of_measure (m : σ → Nat) (hturn : ∀ s t, body s = .inl t → m t < m s)
    (s : σ) : Terminates body s := by
  obtain ⟨r, hr⟩ := exists_run_of_measure (fun _ => True) m
    (fun s t _ h => ⟨trivial, hturn s t h⟩) (m s + 1) s trivial (Nat.lt_succ_self _)
  exact ⟨m s + 1, r, hr⟩

/-- **An invariant of the turns holds when the loop is left.** -/
theorem run_induct (Inv : σ → Prop) (Post : ρ → Prop)
    (hturn : ∀ s t, Inv s → body s = .inl t → Inv t)
    (hleave : ∀ s r, Inv s → body s = .inr r → Post r) :
    ∀ {n : Nat} {s : σ} {r : ρ}, Inv s → run body n s = some r → Post r := by
  intro n
  induction n with
  | zero => intro s r _ h; simp at h
  | succ n ih =>
    intro s r hs h
    cases hb : body s with
    | inl t => rw [run_succ_inl hb] at h; exact ih (hturn s t hs hb) h
    | inr q =>
      rw [run_succ_inr hb] at h
      obtain rfl := Option.some.inj h
      exact hleave s q hs hb

/-! ### Total loops -/

/-- The result of a loop whose turns drop the measure `m`; `dflt` is never used then. -/
def exec (body : σ → σ ⊕ ρ) (m : σ → Nat) (dflt : ρ) (s : σ) : ρ :=
  (run body (m s + 1) s).getD dflt

theorem exec_inr {m : σ → Nat} (dflt : ρ) {s : σ} {r : ρ} (h : body s = .inr r) :
    exec body m dflt s = r := by
  rw [exec, run_succ_inr h, Option.getD_some]

section Exec

variable {Inv : σ → Prop} {m : σ → Nat}
  (hm : ∀ s t, Inv s → body s = .inl t → Inv t ∧ m t < m s) (dflt : ρ)
include hm

/-- **A total loop is run to its end**, from any state of an invariant its turns keep. -/
theorem run_exec_of {s : σ} (hs : Inv s) : run body (m s + 1) s = some (exec body m dflt s) := by
  obtain ⟨r, hr⟩ := exists_run_of_measure Inv m hm (m s + 1) s hs (Nat.lt_succ_self _)
  rw [exec, hr, Option.getD_some]

theorem exec_eq_of_run_of {n : Nat} {s : σ} {r : ρ} (hs : Inv s) (h : run body n s = some r) :
    exec body m dflt s = r :=
  run_unique (run_exec_of hm dflt hs) h

theorem exec_inl_of {s t : σ} (hs : Inv s) (h : body s = .inl t) :
    exec body m dflt s = exec body m dflt t :=
  exec_eq_of_run_of hm dflt hs ((run_succ_inl h _).trans (run_exec_of hm dflt (hm s t hs h).1))

theorem exec_dflt_of (dflt' : ρ) {s : σ} (hs : Inv s) :
    exec body m dflt s = exec body m dflt' s :=
  exec_eq_of_run_of hm dflt hs (run_exec_of hm dflt' hs)

end Exec

section ExecTotal

variable {m : σ → Nat} (hm : ∀ s t, body s = .inl t → m t < m s) (dflt : ρ)
include hm

theorem run_exec (s : σ) : run body (m s + 1) s = some (exec body m dflt s) :=
  run_exec_of (fun s t (_ : True) hb => ⟨trivial, hm s t hb⟩) dflt trivial

theorem exec_inl {s t : σ} (h : body s = .inl t) :
    exec body m dflt s = exec body m dflt t :=
  exec_inl_of (fun s t (_ : True) hb => ⟨trivial, hm s t hb⟩) dflt trivial h

theorem exec_dflt (dflt' : ρ) (s : σ) : exec body m dflt s = exec body m dflt' s :=
  exec_dflt_of (fun s t (_ : True) hb => ⟨trivial, hm s t hb⟩) dflt dflt' trivial

theorem exec_of_reach {s t : σ} (h : Reach body s t) :
    exec body m dflt s = exec body m dflt t := by
  induction h with
  | refl => rfl
  | tail _ hb ih => exact ih.trans (exec_inl hm dflt hb)

/-- A total loop is left somewhere, with the result of `exec`. -/
theorem exists_reach_exec (s : σ) : ∃ t, Reach body s t ∧ body t = .inr (exec body m dflt s) := by
  generalize hk : m s = k
  induction k using Nat.strongRecOn generalizing s with
  | ind k ih =>
    cases hb : body s with
    | inl t =>
      obtain ⟨u, hu, hr⟩ := ih (m t) (hk ▸ hm s t hb) t rfl
      exact ⟨u, Relation.ReflTransGen.head hb hu, by rw [hr, exec_inl hm dflt hb]⟩
    | inr r => exact ⟨s, Relation.ReflTransGen.refl, by rw [hb, exec_inr dflt hb]⟩

end ExecTotal

theorem reach_induct (Inv : σ → Prop) (hturn : ∀ s t, Inv s → body s = .inl t → Inv t)
    {s t : σ} (hs : Inv s) (h : Reach body s t) : Inv t := by
  induction h with
  | refl => exact hs
  | tail _ hb ih => exact hturn _ _ ih hb

end MxLib.Library.Loop
