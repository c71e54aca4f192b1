import Mathlib.Logic.Function.Basic
import MxLib.Library.Stream

/-!
# States that are read cell by cell

`read s k` is what the cell `k` of the state `s` holds.  Where a step writes one cell and
leaves the others (`Writes`), a cell that no item of a stream names holds what it held
(`read_feed_of_ne`), and one that is named holds what the last item that names it wrote
(`read_feed_of_last`).
-/

namespace MxLib.Library.Cells

open MxLib.Library.Stream

variable {σ β ε κ ν : Type*} [DecidableEq κ]

/-- A step with the item `b` writes the cell of `b`, and no other one. -/
def Writes (step : σ → β → Except ε σ) (read : σ → κ → ν) (cell : β → κ) (value : σ → β → ν)
    (b : β) : Prop :=
  ∀ s t, step s b = .ok t → read t = Function.update (read s) (cell b) (value s b)

variable {step : σ → β → Except ε σ} {read : σ → κ → ν} {cell : β → κ} {value : σ → β → ν}

theorem read_step_of_ne {s t : σ} {b : β} {k : κ} (hb : Writes step read cell value b)
    (hk : cell b ≠ k) (h : step s b = .ok t) : read t k = read s k := by
  rw [hb s t h, Function.update_of_ne (Ne.symm hk)]

theorem read_step_self {s t : σ} {b : β} (hb : Writes step read cell value b)
    (h : step s b = .ok t) : read t (cell b) = value s b := by
  rw [hb s t h, Function.update_self]

/-- **A cell that no item names keeps what it holds.** -/
theorem read_feed_of_ne {s t : σ} {l : List β} {k : κ}
    (hl : ∀ b ∈ l, Writes step read cell value b) (hk : ∀ b ∈ l, cell b ≠ k)
    (h : feed step s l = .ok t) : read t k = read s k := by
  induction l generalizing s with
  | nil =>
    obtain rfl := Except.ok.inj h
    rfl
  | cons b l ih =>
    obtain ⟨u, hu, hrest⟩ := exists_feed_of_append (l := [b]) h
    rw [feed_singleton] at hu
    have htail : read t k = read u k :=
      ih (fun c hc => hl c (List.mem_cons_of_mem b hc))
        (fun c hc => hk c (List.mem_cons_of_mem b hc)) hrest
    rw [htail, read_step_of_ne (hl b List.mem_cons_self) (hk b List.mem_cons_self) hu]

/-- **A cell holds what the last item that names it wrote.** -/
theorem read_feed_of_last {s t : σ} {pre post : List β} {b : β}
    (hl : ∀ c ∈ b :: post, Writes step read cell value c) (hpost : ∀ c ∈ post, cell c ≠ cell b)
    (h : feed step s (pre ++ b :: post) = .ok t) :
    ∃ u, feed step s pre = .ok u ∧ read t (cell b) = value u b := by
  obtain ⟨u, hu, hrest⟩ := exists_feed_of_append h
  obtain ⟨v, hv, hpostv⟩ := exists_feed_of_append (l := [b]) hrest
  rw [feed_singleton] at hv
  refine ⟨u, hu, ?_⟩
  rw [read_feed_of_ne (fun c hc => hl c (List.mem_cons_of_mem b hc)) hpost hpostv,
    read_step_self (hl b List.mem_cons_self) hv]

end MxLib.Library.Cells
