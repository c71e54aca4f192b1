import Mathlib.Algebra.Order.Ring.Nat
import Mathlib.Data.List.Perm.Basic
import Mathlib.Data.List.Range
import Mathlib.Data.Nat.ModEq

/-!
# Waiting in a line

What is sent is numbered from one on and waits in a line.  What is at the head of the
line is **passed on**, one event after the other, and makes room for what is behind
it; the line is **lossless** when what was passed on, and then what is left of those
that wait, is what all that was sent stands for (`Line`).

Who comes next is told by a counter that is moved on after the head has left, so for
a while the counter is behind; `Turn` is what the two have in common, and
`Turn.eq_first` says that whoever has the number of the counter is the head.
-/

namespace MxLib.Library

variable {α ε : Type*}

/-! ### The line -/

/-- The events of what waits, numbered from `n` on. -/
def transcript (events : Nat → α → List ε) (n : Nat) (queue : List α) : List ε :=
  (queue.zipIdx n).flatMap fun x => events x.2 x.1

/-- The first `f` that were sent have left, and the rest waits; from the one at the head
some events may be gone already. -/
structure Line (events : Nat → α → List ε) (sent : List α) (passed : List ε) (f : Nat)
    (queue : List α) : Prop where
  length_eq : f + queue.length = sent.length
  lossless : passed ++ transcript events (f + 1) queue = transcript events 1 sent

section Transcript

variable {events : Nat → α → List ε} {n : Nat} {sent queue : List α} {passed : List ε} {f : Nat}
  {x x' : α} {e : ε}

@[simp] theorem transcript_nil : transcript events n [] = [] := rfl

@[simp] theorem transcript_cons :
    transcript events n (x :: queue) = events n x ++ transcript events (n + 1) queue := by
  rw [transcript, List.zipIdx_cons, List.flatMap_cons, transcript]

theorem transcript_append (queue queue' : List α) :
    transcript events n (queue ++ queue') =
      transcript events n queue ++ transcript events (n + queue.length) queue' := by
  rw [transcript, List.zipIdx_append, List.flatMap_append, transcript, transcript]

theorem Line.nil : Line events [] [] 0 [] := ⟨rfl, rfl⟩

/-- What is sent goes to the end of the line. -/
theorem Line.send (h : Line events sent passed f queue) (x : α) :
    Line events (sent ++ [x]) passed f (queue ++ [x]) where
  length_eq := by
    rw [List.length_append, List.length_append, ← Nat.add_assoc, h.length_eq]
  lossless := by
    rw [transcript_append, transcript_append, ← List.append_assoc, h.lossless, ← h.length_eq]
    congr 2
    omega

/-- The head may become another one with the same events. -/
theorem Line.congr_head (h : Line events sent passed f (x :: queue))
    (hx : events (f + 1) x = events (f + 1) x') : Line events sent passed f (x' :: queue) where
  length_eq := h.length_eq
  lossless := by rw [← h.lossless, transcript_cons, transcript_cons, hx]

/-- An event of the head is passed on, and others are left of it. -/
theorem Line.pass (h : Line events sent passed f (x :: queue))
    (hx : events (f + 1) x = e :: events (f + 1) x') :
    Line events sent (passed ++ [e]) f (x' :: queue) where
  length_eq := h.length_eq
  lossless := by
    rw [← h.lossless, transcript_cons, transcript_cons, hx, List.append_assoc,
      List.singleton_append, List.cons_append]

/-- The last event of the head is passed on, and the head leaves. -/
theorem Line.leave (h : Line events sent passed f (x :: queue)) (hx : events (f + 1) x = [e]) :
    Line events sent (passed ++ [e]) (f + 1) queue where
  length_eq := by
    rw [← h.length_eq, List.length_cons]
    omega
  lossless := by
    rw [← h.lossless, transcript_cons, hx, List.append_assoc]

end Transcript

/-! ### Whose turn it is -/

/-- The numbers in `waiting` are those behind the first `f` up to `n`, each once; the
counter `next`, which wraps at `m`, is behind by `a`. -/
structure Turn (m f n a next : Nat) (waiting : List Nat) : Prop where
  perm : waiting.Perm (List.range' (f + 1) (n - f))
  le : f ≤ n
  lt : n < m
  next_eq : ∃ k, next = k % m ∧ k + a = f + 1

section Turn

variable {m f n a next : Nat} {waiting waiting' : List Nat}

theorem Turn.congr (h : Turn m f n a next waiting) (hperm : waiting'.Perm waiting) :
    Turn m f n a next waiting' := ⟨hperm.trans h.perm, h.le, h.lt, h.next_eq⟩

theorem Turn.mem_iff (h : Turn m f n a next waiting) {o : Nat} : o ∈ waiting ↔ f < o ∧ o ≤ n := by
  rw [h.perm.mem_iff, List.mem_range'_1]
  have := h.le
  omega

theorem Turn.nodup (h : Turn m f n a next waiting) : waiting.Nodup :=
  h.perm.nodup_iff.mpr List.nodup_range'

/-- **Whoever has the number of the counter is the head**, and the counter is not behind. -/
theorem Turn.eq_first (h : Turn m f n a next waiting) (hnext : next ∈ waiting) :
    a = 0 ∧ next = f + 1 := by
  obtain ⟨k, hk, hka⟩ := h.next_eq
  obtain ⟨hlo, hhi⟩ := h.mem_iff.mp hnext
  have hn := h.lt
  by_cases hkm : k < m
  · rw [Nat.mod_eq_of_lt hkm] at hk
    omega
  · have hkm : k = m := by omega
    rw [hkm, Nat.mod_self] at hk
    omega

/-- Another number joins at the end. -/
theorem Turn.send (h : Turn m f n a next waiting) (hlt : n + 1 < m) :
    Turn m f (n + 1) a next (waiting ++ [n + 1]) where
  perm := by
    have hlen : n + 1 - f = n - f + 1 := by
      have := h.le
      omega
    have hlast : f + 1 + 1 * (n - f) = n + 1 := by
      have := h.le
      omega
    rw [hlen, List.range'_concat, hlast]
    exact h.perm.append_right _
  le := by
    have := h.le
    omega
  lt := hlt
  next_eq := h.next_eq

/-- The head leaves before the counter is moved on. -/
theorem Turn.leave (h : Turn m f n a next (next :: waiting)) : Turn m (f + 1) n (a + 1) next waiting := by
  obtain ⟨ha, hnext⟩ := h.eq_first List.mem_cons_self
  have hle := (h.mem_iff.mp (List.mem_cons_self (a := next))).2
  refine ⟨?_, by omega, h.lt, ?_⟩
  · have hperm := h.perm
    rw [show n - f = n - (f + 1) + 1 by omega, List.range'_succ, hnext] at hperm
    exact hperm.cons_inv
  · obtain ⟨k, hk, hka⟩ := h.next_eq
    exact ⟨k, hk, by omega⟩

/-- The counter is moved on. -/
theorem Turn.advance (h : Turn m f n (a + 1) next waiting) : Turn m f n a ((next + 1) % m) waiting := by
  obtain ⟨k, hk, hka⟩ := h.next_eq
  refine ⟨h.perm, h.le, h.lt, k + 1, ?_, by omega⟩
  rw [hk, Nat.mod_add_mod]

/-- The first turn is that of the number one. -/
theorem Turn.nil (hm : 1 < m) : Turn m 0 0 0 1 [] :=
  ⟨.refl _, le_rfl, by omega, 1, (Nat.mod_eq_of_lt hm).symm, rfl⟩

end Turn

/-! ### One of many -/

/-- The element at `i` becomes another one, or is gone. -/
def replaceAt (l : List α) (i : Nat) : Option α → List α
  | some y => l.set i y
  | none => l.eraseIdx i

/-- An element of a list, and what is around it. -/
theorem exists_append_of_getElem? {l : List α} {i : Nat} {x : α} (h : l[i]? = some x) :
    ∃ a b, l = a ++ x :: b ∧ l.eraseIdx i = a ++ b ∧
      ∀ y : Option α, replaceAt l i y = a ++ (y.toList ++ b) := by
  obtain ⟨hi, rfl⟩ := List.getElem?_eq_some_iff.mp h
  have herase := List.eraseIdx_eq_take_drop_succ l i
  refine ⟨l.take i, l.drop (i + 1), ?_, herase, fun y => ?_⟩
  · rw [← List.drop_eq_getElem_cons hi, List.take_append_drop]
  · cases y with
    | none => exact herase
    | some y => rw [replaceAt, List.set_eq_take_append_cons_drop, if_pos hi]; rfl

end MxLib.Library
