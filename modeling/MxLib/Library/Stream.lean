import Mathlib.Algebra.Order.Ring.Nat
import Mathlib.Data.List.Basic
import Mathlib.Logic.Basic

/-!
# Machines that read a stream

A machine reads one item at a time and may stop with a result.  `feed step s l` is
what it does with the items of `l`.  Where the stream is cut does not matter
(`feed_append`), and once the machine has stopped, what comes later does not matter
either (`feed_append_error`).

Code often takes a buffer at a time instead.  It refines the machine when what it
does with a buffer is what the machine does with a part of it that is not empty
(`RefinesAt`).
-/

namespace MxLib.Library.Stream

variable {σ β ε : Type*}

/-- The machine on a list of items. -/
def feed (step : σ → β → Except ε σ) (s : σ) : List β → Except ε σ
  | [] => .ok s
  | b :: l =>
    match step s b with
    | .ok t => feed step t l
    | .error r => .error r

variable {step : σ → β → Except ε σ}

@[simp] theorem feed_nil (s : σ) : feed step s [] = .ok s := rfl

theorem feed_cons_ok {s t : σ} {b : β} (h : step s b = .ok t) (l : List β) :
    feed step s (b :: l) = feed step t l := by
  rw [feed, h]

theorem feed_cons_error {s : σ} {b : β} {r : ε} (h : step s b = .error r) (l : List β) :
    feed step s (b :: l) = .error r := by
  rw [feed, h]

theorem feed_singleton (s : σ) (b : β) : feed step s [b] = step s b := by
  cases h : step s b with
  | ok t => exact feed_cons_ok h []
  | error r => exact feed_cons_error h []

/-- **A machine can be fed in two parts.** -/
theorem feed_append {s t : σ} {l : List β} (h : feed step s l = .ok t) (m : List β) :
    feed step s (l ++ m) = feed step t m := by
  induction l generalizing s with
  | nil =>
    obtain rfl := Except.ok.inj h
    rfl
  | cons b l ih =>
    cases hb : step s b with
    | ok u =>
      rw [feed_cons_ok hb] at h
      rw [List.cons_append, feed_cons_ok hb]
      exact ih h
    | error r =>
      rw [feed_cons_error hb] at h
      cases h

/-- A machine that has stopped stays so. -/
theorem feed_append_error {s : σ} {r : ε} {l : List β} (h : feed step s l = .error r)
    (m : List β) : feed step s (l ++ m) = .error r := by
  induction l generalizing s with
  | nil => cases h
  | cons b l ih =>
    cases hb : step s b with
    | ok u =>
      rw [feed_cons_ok hb] at h
      rw [List.cons_append, feed_cons_ok hb]
      exact ih h
    | error r' =>
      rw [feed_cons_error hb] at h
      rw [List.cons_append, feed_cons_error hb, h]

/-- A machine that goes on after two parts goes on after the first. -/
theorem exists_feed_of_append {s u : σ} {l m : List β} (h : feed step s (l ++ m) = .ok u) :
    ∃ t, feed step s l = .ok t ∧ feed step t m = .ok u := by
  cases hl : feed step s l with
  | ok t =>
    rw [feed_append hl] at h
    exact ⟨t, rfl, h⟩
  | error r =>
    rw [feed_append_error hl] at h
    cases h

/-- The two parts as one equation, where the result of a stop is left out. -/
theorem toOption_feed_append (s : σ) (l m : List β) :
    (feed step s (l ++ m)).toOption =
      (feed step s l).toOption.bind fun t => (feed step t m).toOption := by
  cases h : feed step s l with
  | ok t =>
    rw [feed_append h]
    rfl
  | error r =>
    rw [feed_append_error h]
    rfl

/-- **The pieces of a stream can be fed one after the other**, wherever it is cut. -/
theorem feed_flatten (s : σ) (pieces : List (List β)) :
    feed (feed step) s pieces = feed step s pieces.flatten := by
  induction pieces generalizing s with
  | nil => rfl
  | cons l pieces ih =>
    rw [List.flatten_cons]
    cases h : feed step s l with
    | ok t => rw [feed_cons_ok h, feed_append h, ih]
    | error r => rw [feed_cons_error h, feed_append_error h]

/-- Items that change nothing can be left out. -/
theorem feed_filter {p : β → Bool} (hskip : ∀ s b, p b = false → step s b = .ok s) (s : σ)
    (l : List β) : feed step s (l.filter p) = feed step s l := by
  induction l generalizing s with
  | nil => rfl
  | cons b l ih =>
    cases hp : p b with
    | false => rw [List.filter_cons_of_neg (by simp [hp]), feed_cons_ok (hskip s b hp), ih]
    | true =>
      rw [List.filter_cons_of_pos hp]
      cases h : step s b with
      | ok t => rw [feed_cons_ok h, feed_cons_ok h, ih]
      | error r => rw [feed_cons_error h, feed_cons_error h]

/-- **An invariant of the step holds after any stream.** -/
theorem feed_induct {Inv : σ → Prop} (hstep : ∀ s b t, Inv s → step s b = .ok t → Inv t) {s t : σ}
    {l : List β} (hs : Inv s) (h : feed step s l = .ok t) : Inv t := by
  induction l generalizing s with
  | nil =>
    obtain rfl := Except.ok.inj h
    exact hs
  | cons b l ih =>
    cases hb : step s b with
    | ok u =>
      rw [feed_cons_ok hb] at h
      exact ih (hstep s b u hs hb) h
    | error r =>
      rw [feed_cons_error hb] at h
      cases h

/-- What `process` does with a buffer is what the machine does with a part of it. -/
def RefinesAt (step : σ → β → Except ε σ) (s : σ) (msg : List β)
    (out : Except ε (σ × List β)) : Prop :=
  ∃ used rest, msg = used ++ rest ∧ used ≠ [] ∧
    out = (feed step s used).map fun t => (t, rest)

theorem RefinesAt.ok {s t : σ} {msg rest : List β} (h : RefinesAt step s msg (.ok (t, rest))) :
    ∃ used, msg = used ++ rest ∧ used ≠ [] ∧ feed step s used = .ok t := by
  obtain ⟨used, rest', hmsg, hne, hout⟩ := h
  cases hf : feed step s used with
  | ok u =>
    rw [hf] at hout
    obtain ⟨rfl, rfl⟩ := Prod.mk.inj (Except.ok.inj hout)
    exact ⟨used, hmsg, hne, hf⟩
  | error r =>
    rw [hf] at hout
    cases hout

theorem RefinesAt.error {s : σ} {r : ε} {msg : List β} (h : RefinesAt step s msg (.error r)) :
    feed step s msg = .error r := by
  obtain ⟨used, rest, rfl, -, hout⟩ := h
  cases hf : feed step s used with
  | ok u =>
    rw [hf] at hout
    cases hout
  | error r' =>
    rw [hf] at hout
    obtain rfl := Except.error.inj hout
    exact feed_append_error hf rest

/-- A step before a buffer that refines the machine. -/
theorem RefinesAt.cons {s t : σ} {b : β} {msg : List β} {out : Except ε (σ × List β)}
    (hb : step s b = .ok t) (h : RefinesAt step t msg out) : RefinesAt step s (b :: msg) out := by
  obtain ⟨used, rest, hmsg, -, hout⟩ := h
  exact ⟨b :: used, rest, by rw [hmsg, List.cons_append], List.cons_ne_nil _ _,
    by rw [hout, feed_cons_ok hb]⟩

/-- A buffer of which one item is used. -/
theorem RefinesAt.head {s : σ} {b : β} {msg : List β} {out : Except ε (σ × List β)}
    (h : out = (step s b).map fun t => (t, msg)) : RefinesAt step s (b :: msg) out :=
  ⟨[b], msg, rfl, List.cons_ne_nil _ _, by rw [h, feed_singleton]⟩

end MxLib.Library.Stream
