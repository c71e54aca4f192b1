import Mathlib.Algebra.Order.Ring.Nat
import Mathlib.Data.List.Range

/-!
# Queues in a ring

A memory is a function from the index.  `slice mem o n` are the `n` items from `o`
on, and `ring mem size start len` the `len` items from `start` on where index `size`
is index 0 again.

* `ring_of_le`, `ring_of_wrap`: a ring is one slice, or two.
* `ring_add`, `drop_ring`, `take_ring`: a ring in two parts.
* `ring_store`: what is stored behind a ring in its free cells is appended to it.
-/

namespace MxLib.Library.Ring

variable {α : Type*}

/-- The `n` items from `o` on. -/
def slice (mem : Nat → α) (o n : Nat) : List α := (List.range n).map fun k => mem (o + k)

/-- The `len` items from `start` on, around the end at `size`. -/
def ring (mem : Nat → α) (size start len : Nat) : List α :=
  (List.range len).map fun k => mem ((start + k) % size)

variable {mem mem' : Nat → α} {size start len : Nat}

@[simp] theorem length_slice (mem : Nat → α) (o n : Nat) : (slice mem o n).length = n := by
  simp [slice]

@[simp] theorem length_ring (mem : Nat → α) (size start len : Nat) :
    (ring mem size start len).length = len := by
  simp [ring]

@[simp] theorem slice_zero (mem : Nat → α) (o : Nat) : slice mem o 0 = [] := rfl

@[simp] theorem ring_zero (mem : Nat → α) (size start : Nat) : ring mem size start 0 = [] := rfl

theorem ring_congr (h : ∀ k < len, mem ((start + k) % size) = mem' ((start + k) % size)) :
    ring mem size start len = ring mem' size start len :=
  List.map_congr_left fun k hk => h k (List.mem_range.mp hk)

/-- Items that are read one by one. -/
theorem slice_eq_of_getElem? {o : Nat} {l : List α} (h : ∀ k < l.length, l[k]? = some (mem (o + k))) :
    slice mem o l.length = l := by
  apply List.ext_getElem?
  intro k
  by_cases hk : k < l.length
  · rw [h k hk, slice, List.getElem?_map, List.getElem?_range hk]
    rfl
  · rw [List.getElem?_eq_none (by rw [length_slice]; omega), List.getElem?_eq_none (by omega)]

/-- **A ring that does not reach the end** is one slice. -/
theorem ring_of_le (h : start + len ≤ size) : ring mem size start len = slice mem start len := by
  apply List.map_congr_left
  intro k hk
  rw [List.mem_range] at hk
  rw [Nat.mod_eq_of_lt (by omega)]

/-- **A ring in two parts.** -/
theorem ring_add (mem : Nat → α) (size start n m : Nat) :
    ring mem size start (n + m) = ring mem size start n ++ ring mem size ((start + n) % size) m := by
  rw [ring, List.range_add, List.map_append, List.map_map]
  congr 1
  apply List.map_congr_left
  intro k _
  rw [Function.comp_apply, Nat.mod_add_mod, Nat.add_assoc]

theorem drop_ring {n : Nat} (h : n ≤ len) :
    (ring mem size start len).drop n = ring mem size ((start + n) % size) (len - n) := by
  obtain ⟨m, rfl⟩ := Nat.exists_eq_add_of_le h
  rw [ring_add, List.drop_left' (length_ring _ _ _ _), Nat.add_sub_cancel_left]

/-- **A ring that goes on from index 0** is two slices. -/
theorem ring_of_wrap (hstart : start ≤ size) (hlen : len ≤ size) (h : size ≤ start + len) :
    ring mem size start len = slice mem start (size - start) ++ slice mem 0 (len - (size - start)) := by
  have hsplit : len = (size - start) + (len - (size - start)) := by omega
  have hend : (start + (size - start)) % size = 0 := by
    rw [Nat.add_sub_cancel' hstart, Nat.mod_self]
  conv => lhs; rw [hsplit]
  rw [ring_add, hend, ring_of_le (by omega), ring_of_le (by omega)]

/-- **What is stored behind a ring is appended to it.** -/
theorem ring_store {data : List α} {n : Nat} (hn : n ≤ data.length)
    (hold : ∀ k < len, mem' ((start + k) % size) = mem ((start + k) % size))
    (hnew : ∀ k < n, data[k]? = some (mem' ((start + len + k) % size))) :
    ring mem' size start (len + n) = ring mem size start len ++ data.take n := by
  rw [ring_add, ring_congr hold]
  congr 1
  apply List.ext_getElem?
  intro k
  by_cases hk : k < n
  · rw [ring, List.getElem?_map, List.getElem?_range hk, Option.map_some, Nat.mod_add_mod,
      List.getElem?_take_of_lt hk, hnew k hk]
  · rw [List.getElem?_eq_none (by rw [length_ring]; omega),
      List.getElem?_eq_none (by rw [List.length_take]; omega)]

/-- An index that is at most once around. -/
theorem mod_of_lt_two {a size : Nat} (h : a < size + size) :
    a % size = if a < size then a else a - size := by
  split
  · exact Nat.mod_eq_of_lt ‹_›
  · rw [Nat.mod_eq_sub_mod (by omega), Nat.mod_eq_of_lt (by omega)]

end MxLib.Library.Ring
