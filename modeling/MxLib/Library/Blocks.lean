import Mathlib.Algebra.Order.Ring.Nat
import Mathlib.Data.List.Basic

/-!
# Blocks of memory

A block is a list of cells.  Cells are read and written together, and only where all of them are in
the block (`none` is an access outside of it); `move` reads all of its cells before it writes one,
so that its two parts may overlap.
-/

namespace MxLib.Library.Blocks

variable {α : Type*} {block cells : List α} {pos n : Nat}

/-- The `n` cells from `pos` on. -/
def read (block : List α) (pos n : Nat) : Option (List α) :=
  if pos + n ≤ block.length then some ((block.drop pos).take n) else none

/-- Other cells from `pos` on. -/
def write (block : List α) (pos : Nat) (cells : List α) : Option (List α) :=
  if pos + cells.length ≤ block.length then
    some (block.take pos ++ cells ++ block.drop (pos + cells.length))
  else none

/-- The `n` cells from `src` on are copied to those from `dst` on. -/
def move (block : List α) (dst src n : Nat) : Option (List α) :=
  (read block src n).bind (write block dst)

theorem read_eq (h : pos + n ≤ block.length) :
    read block pos n = some ((block.drop pos).take n) := if_pos h

/-- What has been written: up to the end of it, and how long the block is. -/
theorem exists_write (block : List α) (pos : Nat) (cells : List α)
    (h : pos + cells.length ≤ block.length) :
    ∃ block', write block pos cells = some block' ∧ block'.length = block.length ∧
      block'.take (pos + cells.length) = block.take pos ++ cells ∧
      block'.drop (pos + cells.length) = block.drop (pos + cells.length) := by
  have hlen : (block.take pos ++ cells).length = pos + cells.length := by
    rw [List.length_append, List.length_take]
    omega
  refine ⟨_, if_pos h, ?_, List.take_left' hlen, List.drop_left' hlen⟩
  rw [List.length_append, hlen, List.length_drop]
  omega

/-- In front of what is written nothing changes. -/
theorem take_of_write {block' : List α} {m : Nat} (h : write block pos cells = some block')
    (hm : m ≤ pos) : block'.take m = block.take m := by
  unfold write at h
  split at h
  · next hin =>
    obtain rfl := Option.some.inj h
    rw [List.append_assoc, List.take_append_of_le_length (by rw [List.length_take]; omega),
      List.take_take, Nat.min_eq_left hm]
  · cases h

/-- What stands behind the front of a block. -/
theorem drop_take_of {front back : List α} (h : block.take (pos + n) = front ++ back)
    (hfront : front.length = pos) : (block.drop pos).take n = back := by
  have hback := congrArg (List.drop pos) h
  rwa [List.drop_take, Nat.add_sub_cancel_left, List.drop_left' hfront] at hback

theorem exists_move (block : List α) (dst src n : Nat) (hsrc : src + n ≤ block.length)
    (hdst : dst + n ≤ block.length) :
    ∃ block', move block dst src n = some block' ∧ block'.length = block.length ∧
      block'.take (dst + n) = block.take dst ++ (block.drop src).take n ∧
      block'.drop (dst + n) = block.drop (dst + n) ∧
      ∀ m ≤ dst, block'.take m = block.take m := by
  have hlen : ((block.drop src).take n).length = n := by
    rw [List.length_take, List.length_drop]
    omega
  have hwrite := exists_write block dst ((block.drop src).take n) (by rw [hlen]; exact hdst)
  rw [hlen] at hwrite
  obtain ⟨block', hrun, hsame, htake, hdrop⟩ := hwrite
  refine ⟨block', ?_, hsame, htake, hdrop, fun m hm => take_of_write hrun hm⟩
  rw [move, read_eq hsrc]
  exact hrun

end MxLib.Library.Blocks
