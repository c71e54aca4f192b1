import MxLib.Defines

/-!
# Buffers

A fixed buffer is a function from the index to the byte, whatever was stored there
before; `memCopy` is `MxMemCopy` into it and `readBytes` its first bytes.
-/

namespace MxLib

/-- The first `n` bytes of a buffer. -/
def readBytes (buf : Nat → Byte) (n : Nat) : List Byte := (List.range n).map buf

/-- `MxMemCopy(buf + nOffset, data, data.length)` -/
def memCopy (buf : Nat → Byte) (nOffset : Nat) (data : List Byte) : Nat → Byte :=
  fun k => if nOffset ≤ k ∧ k < nOffset + data.length then data.getD (k - nOffset) 0 else buf k

@[simp] theorem length_readBytes (buf : Nat → Byte) (n : Nat) : (readBytes buf n).length = n := by
  simp [readBytes]

@[simp] theorem readBytes_zero (buf : Nat → Byte) : readBytes buf 0 = [] := rfl

theorem getElem?_readBytes {buf : Nat → Byte} {n k : Nat} (h : k < n) :
    (readBytes buf n)[k]? = some (buf k) := by
  simp [readBytes, h]

/-- What was copied to the start of a buffer is read back. -/
theorem readBytes_memCopy_zero (buf : Nat → Byte) (data : List Byte) :
    readBytes (memCopy buf 0 data) data.length = data := by
  apply List.ext_getElem?
  intro k
  by_cases hk : k < data.length
  · rw [getElem?_readBytes hk, memCopy, if_pos (by omega)]
    simp [hk]
  · rw [List.getElem?_eq_none (by simp; omega), List.getElem?_eq_none (by omega)]

/-- A byte written after the first `n` is read after them. -/
theorem readBytes_memCopy_succ (buf : Nat → Byte) (n : Nat) (b : Byte) :
    readBytes (memCopy buf n [b]) (n + 1) = readBytes buf n ++ [b] := by
  rw [readBytes, List.range_succ, List.map_append, List.map_singleton]
  congr 1
  · apply List.map_congr_left
    intro k hk
    rw [List.mem_range] at hk
    rw [memCopy, if_neg (by omega)]
  · simp [memCopy]

theorem memCopy_zero_zero (buf : Nat → Byte) (b : Byte) (data : List Byte) :
    memCopy buf 0 (b :: data) 0 = b := by
  simp [memCopy]

end MxLib
