import MxLib.CircularBuffer

/-!
# `ReArrangeBuffer`

The loop that should move the data of a circular buffer to its start, in passes of at
most 4096 bytes.  A block that is moved must lie in the `nSize` bytes behind `lpData`;
where one does not, the function has no result.

The second move of a pass writes to `nStart + nToMove` what belongs to `nToMove`, and
the length of that block is `nLen` less what is left behind `nStart`, as a `SIZE_T`.
So the last pass writes behind the end unless the data ends at the end of the buffer
and one pass is enough (`reArrangeBuffer_iff`).
-/

namespace MxLib

open MxLib.Library.Ring

namespace CircularBuffer

/-- `nCount` bytes from `lpData + nSrc` on. -/
def blockAt (mem : Nat → Byte) (nSize nSrc nCount : Nat) : Option (List Byte) :=
  if nSrc + nCount ≤ nSize then some (slice mem nSrc nCount) else none

/-- Bytes that are stored from `lpData + nDest` on. -/
def storeBlock (mem : Nat → Byte) (nSize nDest : Nat) (data : List Byte) : Option (Nat → Byte) :=
  if nDest + data.length ≤ nSize then some (memCopy mem nDest data) else none

/-- `MxMemMove(lpData + nDest, lpData + nSrc, nCount)` -/
def memMove (mem : Nat → Byte) (nSize nDest nSrc nCount : Nat) : Option (Nat → Byte) :=
  (blockAt mem nSize nSrc nCount).bind (storeBlock mem nSize nDest)

/-- The length of the block that a pass moves to the start. -/
def nToMove (nSize nStart : UInt64) : UInt64 :=
  let nEndAreaLen := nSize - nStart
  if nEndAreaLen > 4096 then 4096 else nEndAreaLen

/-- The data behind `nStart` that a pass leaves there goes `nToMove` bytes ahead. -/
def moveEndArea (mem : Nat → Byte) (nSize nStart : UInt64) : Option (Nat → Byte) :=
  let nEndAreaLen := nSize - nStart
  let nMove := nToMove nSize nStart
  if nMove < nEndAreaLen then
    memMove mem nSize.toNat (nStart.toNat + nMove.toNat) nStart.toNat (nEndAreaLen - nMove).toNat
  else some mem

/-- One pass of the loop. -/
def reArrangePass (nSize nLen nStart : UInt64) (mem : Nat → Byte) : Option (Nat → Byte) := do
  let nEndAreaLen := nSize - nStart
  let nStartAreaLen := nLen - nEndAreaLen
  let nMove := nToMove nSize nStart
  let aTempBuffer ← blockAt mem nSize.toNat (nSize - nMove).toNat nMove.toNat
  let mem ← moveEndArea mem nSize nStart
  let mem ← memMove mem nSize.toNat (nStart.toNat + nMove.toNat) 0 nStartAreaLen.toNat
  storeBlock mem nSize.toNat 0 aTempBuffer

theorem toNat_nToMove (nSize nStart : UInt64) :
    (nToMove nSize nStart).toNat = min (nSize - nStart).toNat 4096 := by
  have h4096 : (4096 : UInt64).toNat = 4096 := rfl
  rw [nToMove]
  by_cases h : nSize - nStart > 4096
  · have hlt := UInt64.lt_iff_toNat_lt.mp h
    rw [if_pos h]
    omega
  · have hle := UInt64.le_iff_toNat_le.mp (UInt64.not_lt.mp h)
    rw [if_neg h]
    omega

/-- What is left behind `nStart` gets less. -/
theorem sub_nToMove_lt {nSize nStart : UInt64} (h : nStart ≠ nSize) :
    (nSize - (nStart + nToMove nSize nStart)).toNat < (nSize - nStart).toNat := by
  have hne : nStart.toNat ≠ nSize.toNat := fun h' => h (UInt64.toNat_inj.mp h')
  have hmove := toNat_nToMove nSize nStart
  have hsize := nSize.toNat_lt
  have hstart := nStart.toNat_lt
  rw [UInt64.toNat_sub] at hmove
  rw [UInt64.toNat_sub, UInt64.toNat_sub, UInt64.toNat_add]
  omega

/-- The loop, from `nStart` on. -/
def reArrangeLoop (nSize nLen nStart : UInt64) (mem : Nat → Byte) : Option (Nat → Byte) :=
  if _ : nStart = nSize then some mem
  else
    match reArrangePass nSize nLen nStart mem with
    | none => none
    | some mem => reArrangeLoop nSize nLen (nStart + nToMove nSize nStart) mem
termination_by (nSize - nStart).toNat
decreasing_by exact sub_nToMove_lt ‹_›

/-- `ReArrangeBuffer`; `none` when a block that it moves is not inside the buffer. -/
def reArrangeBuffer (s : CircularBuffer) : Option CircularBuffer :=
  match s.lpData with
  | none => some s
  | some mem =>
    if s.nLen > 0 && s.nStart > 0 then
      (reArrangeLoop s.nSize s.nLen s.nStart mem).map fun mem =>
        { s with lpData := some mem, nStart := 0 }
    else some s

/-- What is asked of `ReArrangeBuffer`: every block inside, the data at the start of the
buffer, and the same queue as before. -/
def ReArranges (s : CircularBuffer) : Prop :=
  ∃ s', reArrangeBuffer s = some s' ∧ s'.nStart = 0 ∧ s'.nLen = s.nLen ∧ s'.nSize = s.nSize ∧
    contents s' = contents s

/-! ### A pass -/

/-- A block that is moved ends in the buffer. -/
theorem le_of_memMove {mem mem' : Nat → Byte} {nSize nDest nSrc nCount : Nat}
    (h : memMove mem nSize nDest nSrc nCount = some mem') : nDest + nCount ≤ nSize := by
  obtain ⟨data, hdata, hstore⟩ := Option.bind_eq_some_iff.mp h
  rw [blockAt] at hdata
  split at hdata
  · cases hdata
    rw [storeBlock, length_slice] at hstore
    split at hstore
    · assumption
    · cases hstore
  · cases hdata

/-- Nothing is moved. -/
theorem memMove_zero {mem : Nat → Byte} {nSize nDest nSrc : Nat} (hdest : nDest ≤ nSize)
    (hsrc : nSrc ≤ nSize) : memMove mem nSize nDest nSrc 0 = some mem := by
  rw [memMove, blockAt, if_pos (by omega), slice_zero, Option.bind_some, storeBlock,
    if_pos (by simpa using hdest)]
  congr 1
  funext k
  rw [memCopy, if_neg (by simp)]

variable {nSize nLen nStart : UInt64} {mem mem' : Nat → Byte}

/-- **The second block of a pass ends in the buffer**, from `nStart + nToMove` on. -/
theorem le_of_reArrangePass (h : reArrangePass nSize nLen nStart mem = some mem') :
    nStart.toNat + (nToMove nSize nStart).toNat + (nLen - (nSize - nStart)).toNat ≤ nSize.toNat := by
  rw [reArrangePass] at h
  obtain ⟨_, -, h⟩ := Option.bind_eq_some_iff.mp h
  obtain ⟨_, -, h⟩ := Option.bind_eq_some_iff.mp h
  obtain ⟨_, hmove, -⟩ := Option.bind_eq_some_iff.mp h
  exact le_of_memMove hmove

/-- A pass that takes all of the data. -/
theorem reArrangePass_of_end (hend : nStart.toNat + nLen.toNat = nSize.toNat)
    (hlen : nLen.toNat ≤ 4096) :
    reArrangePass nSize nLen nStart mem
      = some (memCopy mem 0 (slice mem nStart.toNat nLen.toNat)) := by
  have hsub : (nSize - nStart).toNat = nLen.toNat := by
    rw [toNat_sub_of_le (by omega)]
    omega
  have hmove : nToMove nSize nStart = nLen := by
    apply UInt64.toNat_inj.mp
    rw [toNat_nToMove, hsub, Nat.min_eq_left hlen]
  have heq : nSize - nStart = nLen := UInt64.toNat_inj.mp hsub
  have hsrc : (nSize - nLen).toNat = nStart.toNat := by
    rw [toNat_sub_of_le (by omega)]
    omega
  have hstay : moveEndArea mem nSize nStart = some mem := by
    rw [moveEndArea, hmove, heq, if_neg (UInt64.lt_irrefl _)]
  simp only [reArrangePass, hmove, heq, hsrc, hstay, UInt64.sub_self, UInt64.toNat_zero,
    Option.bind_eq_bind]
  rw [blockAt, if_pos (by omega), Option.bind_some, Option.bind_some,
    memMove_zero (by omega) (by omega), Option.bind_some, storeBlock,
    if_pos (by rw [length_slice]; omega)]

/-! ### The loop -/

/-- **No block leaves the buffer only if one pass takes all of the data.** -/
theorem end_of_reArrangeLoop (hstart : nStart.toNat < nSize.toNat)
    (h : reArrangeLoop nSize nLen nStart mem = some mem') :
    nStart.toNat + nLen.toNat = nSize.toNat ∧ nLen.toNat ≤ 4096 := by
  -- from the last pass backwards: the last one has nothing behind what it takes, and a
  -- pass before it would then have a block of nearly 2^64 bytes
  induction nStart, mem using reArrangeLoop.induct nSize nLen with
  | case1 mem => omega
  | case2 nStart mem hne hpass =>
    rw [reArrangeLoop, dif_neg hne, hpass] at h
    cases h
  | case3 nStart mem hne next hpass ih =>
    rw [reArrangeLoop, dif_neg hne, hpass] at h
    have hblock := le_of_reArrangePass hpass
    have hmove := toNat_nToMove nSize nStart
    have hsize := nSize.toNat_lt
    have hlen := nLen.toNat_lt
    have hleft : (nSize - nStart).toNat = nSize.toNat - nStart.toNat := toNat_sub_of_le (by omega)
    have hnext : (nStart + nToMove nSize nStart).toNat
        = nStart.toNat + (nToMove nSize nStart).toNat := by
      rw [UInt64.toNat_add, Nat.mod_eq_of_lt (by omega)]
    rw [UInt64.toNat_sub, hleft] at hblock
    by_cases hlast : nSize.toNat - nStart.toNat ≤ 4096
    · omega
    · obtain ⟨hend, -⟩ := ih (by omega) h
      omega

theorem reArrangeLoop_of_end (hne : nStart ≠ nSize)
    (hend : nStart.toNat + nLen.toNat = nSize.toNat) (hlen : nLen.toNat ≤ 4096) :
    reArrangeLoop nSize nLen nStart mem
      = some (memCopy mem 0 (slice mem nStart.toNat nLen.toNat)) := by
  have hmove : nStart + nToMove nSize nStart = nSize := by
    apply UInt64.toNat_inj.mp
    rw [UInt64.toNat_add, toNat_nToMove, toNat_sub_of_le (by omega),
      Nat.mod_eq_of_lt (by have := nSize.toNat_lt; omega)]
    omega
  rw [reArrangeLoop, dif_neg hne, reArrangePass_of_end hend hlen]
  dsimp only
  rw [hmove, reArrangeLoop, dif_pos rfl]

/-! ### The whole function -/

/-- **`ReArrangeBuffer` does what it is for** exactly when there is nothing to move, or
the data ends at the end of the buffer and is no longer than the temporary buffer. -/
theorem reArranges_iff {s : CircularBuffer} (hmem : s.lpData ≠ none)
    (hstart : s.nStart.toNat < s.nSize.toNat) (hlen : s.nLen.toNat ≤ s.nSize.toNat) :
    ReArranges s ↔
      s.nStart = 0 ∨ (s.nStart.toNat + s.nLen.toNat = s.nSize.toNat ∧ s.nLen.toNat ≤ 4096) := by
  obtain ⟨mem, hmem⟩ := Option.ne_none_iff_exists'.mp hmem
  constructor
  · rintro ⟨s', hs', hzero, -, -, -⟩
    rw [reArrangeBuffer, hmem] at hs'
    dsimp only at hs'
    by_cases h0 : s.nStart = 0
    · exact .inl h0
    · split at hs'
      · obtain ⟨mem', hloop, -⟩ := Option.map_eq_some_iff.mp hs'
        exact .inr (end_of_reArrangeLoop hstart hloop)
      · cases hs'
        exact .inl hzero
  · rintro (h0 | ⟨hend, hshort⟩)
    · refine ⟨s, ?_, h0, rfl, rfl, rfl⟩
      rw [reArrangeBuffer, hmem, h0]
      simp
    · by_cases h0 : s.nStart = 0
      · refine ⟨s, ?_, h0, rfl, rfl, rfl⟩
        rw [reArrangeBuffer, hmem, h0]
        simp
      · have hne : s.nStart ≠ s.nSize := fun h => by rw [h] at hstart; omega
        have hlen0 : s.nLen ≠ 0 := fun h => by rw [h] at hend; simp at hend; omega
        refine ⟨{ s with
            lpData := some (memCopy mem 0 (slice mem s.nStart.toNat s.nLen.toNat)), nStart := 0 },
          ?_, rfl, rfl, rfl, ?_⟩
        · rw [reArrangeBuffer, hmem]
          dsimp only
          rw [if_pos (by simp [UInt64.pos_iff_ne_zero, h0, hlen0]),
            reArrangeLoop_of_end hne hend hshort]
          rfl
        · rw [contents_eq_ring rfl (by simp; omega) (by simpa using hlen),
            contents_eq_ring hmem hstart hlen, ring_of_le (by simp; omega), ring_of_le (by omega)]
          have := slice_memCopy mem 0 (slice mem s.nStart.toNat s.nLen.toNat)
          rwa [length_slice] at this

/-- A buffer whose data ends at its end. -/
theorem reArranges_full :
    ReArranges { lpData := some fun k => .ofNat k, nSize := 4096, nStart := 4090, nLen := 6 } :=
  (reArranges_iff (by simp) (by decide) (by decide)).mpr (.inr (by decide))

/-- One byte behind another one that was read: the second block of the first pass has
`2^64 - 4094` bytes. -/
theorem not_reArranges_one :
    ¬ ∀ s : CircularBuffer, s.lpData ≠ none → s.nStart.toNat < s.nSize.toNat →
      s.nLen.toNat ≤ s.nSize.toNat → ReArranges s := by
  intro h
  obtain ⟨s', hs', -⟩ := h { lpData := some fun _ => 0x61, nSize := 4096, nStart := 1, nLen := 1 }
    (by simp) (by decide) (by decide)
  rw [reArrangeBuffer] at hs'
  obtain ⟨mem', hloop, -⟩ := Option.map_eq_some_iff.mp hs'
  rw [reArrangeLoop, dif_neg (by decide)] at hloop
  cases hpass : reArrangePass 4096 1 1 (fun _ => 0x61) with
  | none =>
    rw [hpass] at hloop
    cases hloop
  | some mem =>
    have hblock := le_of_reArrangePass hpass
    revert hblock
    decide

end CircularBuffer

end MxLib
