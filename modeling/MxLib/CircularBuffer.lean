import MxLib.Library.Ring
import MxLib.Memory

/-!
# The circular buffer

`CCircularBuffer` over a memory that is a function from the index; `none` is `NULL`.
A pointer into the memory is its index.  Sizes are `SIZE_T`, so sums and differences
of them are those of 64 bits.  `MX_MALLOC` succeeds, and what it returns holds
anything: `lpNewData` is given to the functions that may allocate.

The claim of the component is that it is a queue: `contents` are the bytes of the two
regions of `GetReadPtr`, and each call does to them what it does to a queue
(`step_refines`, `circularBuffer_refines_queue`).
-/

namespace MxLib

open MxLib.Library.Ring

/-- `CCircularBuffer` -/
structure CircularBuffer where
  lpData : Option (Nat → Byte)
  nSize : UInt64
  nStart : UInt64
  nLen : UInt64

namespace CircularBuffer

/-- The constructor. -/
def new : CircularBuffer where
  lpData := none
  nSize := 0
  nStart := 0
  nLen := 0

/-- Two pointers, and the sizes behind them. -/
structure Regions where
  lpPtr1 : Option UInt64
  nSize1 : UInt64
  lpPtr2 : Option UInt64
  nSize2 : UInt64

/-- `GetReadPtr` -/
def getReadPtr (s : CircularBuffer) : Regions :=
  match s.lpData with
  | none => ⟨none, 0, none, 0⟩
  | some _ =>
    if s.nStart ≤ s.nSize - s.nLen then ⟨some s.nStart, s.nLen, none, 0⟩
    else ⟨some s.nStart, s.nSize - s.nStart, some 0, s.nLen - (s.nSize - s.nStart)⟩

/-- `GetWritePtr` -/
def getWritePtr (s : CircularBuffer) : Regions :=
  if s.lpData.isNone || s.nSize == s.nLen then ⟨none, 0, none, 0⟩
  else if s.nStart < s.nSize - s.nLen then
    let nEnd := s.nStart + s.nLen
    if s.nStart > 0 then ⟨some nEnd, s.nSize - nEnd, some 0, s.nStart⟩
    else ⟨some nEnd, s.nSize - nEnd, none, 0⟩
  else ⟨some (s.nStart - (s.nSize - s.nLen)), s.nSize - s.nLen, none, 0⟩

/-- The `n` bytes at a pointer. -/
def bytesAt (s : CircularBuffer) (lpPtr : Option UInt64) (n : UInt64) : List Byte :=
  match s.lpData, lpPtr with
  | some mem, some o => slice mem o.toNat n.toNat
  | _, _ => []

/-- The bytes of the two regions that can be read. -/
def contents (s : CircularBuffer) : List Byte :=
  let r := getReadPtr s
  bytesAt s r.lpPtr1 r.nSize1 ++ bytesAt s r.lpPtr2 r.nSize2

/-- `MxMemCopy(lpPtr, data, data.length)` -/
def copyTo (s : CircularBuffer) (lpPtr : Option UInt64) (data : List Byte) : CircularBuffer :=
  match s.lpData, lpPtr with
  | some mem, some o => { s with lpData := some (memCopy mem o.toNat data) }
  | _, _ => s

/-- The loop of `Find` over the first region or the second one, from index `i` on. -/
def scan (l : List Byte) (nToScan : Byte) (i : Nat) : Option Nat :=
  if h : i < l.length then if l[i] == nToScan then some i else scan l nToScan (i + 1) else none
termination_by l.length - i

/-- `Find`; `none` stands for -1. -/
def find (s : CircularBuffer) (nToScan : Byte) (nStartPos : UInt64) : Option Nat :=
  let r := getReadPtr s
  let lpPtr1 := bytesAt s r.lpPtr1 r.nSize1
  let lpPtr2 := bytesAt s r.lpPtr2 r.nSize2
  if nStartPos ≥ r.nSize1 + r.nSize2 then none
  else if nStartPos < r.nSize1 then
    match scan lpPtr1 nToScan nStartPos.toNat with
    | some i => some i
    | none => (scan lpPtr2 nToScan 0).map (· + r.nSize1.toNat)
  else (scan lpPtr2 nToScan (nStartPos - r.nSize1).toNat).map (· + r.nSize1.toNat)

/-- `AdvanceReadPtr` -/
def advanceReadPtr (s : CircularBuffer) (nCount : UInt64) : HResult × CircularBuffer :=
  if s.lpData.isNone then (.eFail, s)
  else if nCount > s.nLen then (.eInvalidArg, s)
  else
    let nStart :=
      if s.nStart < s.nSize - nCount then s.nStart + nCount else s.nStart - (s.nSize - nCount)
    (.sOk, { s with nStart, nLen := s.nLen - nCount })

/-- `AdvanceWritePtr` -/
def advanceWritePtr (s : CircularBuffer) (nCount : UInt64) : HResult × CircularBuffer :=
  if s.lpData.isNone then (.eFail, s)
  else if nCount > s.nSize - s.nLen then (.eInvalidArg, s)
  else (.sOk, { s with nLen := s.nLen + nCount })

/-- `Peek`: the bytes that are copied to `lpDest`. -/
def peek (s : CircularBuffer) (nToRead : UInt64) : List Byte :=
  if nToRead == 0 then []
  else
    let r := getReadPtr s
    let nReaded := if nToRead < r.nSize1 then nToRead else r.nSize1
    if nToRead > r.nSize1 then
      let nToRead := if nToRead - r.nSize1 > r.nSize2 then r.nSize2 else nToRead - r.nSize1
      bytesAt s r.lpPtr1 nReaded ++ bytesAt s r.lpPtr2 nToRead
    else bytesAt s r.lpPtr1 nReaded

/-- `Read` -/
def read (s : CircularBuffer) (nToRead : UInt64) : List Byte × CircularBuffer :=
  let data := peek s nToRead
  if data.length > 0 then (data, (advanceReadPtr s (.ofNat data.length)).2) else (data, s)

/-- A size as `SetBufferSize` rounds it. -/
def roundUp (nSize : UInt64) : UInt64 := (nSize + 4095) &&& (~~~ 0x0FFF)

/-- `SetBufferSize` -/
def setBufferSize (lpNewData : Nat → Byte) (s : CircularBuffer) (nSize : UInt64) :
    HResult × CircularBuffer :=
  if nSize == 0 then (.sOk, ⟨none, 0, 0, 0⟩)
  else
    match s.lpData with
    | none => (.sOk, { s with lpData := some lpNewData, nSize := roundUp nSize })
    | some mem =>
      if s.nLen > nSize then (.eOutOfMemory, s)
      else
        let lpNewData :=
          if s.nStart + s.nLen ≤ s.nSize then
            memCopy lpNewData 0 (slice mem s.nStart.toNat s.nLen.toNat)
          else
            let nTemp := s.nSize - s.nStart
            memCopy (memCopy lpNewData 0 (slice mem s.nStart.toNat nTemp.toNat)) nTemp.toNat
              (slice mem 0 (s.nLen - nTemp).toNat)
        (.sOk, { s with lpData := some lpNewData, nSize := roundUp nSize, nStart := 0 })

/-- Data stored in the two regions of `GetWritePtr`, as far as they go. -/
def fill (s : CircularBuffer) (data : List Byte) : CircularBuffer :=
  let w := getWritePtr s
  let s := copyTo s w.lpPtr1 (data.take w.nSize1.toNat)
  copyTo s w.lpPtr2 ((data.drop w.nSize1.toNat).take w.nSize2.toNat)

/-- `MX_E_BufferOverflow` -/
def mxBufferOverflow : HResult := .other 0x8007006F

/-- `Write` -/
def write (lpNewData : Nat → Byte) (s : CircularBuffer) (src : List Byte) (bExpandIfNeeded : Bool) :
    HResult × CircularBuffer :=
  let nSrcLength := UInt64.ofNat src.length
  if nSrcLength == 0 then (.eInvalidArg, s)
  else if s.nLen + nSrcLength < s.nLen then (.eOutOfMemory, s)
  else
    let grown :=
      if s.nLen + nSrcLength > s.nSize then
        if !bExpandIfNeeded then (mxBufferOverflow, s)
        else
          let nCap := s.nSize <<< 1
          let nCap :=
            if nCap < s.nSize || nCap < s.nLen + nSrcLength then s.nLen + nSrcLength else nCap
          setBufferSize lpNewData s nCap
      else (.sOk, s)
    if grown.1.failed then grown
    else
      let s := grown.2
      let w := getWritePtr s
      let s :=
        if nSrcLength ≤ w.nSize1 then copyTo s w.lpPtr1 src
        else copyTo (copyTo s w.lpPtr1 (src.take w.nSize1.toNat)) w.lpPtr2 (src.drop w.nSize1.toNat)
      advanceWritePtr s nSrcLength

/-- `EnsureWritableSize` -/
def ensureWritableSize (lpNewData : Nat → Byte) (s : CircularBuffer) (nSize : UInt64) :
    HResult × CircularBuffer :=
  let w := getWritePtr s
  if nSize ≤ w.nSize1 + w.nSize2 then (.sOk, s)
  else setBufferSize lpNewData s (s.nSize + (nSize - (w.nSize1 + w.nSize2)))

/-! ### Calls -/

inductive Call
  | write (src : List Byte) (bExpandIfNeeded : Bool)
  | read (nToRead : UInt64)
  | peek (nToRead : UInt64)
  | advanceReadPtr (nCount : UInt64)
  /-- The regions of `GetWritePtr` are filled with `data`, as far as they go. -/
  | advanceWritePtr (data : List Byte) (nCount : UInt64)
  | ensureWritableSize (nSize : UInt64)
  | setBufferSize (nSize : UInt64)

/-- The result of a call, the bytes it gives out, and the buffer after it. -/
def step (lpNewData : Nat → Byte) (s : CircularBuffer) : Call → HResult × List Byte × CircularBuffer
  | .write src bExpandIfNeeded =>
    let r := write lpNewData s src bExpandIfNeeded
    (r.1, [], r.2)
  | .read nToRead => (.sOk, read s nToRead)
  | .peek nToRead => (.sOk, peek s nToRead, s)
  | .advanceReadPtr nCount =>
    let r := advanceReadPtr s nCount
    (r.1, [], r.2)
  | .advanceWritePtr data nCount =>
    let r := advanceWritePtr (fill s data) nCount
    (r.1, [], r.2)
  | .ensureWritableSize nSize =>
    let r := ensureWritableSize lpNewData s nSize
    (r.1, [], r.2)
  | .setBufferSize nSize =>
    let r := setBufferSize lpNewData s nSize
    (r.1, [], r.2)

/-- The size that a call adds to the total. -/
def Call.size : Call → Nat
  | .write src _ => src.length
  | .advanceWritePtr _ nCount => nCount.toNat
  | .ensureWritableSize nSize => nSize.toNat
  | .setBufferSize nSize => nSize.toNat
  | .read _ | .peek _ | .advanceReadPtr _ => 0

/-- What is asked of a call: no size is 0 for `SetBufferSize`, and as many bytes are
filled in as `AdvanceWritePtr` is told. -/
def Call.IsValid : Call → Prop
  | .setBufferSize nSize => nSize ≠ 0
  | .advanceWritePtr data nCount => nCount.toNat ≤ data.length
  | _ => True

/-! ### The queue -/

/-- The queue after a call that succeeded, or failed. -/
def queueAfter (q : List Byte) (bSucceeded : Bool) : Call → List Byte
  | .write src _ => if bSucceeded then q ++ src else q
  | .read nToRead => q.drop nToRead.toNat
  | .advanceReadPtr nCount => if bSucceeded then q.drop nCount.toNat else q
  | .advanceWritePtr data nCount => if bSucceeded then q ++ data.take nCount.toNat else q
  | .peek _ | .ensureWritableSize _ | .setBufferSize _ => q

/-- The bytes that a call gives out. -/
def queueOutput (q : List Byte) : Call → List Byte
  | .read nToRead | .peek nToRead => q.take nToRead.toNat
  | _ => []

/-- Whether a call succeeds on a queue with room for `nSize` bytes. -/
def accepts (q : List Byte) (nSize : Nat) : Call → Prop
  | .write src bExpandIfNeeded => src ≠ [] ∧ (bExpandIfNeeded = true ∨ q.length + src.length ≤ nSize)
  | .advanceReadPtr nCount => 0 < nSize ∧ nCount.toNat ≤ q.length
  | .advanceWritePtr _ nCount => 0 < nSize ∧ q.length + nCount.toNat ≤ nSize
  | .setBufferSize n => q.length ≤ n.toNat
  | .read _ | .peek _ | .ensureWritableSize _ => True

/-! ### Well-formed buffers -/

/-- The buffer after calls of the given total size. -/
structure WellFormed (total : Nat) (s : CircularBuffer) : Prop where
  nSize_eq_zero : s.lpData = none ↔ s.nSize.toNat = 0
  aligned : s.nSize.toNat % 4096 = 0
  nStart_lt : s.nStart.toNat < s.nSize.toNat ∨ (s.nSize.toNat = 0 ∧ s.nStart.toNat = 0)
  nLen_le : s.nLen.toNat ≤ s.nSize.toNat
  end_le_total : s.nStart.toNat + s.nLen.toNat ≤ total

/-- The bytes that the regions of `GetWritePtr` take. -/
def writable (s : CircularBuffer) : Nat :=
  (getWritePtr s).nSize1.toNat + (getWritePtr s).nSize2.toNat

/-- A buffer that stands for the queue `q`. -/
structure Shows (q : List Byte) (s : CircularBuffer) : Prop where
  contents_eq : contents s = q
  bounds : s.nSize ≠ 0 → s.nStart < s.nSize ∧ s.nLen ≤ s.nSize
  find_eq : ∀ (nToScan : Byte) (nStartPos : UInt64), find s nToScan nStartPos =
    ((q.drop nStartPos.toNat).findIdx? (· == nToScan)).map (· + nStartPos.toNat)

/-- The calls, each with the memory it may get, do to the buffer what they do to the
queue `q`. -/
def Refines (q : List Byte) (s : CircularBuffer) : List (Call × (Nat → Byte)) → Prop
  | [] => Shows q s
  | (c, lpNewData) :: calls =>
    let r := step lpNewData s c
    Shows q s ∧ r.2.1 = queueOutput q c ∧
      (r.1.succeeded = true ↔ accepts q s.nSize.toNat c) ∧
      (∀ nSize, c = .ensureWritableSize nSize → r.1.succeeded = true →
        nSize.toNat ≤ writable r.2.2) ∧
      Refines (queueAfter q r.1.succeeded c) r.2.2 calls

theorem wellFormed_new : WellFormed 0 .new :=
  ⟨by simp [new], rfl, .inr ⟨rfl, rfl⟩, Nat.le_refl _, Nat.le_refl _⟩

theorem WellFormed.nSize_pos {total : Nat} {s : CircularBuffer} (hs : WellFormed total s)
    {mem : Nat → Byte} (hmem : s.lpData = some mem) : 0 < s.nSize.toNat := by
  rcases Nat.eq_zero_or_pos s.nSize.toNat with h | h
  · rw [hs.nSize_eq_zero.mpr h] at hmem
    cases hmem
  · exact h

theorem toNat_sub_of_le {a b : UInt64} (h : b.toNat ≤ a.toNat) :
    (a - b).toNat = a.toNat - b.toNat :=
  UInt64.toNat_sub_of_le a b (UInt64.le_iff_toNat_le.mpr h)

theorem contents_none {s : CircularBuffer} (h : s.lpData = none) : contents s = [] := by
  simp [contents, getReadPtr, bytesAt, h]

/-- **The contents are a ring.** -/
theorem contents_eq_ring {s : CircularBuffer} {mem : Nat → Byte} (hmem : s.lpData = some mem)
    (hstart : s.nStart.toNat < s.nSize.toNat) (hlen : s.nLen.toNat ≤ s.nSize.toNat) :
    contents s = ring mem s.nSize.toNat s.nStart.toNat s.nLen.toNat := by
  have hfree : (s.nSize - s.nLen).toNat = s.nSize.toNat - s.nLen.toNat :=
    toNat_sub_of_le hlen
  have hend : (s.nSize - s.nStart).toNat = s.nSize.toNat - s.nStart.toNat :=
    toNat_sub_of_le (by omega)
  simp only [contents, getReadPtr, hmem, UInt64.le_iff_toNat_le, hfree]
  by_cases h : s.nStart.toNat ≤ s.nSize.toNat - s.nLen.toNat
  · rw [if_pos h]
    simp only [bytesAt, hmem, List.append_nil]
    rw [ring_of_le (by omega)]
  · rw [if_neg h]
    simp only [bytesAt, hmem, hend]
    rw [ring_of_wrap (by omega) hlen (by omega), toNat_sub_of_le (by omega), hend]
    rfl

theorem contents_some {total : Nat} {s : CircularBuffer} (hs : WellFormed total s)
    {mem : Nat → Byte} (hmem : s.lpData = some mem) :
    contents s = ring mem s.nSize.toNat s.nStart.toNat s.nLen.toNat := by
  have hpos := hs.nSize_pos hmem
  have hstart := hs.nStart_lt
  exact contents_eq_ring hmem (by omega) hs.nLen_le

theorem length_contents {total : Nat} {s : CircularBuffer} (hs : WellFormed total s) :
    (contents s).length = s.nLen.toNat := by
  cases hmem : s.lpData with
  | none =>
    have hsize := hs.nSize_eq_zero.mp hmem
    have hlen := hs.nLen_le
    rw [contents_none hmem, List.length_nil]
    omega
  | some mem => rw [contents_some hs hmem, length_ring]

/-! ### Reading -/

variable {total : Nat} {s : CircularBuffer}

/-- **`AdvanceReadPtr` removes bytes from the front.** -/
theorem advanceReadPtr_of_le (hs : WellFormed total s) (hmem : s.lpData ≠ none) {n : UInt64}
    (h : n.toNat ≤ s.nLen.toNat) :
    ∃ s', advanceReadPtr s n = (.sOk, s') ∧ WellFormed total s' ∧ s'.nSize = s.nSize ∧
      contents s' = (contents s).drop n.toNat := by
  obtain ⟨mem, hmem⟩ := Option.ne_none_iff_exists'.mp hmem
  have hpos := hs.nSize_pos hmem
  have hstart := hs.nStart_lt
  have hlen := hs.nLen_le
  have htotal := hs.end_le_total
  have hsize := s.nSize.toNat_lt
  have hleft : (s.nLen - n).toNat = s.nLen.toNat - n.toNat := toNat_sub_of_le h
  have hroom : (s.nSize - n).toNat = s.nSize.toNat - n.toNat :=
    toNat_sub_of_le (by omega)
  obtain ⟨nStart, hdef⟩ : ∃ nStart, nStart = if s.nStart < s.nSize - n then s.nStart + n
      else s.nStart - (s.nSize - n) := ⟨_, rfl⟩
  have hnew : nStart.toNat = (s.nStart.toNat + n.toNat) % s.nSize.toNat := by
    rw [hdef, mod_of_lt_two (by omega)]
    by_cases hwrap : s.nStart < s.nSize - n
    · rw [if_pos hwrap]
      rw [UInt64.lt_iff_toNat_lt, hroom] at hwrap
      rw [if_pos (by omega), UInt64.toNat_add]
      omega
    · rw [if_neg hwrap]
      rw [UInt64.lt_iff_toNat_lt, hroom] at hwrap
      rw [if_neg (by omega), toNat_sub_of_le (by omega), hroom]
      omega
  have hmod := Nat.mod_lt (s.nStart.toNat + n.toNat) hpos
  have hgt : ¬ n > s.nLen := by
    rw [gt_iff_lt, UInt64.lt_iff_toNat_lt]
    omega
  have hle : (s.nLen - n).toNat ≤ s.nSize.toNat := by omega
  have hend : nStart.toNat + (s.nLen - n).toNat ≤ total := by
    have hmod_le := Nat.mod_le (s.nStart.toNat + n.toNat) s.nSize.toNat
    omega
  have hs' : WellFormed total { s with nStart, nLen := s.nLen - n } :=
    ⟨hs.nSize_eq_zero, hs.aligned, .inl (by rw [hnew]; exact hmod), hle, hend⟩
  refine ⟨{ s with nStart, nLen := s.nLen - n }, ?_, hs', rfl, ?_⟩
  · rw [advanceReadPtr, hmem, if_neg (by simp), if_neg hgt, ← hdef]
  · rw [contents_some hs hmem, contents_some hs' hmem, drop_ring h, hleft, hnew]

theorem length_bytesAt {mem : Nat → Byte} (hmem : s.lpData = some mem) (o n : UInt64) :
    (bytesAt s (some o) n).length = n.toNat := by
  simp only [bytesAt, hmem, length_slice]

theorem length_bytesAt_le (s : CircularBuffer) (lpPtr : Option UInt64) (n : UInt64) :
    (bytesAt s lpPtr n).length ≤ n.toNat := by
  unfold bytesAt
  split
  · rw [length_slice]
  · exact Nat.zero_le _

theorem take_bytesAt (s : CircularBuffer) (lpPtr : Option UInt64) {n m : UInt64}
    (h : m.toNat ≤ n.toNat) : (bytesAt s lpPtr n).take m.toNat = bytesAt s lpPtr m := by
  unfold bytesAt
  split
  · rw [slice, slice, ← List.map_take, List.take_range, Nat.min_eq_left h]
  · exact List.take_nil

/-- The first region of `GetReadPtr` has the size that goes with it. -/
theorem length_region1 (s : CircularBuffer) :
    (bytesAt s (getReadPtr s).lpPtr1 (getReadPtr s).nSize1).length
      = (getReadPtr s).nSize1.toNat := by
  cases hmem : s.lpData with
  | none => simp [getReadPtr, bytesAt, hmem]
  | some mem =>
    have hptr : (getReadPtr s).lpPtr1 = some s.nStart := by
      simp only [getReadPtr, hmem]
      split <;> rfl
    rw [hptr, length_bytesAt hmem]

/-- **`Peek` gives the front of the queue.** -/
theorem peek_eq (s : CircularBuffer) (nToRead : UInt64) :
    peek s nToRead = (contents s).take nToRead.toNat := by
  have hregion := length_region1 s
  unfold peek contents
  by_cases hzero : nToRead = 0
  · simp [hzero]
  rw [if_neg (by simpa using hzero)]
  by_cases hgt : nToRead > (getReadPtr s).nSize1
  · have hlt : ¬ nToRead < (getReadPtr s).nSize1 := by
      rw [gt_iff_lt, UInt64.lt_iff_toNat_lt] at hgt
      rw [UInt64.lt_iff_toNat_lt]
      omega
    simp only [if_pos hgt, if_neg hlt]
    rw [gt_iff_lt, UInt64.lt_iff_toNat_lt] at hgt
    have hrest : (nToRead - (getReadPtr s).nSize1).toNat
        = nToRead.toNat - (getReadPtr s).nSize1.toNat := toNat_sub_of_le (by omega)
    rw [List.take_append, List.take_of_length_le (by omega), hregion, ← hrest]
    congr 1
    by_cases hend : nToRead - (getReadPtr s).nSize1 > (getReadPtr s).nSize2
    · rw [if_pos hend]
      rw [gt_iff_lt, UInt64.lt_iff_toNat_lt] at hend
      rw [List.take_of_length_le]
      exact (length_bytesAt_le _ _ _).trans (by omega)
    · rw [if_neg hend]
      rw [gt_iff_lt, UInt64.lt_iff_toNat_lt] at hend
      rw [take_bytesAt _ _ (by omega)]
  · simp only [if_neg hgt]
    rw [gt_iff_lt, UInt64.lt_iff_toNat_lt] at hgt
    rw [List.take_append_of_le_length (by omega), take_bytesAt _ _ (by omega)]
    by_cases hlt : nToRead < (getReadPtr s).nSize1
    · rw [if_pos hlt]
    · rw [if_neg hlt]
      rw [UInt64.lt_iff_toNat_lt] at hlt
      rw [UInt64.toNat_inj.mp (show (getReadPtr s).nSize1.toNat = nToRead.toNat by omega)]

theorem read_spec (hs : WellFormed total s) (nToRead : UInt64) :
    (read s nToRead).1 = (contents s).take nToRead.toNat ∧ WellFormed total (read s nToRead).2 ∧
      (read s nToRead).2.nSize = s.nSize ∧
      contents (read s nToRead).2 = (contents s).drop nToRead.toNat := by
  have hlen := length_contents hs
  have hlt := s.nLen.toNat_lt
  have hpeek := peek_eq s nToRead
  have htake : (peek s nToRead).length = min nToRead.toNat s.nLen.toNat := by
    rw [hpeek, List.length_take, hlen]
  by_cases hpos : (peek s nToRead).length > 0
  · have hmem : s.lpData ≠ none := by
      intro hnone
      rw [hpeek, contents_none hnone, List.take_nil] at hpos
      exact absurd hpos (Nat.lt_irrefl 0)
    have hcount : (UInt64.ofNat (peek s nToRead).length).toNat = min nToRead.toNat s.nLen.toNat := by
      rw [htake, UInt64.toNat_ofNat']
      omega
    obtain ⟨s', hcall, hs', hsize, hcont⟩ :=
      advanceReadPtr_of_le hs hmem (n := .ofNat (peek s nToRead).length) (by omega)
    have hread : read s nToRead = (peek s nToRead, s') := by
      rw [read, if_pos hpos, hcall]
    rw [hread]
    refine ⟨hpeek, hs', hsize, ?_⟩
    rw [hcont, hcount]
    rcases Nat.le_total nToRead.toNat s.nLen.toNat with h | h
    · rw [Nat.min_eq_left h]
    · rw [Nat.min_eq_right h, List.drop_of_length_le (by omega), List.drop_of_length_le (by omega)]
  · have hread : read s nToRead = (peek s nToRead, s) := by
      rw [read, if_neg hpos]
    rw [hread]
    refine ⟨hpeek, hs, rfl, ?_⟩
    have hzero : nToRead.toNat = 0 ∨ s.nLen.toNat = 0 := by omega
    rcases hzero with h | h
    · rw [h, List.drop_zero]
    · rw [List.length_eq_zero_iff.mp (hlen.trans h), List.drop_nil]

/-- The loop of `Find`. -/
theorem scan_eq (l : List Byte) (nToScan : Byte) (i : Nat) :
    scan l nToScan i = ((l.drop i).findIdx? (· == nToScan)).map (· + i) := by
  induction hn : l.length - i generalizing i with
  | zero =>
    rw [scan, dif_neg (by omega), List.drop_of_length_le (by omega)]
    rfl
  | succ n ih =>
    have hi : i < l.length := by omega
    rw [scan, dif_pos hi, ih (i + 1) (by omega), List.drop_eq_getElem_cons hi, List.findIdx?_cons]
    by_cases hch : (l[i] == nToScan) = true
    · rw [if_pos hch, if_pos hch, Option.map_some, Nat.zero_add]
    · rw [if_neg hch, if_neg hch, Option.map_map]
      congr 1
      funext k
      simp only [Function.comp_apply]
      omega

/-- The two sizes of `GetReadPtr`; their sum is what `GetAvailableForRead` gives. -/
theorem nSize1_add_nSize2 (hs : WellFormed total s) :
    (getReadPtr s).nSize1.toNat + (getReadPtr s).nSize2.toNat = s.nLen.toNat := by
  have hstart := hs.nStart_lt
  have hlen := hs.nLen_le
  cases hmem : s.lpData with
  | none =>
    have hsize := hs.nSize_eq_zero.mp hmem
    simp only [getReadPtr, hmem, UInt64.reduceToNat]
    omega
  | some mem =>
    have hpos := hs.nSize_pos hmem
    have hend : (s.nSize - s.nStart).toNat = s.nSize.toNat - s.nStart.toNat :=
      toNat_sub_of_le (by omega)
    simp only [getReadPtr, hmem]
    by_cases h : s.nStart ≤ s.nSize - s.nLen
    · rw [if_pos h]
      rfl
    · rw [if_neg h]
      rw [UInt64.le_iff_toNat_le, toNat_sub_of_le hlen] at h
      have hrest : (s.nLen - (s.nSize - s.nStart)).toNat
          = s.nLen.toNat - (s.nSize - s.nStart).toNat := toNat_sub_of_le (by omega)
      rw [hrest, hend]
      omega

/-- **`Find` gives the first place of the byte** from `nStartPos` on. -/
theorem find_eq (hs : WellFormed total s) (nToScan : Byte) (nStartPos : UInt64) :
    find s nToScan nStartPos =
      (((contents s).drop nStartPos.toNat).findIdx? (· == nToScan)).map (· + nStartPos.toNat) := by
  have hsum := nSize1_add_nSize2 hs
  have hlen := length_contents hs
  have hlt := s.nLen.toNat_lt
  have hregion := length_region1 s
  have hadd : ((getReadPtr s).nSize1 + (getReadPtr s).nSize2).toNat = s.nLen.toNat := by
    rw [UInt64.toNat_add, hsum, Nat.mod_eq_of_lt hlt]
  unfold find
  by_cases hend : nStartPos ≥ (getReadPtr s).nSize1 + (getReadPtr s).nSize2
  · rw [if_pos hend]
    rw [ge_iff_le, UInt64.le_iff_toNat_le, hadd] at hend
    rw [List.drop_of_length_le (by omega)]
    rfl
  rw [if_neg hend]
  unfold contents
  by_cases hfirst : nStartPos < (getReadPtr s).nSize1
  · rw [if_pos hfirst]
    rw [UInt64.lt_iff_toNat_lt] at hfirst
    rw [List.drop_append_of_le_length (by omega), List.findIdx?_append, scan_eq, scan_eq,
      List.drop_zero, List.length_drop, hregion]
    cases (bytesAt s (getReadPtr s).lpPtr1 (getReadPtr s).nSize1 |>.drop
        nStartPos.toNat).findIdx? (· == nToScan) with
    | some i => rfl
    | none =>
      simp only [Option.map_none, Option.none_or, Option.map_map]
      congr 1
      funext k
      simp only [Function.comp_apply]
      omega
  · rw [if_neg hfirst]
    rw [UInt64.lt_iff_toNat_lt] at hfirst
    have hskip : (bytesAt s (getReadPtr s).lpPtr1 (getReadPtr s).nSize1).drop nStartPos.toNat
        = [] := List.drop_of_length_le (by omega)
    rw [scan_eq, List.drop_append, hskip, List.nil_append, hregion, toNat_sub_of_le (by omega),
      Option.map_map]
    congr 1
    funext k
    simp only [Function.comp_apply]
    omega

/-! ### Resizing -/

theorem toNat_roundUp {nSize : UInt64} (h : nSize.toNat ≤ 2 ^ 64 - 4096) :
    (roundUp nSize).toNat = (nSize.toNat + 4095) / 4096 * 4096 := by
  have hmask : (~~~ (0x0FFF : UInt64)).toNat = (2 ^ 52 - 1) <<< 12 := by decide
  have hsum : (nSize + 4095).toNat = nSize.toNat + 4095 := by
    rw [UInt64.toNat_add]
    simp only [UInt64.reduceToNat]
    omega
  have hlt : nSize.toNat + 4095 < 2 ^ 64 := by omega
  rw [roundUp, UInt64.toNat_and, hsum, hmask]
  apply Nat.eq_of_testBit_eq
  intro k
  rw [show (nSize.toNat + 4095) / 4096 * 4096 = ((nSize.toNat + 4095) >>> 12) <<< 12 by
      rw [Nat.shiftRight_eq_div_pow, Nat.shiftLeft_eq],
    Nat.testBit_and, Nat.testBit_shiftLeft, Nat.testBit_shiftLeft, Nat.testBit_shiftRight,
    Nat.testBit_two_pow_sub_one]
  by_cases hk : 12 ≤ k
  · rw [decide_eq_true hk, Nat.add_sub_cancel' hk, Bool.true_and, Bool.true_and]
    by_cases hk' : k - 12 < 52
    · rw [decide_eq_true hk', Bool.and_true]
    · rw [Nat.testBit_lt_two_pow (hlt.trans_le (Nat.pow_le_pow_right (by omega) (by omega))),
        Bool.false_and]
  · rw [decide_eq_false hk, Bool.false_and, Bool.false_and, Bool.and_false]

/-- What was copied is read back. -/
theorem slice_memCopy (mem : Nat → Byte) (o : Nat) (data : List Byte) :
    slice (memCopy mem o data) o data.length = data := by
  apply slice_eq_of_getElem?
  intro k hk
  rw [memCopy, if_pos (by omega), Nat.add_sub_cancel_left, List.getD_eq_getElem?_getD,
    List.getElem?_eq_getElem hk]
  rfl

/-- Two copies, one behind the other. -/
theorem slice_memCopy_memCopy (mem : Nat → Byte) (data data' : List Byte) :
    slice (memCopy (memCopy mem 0 data) data.length data') 0 (data ++ data').length
      = data ++ data' := by
  apply slice_eq_of_getElem?
  intro k hk
  rw [List.length_append] at hk
  rw [Nat.zero_add, memCopy]
  by_cases hdata : k < data.length
  · rw [if_neg (by omega), memCopy, if_pos (by omega), List.getElem?_append_left hdata,
      List.getD_eq_getElem?_getD, Nat.sub_zero, List.getElem?_eq_getElem hdata]
    rfl
  · rw [if_pos (by omega), List.getElem?_append_right (by omega), List.getD_eq_getElem?_getD,
      List.getElem?_eq_getElem (by omega)]
    rfl

/-- **`SetBufferSize` keeps the contents**, and the size is at least what was asked for. -/
theorem setBufferSize_of_le (hs : WellFormed total s) (htotal : total < 2 ^ 63)
    (lpNewData : Nat → Byte) {n : UInt64} (hne : n ≠ 0)
    (hbig : n.toNat ≤ 2 ^ 64 - 4096) (hle : s.nLen.toNat ≤ n.toNat) :
    ∃ s', setBufferSize lpNewData s n = (.sOk, s') ∧ WellFormed total s' ∧ s'.lpData ≠ none ∧
      n.toNat ≤ s'.nSize.toNat ∧ s'.nLen = s.nLen ∧ contents s' = contents s := by
  have hround := toNat_roundUp hbig
  have hpos : 0 < n.toNat := Nat.pos_of_ne_zero fun h => hne (UInt64.toNat_inj.mp h)
  have hge : n.toNat ≤ (roundUp n).toNat := by omega
  have haligned : (roundUp n).toNat % 4096 = 0 := by omega
  have hnonzero : (roundUp n).toNat ≠ 0 := by omega
  have hstart := hs.nStart_lt
  have hlen := hs.nLen_le
  have hend := hs.end_le_total
  have hzero : ¬ (n == 0) = true := by simpa using hne
  cases hmem : s.lpData with
  | none =>
    have hsize := hs.nSize_eq_zero.mp hmem
    have hfirst : s.nStart.toNat < (roundUp n).toNat := by omega
    have hs' : WellFormed total { s with lpData := some lpNewData, nSize := roundUp n } :=
      ⟨by simpa using hnonzero, haligned, .inl hfirst, hle.trans hge, hend⟩
    refine ⟨_, by rw [setBufferSize, if_neg hzero, hmem], hs', by simp, hge, rfl, ?_⟩
    have hempty : s.nLen.toNat = 0 := by omega
    rw [contents_none hmem, List.eq_nil_iff_length_eq_zero, length_contents hs']
    exact hempty
  | some mem =>
    have hgt : ¬ s.nLen > n := by
      rw [gt_iff_lt, UInt64.lt_iff_toNat_lt]
      omega
    have htemp : (s.nSize - s.nStart).toNat = s.nSize.toNat - s.nStart.toNat :=
      toNat_sub_of_le (by omega)
    obtain ⟨newMem, hdef⟩ : ∃ newMem, newMem =
        if s.nStart + s.nLen ≤ s.nSize then
          memCopy lpNewData 0 (slice mem s.nStart.toNat s.nLen.toNat)
        else
          memCopy (memCopy lpNewData 0 (slice mem s.nStart.toNat (s.nSize - s.nStart).toNat))
            (s.nSize - s.nStart).toNat (slice mem 0 (s.nLen - (s.nSize - s.nStart)).toNat) :=
      ⟨_, rfl⟩
    have hzeroNat : (0 : UInt64).toNat = 0 := rfl
    have hfromZero : (0 : UInt64).toNat + s.nLen.toNat ≤ total := by
      rw [hzeroNat]
      omega
    have hs' : WellFormed total
        { s with lpData := some newMem, nSize := roundUp n, nStart := 0 } :=
      ⟨by simpa using hnonzero, haligned, .inl (Nat.pos_of_ne_zero hnonzero), hle.trans hge,
        hfromZero⟩
    refine ⟨{ s with lpData := some newMem, nSize := roundUp n, nStart := 0 }, ?_, hs', by simp,
      hge, rfl, ?_⟩
    · rw [setBufferSize, if_neg hzero, hmem, hdef]
      simp only [if_neg hgt]
    · rw [contents_some hs hmem, contents_some hs' rfl, hzeroNat,
        ring_of_le (by rw [Nat.zero_add]; exact hle.trans hge), hdef]
      by_cases hfits : s.nStart + s.nLen ≤ s.nSize
      · rw [if_pos hfits]
        rw [UInt64.le_iff_toNat_le, UInt64.toNat_add] at hfits
        have hcopy := slice_memCopy lpNewData 0 (slice mem s.nStart.toNat s.nLen.toNat)
        rw [length_slice] at hcopy
        rw [hcopy, ring_of_le (by omega)]
      · rw [if_neg hfits]
        rw [UInt64.le_iff_toNat_le, UInt64.toNat_add] at hfits
        have hrest : (s.nLen - (s.nSize - s.nStart)).toNat
            = s.nLen.toNat - (s.nSize.toNat - s.nStart.toNat) := by
          rw [toNat_sub_of_le (by omega), htemp]
        have hcopy := slice_memCopy_memCopy lpNewData
          (slice mem s.nStart.toNat (s.nSize - s.nStart).toNat)
          (slice mem 0 (s.nLen - (s.nSize - s.nStart)).toNat)
        rw [List.length_append, length_slice, length_slice, htemp, hrest,
          show s.nSize.toNat - s.nStart.toNat + (s.nLen.toNat - (s.nSize.toNat - s.nStart.toNat))
            = s.nLen.toNat by omega] at hcopy
        rw [htemp, hrest, hcopy, ring_of_wrap (by omega) hlen (by omega)]

/-- A size below that of the contents is refused. -/
theorem setBufferSize_of_lt (lpNewData : Nat → Byte) {nSize : UInt64} (hne : nSize ≠ 0)
    (hs : WellFormed total s) (hlt : nSize.toNat < s.nLen.toNat) :
    setBufferSize lpNewData s nSize = (.eOutOfMemory, s) := by
  have hzero : ¬ (nSize == 0) = true := by simpa using hne
  have hgt : s.nLen > nSize := by
    rw [gt_iff_lt, UInt64.lt_iff_toNat_lt]
    exact hlt
  cases hmem : s.lpData with
  | none =>
    have hsize := hs.nSize_eq_zero.mp hmem
    have hlen := hs.nLen_le
    omega
  | some mem =>
    rw [setBufferSize, if_neg hzero, hmem]
    simp only [if_pos hgt]

/-! ### Writing -/

/-- The room behind the contents. -/
theorem toNat_room (hs : WellFormed total s) :
    (s.nSize - s.nLen).toNat = s.nSize.toNat - s.nLen.toNat :=
  toNat_sub_of_le hs.nLen_le

/-- The two sizes of `GetWritePtr`. -/
theorem writeSizes (hs : WellFormed total s) (htotal : total < 2 ^ 63) :
    (getWritePtr s).nSize1.toNat + (getWritePtr s).nSize2.toNat
      = s.nSize.toNat - s.nLen.toNat := by
  have hstart := hs.nStart_lt
  have hlen := hs.nLen_le
  have hend := hs.end_le_total
  have hsum : (s.nStart + s.nLen).toNat = s.nStart.toNat + s.nLen.toNat := by
    rw [UInt64.toNat_add]
    omega
  unfold getWritePtr
  by_cases hfull : (s.lpData.isNone || s.nSize == s.nLen) = true
  · rw [if_pos hfull]
    rw [Bool.or_eq_true, Option.isNone_iff_eq_none, beq_iff_eq] at hfull
    rcases hfull with hnone | heq
    · rw [hs.nSize_eq_zero.mp hnone]
      simp
    · rw [heq, Nat.sub_self]
      rfl
  · rw [if_neg hfull]
    by_cases hwrap : s.nStart < s.nSize - s.nLen
    · rw [if_pos hwrap]
      rw [UInt64.lt_iff_toNat_lt, toNat_room hs] at hwrap
      have hafter : (s.nSize - (s.nStart + s.nLen)).toNat
          = s.nSize.toNat - (s.nStart.toNat + s.nLen.toNat) := by
        rw [toNat_sub_of_le (by omega), hsum]
      by_cases hpos : s.nStart > 0
      · simp only [if_pos hpos, hafter]
        omega
      · simp only [if_neg hpos, hafter]
        rw [gt_iff_lt, UInt64.lt_iff_toNat_lt] at hpos
        simp only [UInt64.reduceToNat] at hpos ⊢
        omega
    · rw [if_neg hwrap]
      simp only [toNat_room hs, UInt64.reduceToNat]
      omega

theorem memCopy_apply (mem : Nat → Byte) (o : Nat) (data : List Byte) (k : Nat) :
    memCopy mem o data k = if o ≤ k ∧ k < o + data.length then data.getD (k - o) 0 else mem k :=
  rfl

/-- A byte that was copied. -/
theorem getElem?_of_copied {data piece : List Byte} {k j : Nat} (hk : k < data.length)
    (h : piece[j]? = data[k]?) : data[k]? = some (piece.getD j 0) := by
  rw [List.getD_eq_getElem?_getD, h, List.getElem?_eq_getElem hk]
  rfl

/-- **What is filled in lies behind the contents**, and leaves them alone. -/
theorem fill_spec (hs : WellFormed total s) (htotal : total < 2 ^ 63) {mem : Nat → Byte}
    (hmem : s.lpData = some mem) (data : List Byte) :
    ∃ newMem, fill s data = { s with lpData := some newMem } ∧
      (∀ k < s.nLen.toNat, newMem ((s.nStart.toNat + k) % s.nSize.toNat)
        = mem ((s.nStart.toNat + k) % s.nSize.toNat)) ∧
      ∀ k < data.length, k < s.nSize.toNat - s.nLen.toNat →
        data[k]? = some (newMem ((s.nStart.toNat + s.nLen.toNat + k) % s.nSize.toNat)) := by
  have hpos := hs.nSize_pos hmem
  have hstart := hs.nStart_lt
  have hlen := hs.nLen_le
  have hend := hs.end_le_total
  have hroom := toNat_room hs
  have hsum : (s.nStart + s.nLen).toNat = s.nStart.toNat + s.nLen.toNat := by
    rw [UInt64.toNat_add]
    omega
  unfold fill getWritePtr
  by_cases hfull : s.nSize = s.nLen
  · rw [if_pos (by simp [hfull])]
    refine ⟨mem, ?_, fun k _ => rfl, fun k _ hk => ?_⟩
    · simp only [copyTo, hmem]
      rw [← hmem]
    · rw [hfull, Nat.sub_self] at hk
      exact absurd hk (Nat.not_lt_zero k)
  rw [if_neg (by simp [hmem, hfull])]
  by_cases hwrap : s.nStart < s.nSize - s.nLen
  · rw [if_pos hwrap]
    rw [UInt64.lt_iff_toNat_lt, hroom] at hwrap
    have hafter : (s.nSize - (s.nStart + s.nLen)).toNat
        = s.nSize.toNat - (s.nStart.toNat + s.nLen.toNat) := by
      rw [toNat_sub_of_le (by omega), hsum]
    by_cases hzero : s.nStart > 0
    · simp only [if_pos hzero, copyTo, hmem, hsum, hafter, UInt64.toNat_zero]
      refine ⟨_, rfl, ?_, ?_⟩
      · intro k hk
        rw [mod_of_lt_two (by omega), if_pos (by omega), memCopy_apply, if_neg, memCopy_apply,
          if_neg (by omega)]
        simp only [List.length_take, List.length_drop]
        omega
      · intro k hk hfits
        rw [mod_of_lt_two (by omega)]
        by_cases hfirst : s.nStart.toNat + s.nLen.toNat + k < s.nSize.toNat
        · rw [if_pos hfirst, memCopy_apply, if_neg, memCopy_apply, if_pos, Nat.add_sub_cancel_left]
          · exact getElem?_of_copied hk (List.getElem?_take_of_lt (by omega))
          · simp only [List.length_take]
            omega
          · simp only [List.length_take, List.length_drop]
            omega
        · rw [if_neg hfirst, memCopy_apply, if_pos]
          · refine getElem?_of_copied hk ?_
            rw [List.getElem?_take_of_lt (by omega), List.getElem?_drop]
            congr 1
            omega
          · simp only [List.length_take, List.length_drop]
            omega
    · have hzeroNat : s.nStart.toNat = 0 := by
        rw [gt_iff_lt, UInt64.lt_iff_toNat_lt, UInt64.toNat_zero] at hzero
        omega
      simp only [if_neg hzero, copyTo, hmem, hsum, hafter]
      refine ⟨_, rfl, ?_, ?_⟩
      · intro k hk
        rw [mod_of_lt_two (by omega), if_pos (by omega), memCopy_apply, if_neg (by omega)]
      · intro k hk hfits
        rw [mod_of_lt_two (by omega), if_pos (by omega), memCopy_apply, if_pos,
          Nat.add_sub_cancel_left]
        · exact getElem?_of_copied hk (List.getElem?_take_of_lt (by omega))
        · simp only [List.length_take]
          omega
  · rw [if_neg hwrap]
    rw [UInt64.lt_iff_toNat_lt, hroom] at hwrap
    have hback : (s.nStart - (s.nSize - s.nLen)).toNat
        = s.nStart.toNat - (s.nSize.toNat - s.nLen.toNat) := by
      rw [toNat_sub_of_le (by omega), hroom]
    simp only [copyTo, hmem, hback, hroom]
    refine ⟨_, rfl, ?_, ?_⟩
    · intro k hk
      rw [memCopy_apply, if_neg]
      rw [mod_of_lt_two (by omega), List.length_take]
      split <;> omega
    · intro k hk hfits
      rw [mod_of_lt_two (by omega), if_neg (by omega), memCopy_apply, if_pos]
      · refine getElem?_of_copied hk ?_
        rw [List.getElem?_take_of_lt (by omega)]
        congr 1
        omega
      · rw [List.length_take]
        omega

/-- **`AdvanceWritePtr` appends what was filled in.** -/
theorem advanceWritePtr_fill (hs : WellFormed total s) (htotal : total < 2 ^ 63)
    (hmem : s.lpData ≠ none) {d : List Byte} {n : UInt64}
    (hcount : n.toNat ≤ d.length) (hroom : s.nLen.toNat + n.toNat ≤ s.nSize.toNat) :
    ∃ s', advanceWritePtr (fill s d) n = (.sOk, s') ∧
      WellFormed (total + n.toNat) s' ∧ s'.nSize = s.nSize ∧
      contents s' = contents s ++ d.take n.toNat := by
  obtain ⟨mem, hmem⟩ := Option.ne_none_iff_exists'.mp hmem
  obtain ⟨newMem, hfill, hold, hnew⟩ := fill_spec hs htotal hmem d
  have hpos := hs.nSize_pos hmem
  have hstart := hs.nStart_lt
  have hend := hs.end_le_total
  have hlt := s.nSize.toNat_lt
  have hsum : (s.nLen + n).toNat = s.nLen.toNat + n.toNat := by
    rw [UInt64.toNat_add]
    omega
  have hgt : ¬ n > s.nSize - s.nLen := by
    rw [gt_iff_lt, UInt64.lt_iff_toNat_lt, toNat_room hs]
    omega
  have hlen : (s.nLen + n).toNat ≤ s.nSize.toNat := by omega
  have hafter : s.nStart.toNat + (s.nLen + n).toNat ≤ total + n.toNat := by omega
  have hs' : WellFormed (total + n.toNat)
      { s with lpData := some newMem, nLen := s.nLen + n } :=
    ⟨by simpa using hpos.ne', hs.aligned, hs.nStart_lt, hlen, hafter⟩
  refine ⟨{ s with lpData := some newMem, nLen := s.nLen + n }, ?_, hs', rfl, ?_⟩
  · rw [hfill, advanceWritePtr, if_neg (by simp), if_neg hgt]
  · rw [contents_some hs' rfl, contents_some hs hmem, hsum]
    exact ring_store hcount hold fun k hk => hnew k (by omega) (by omega)

/-- What is filled in cannot be seen before the pointer is advanced. -/
theorem fill_keeps (hs : WellFormed total s) (htotal : total < 2 ^ 63) (data : List Byte) :
    WellFormed total (fill s data) ∧ contents (fill s data) = contents s ∧
      (fill s data).nSize = s.nSize ∧ (fill s data).nLen = s.nLen ∧
      ((fill s data).lpData = none ↔ s.lpData = none) := by
  cases hmem : s.lpData with
  | none =>
    have hsame : fill s data = s := by simp [fill, getWritePtr, copyTo, hmem]
    rw [hsame]
    exact ⟨hs, rfl, rfl, rfl, by rw [hmem]⟩
  | some mem =>
    obtain ⟨newMem, hfill, hold, -⟩ := fill_spec hs htotal hmem data
    have hpos := hs.nSize_pos hmem
    have hs' : WellFormed total { s with lpData := some newMem } :=
      ⟨by simpa using hpos.ne', hs.aligned, hs.nStart_lt, hs.nLen_le, hs.end_le_total⟩
    rw [hfill]
    refine ⟨hs', ?_, rfl, rfl, by simp⟩
    rw [contents_some hs' rfl, contents_some hs hmem]
    exact ring_congr hold

theorem copyTo_nil (s : CircularBuffer) (lpPtr : Option UInt64) : copyTo s lpPtr [] = s := by
  unfold copyTo
  split
  next _ _ mem o hmem =>
    have hsame : memCopy mem o.toNat [] = mem := by
      funext k
      rw [memCopy_apply, if_neg (by simp)]
    rw [hsame, ← hmem]
  next => rfl

/-- The copies of `Write` fill the regions. -/
theorem copy_eq_fill (hs : WellFormed total s) (htotal : total < 2 ^ 63) {src : List Byte}
    (hroom : s.nLen.toNat + src.length ≤ s.nSize.toNat) :
    (if UInt64.ofNat src.length ≤ (getWritePtr s).nSize1 then copyTo s (getWritePtr s).lpPtr1 src
      else copyTo (copyTo s (getWritePtr s).lpPtr1 (src.take (getWritePtr s).nSize1.toNat))
        (getWritePtr s).lpPtr2 (src.drop (getWritePtr s).nSize1.toNat)) = fill s src := by
  have hsizes := writeSizes hs htotal
  have hlt := s.nSize.toNat_lt
  have hsrc : (UInt64.ofNat src.length).toNat = src.length := by
    rw [UInt64.toNat_ofNat']
    omega
  unfold fill
  by_cases hle : UInt64.ofNat src.length ≤ (getWritePtr s).nSize1
  · rw [if_pos hle]
    rw [UInt64.le_iff_toNat_le, hsrc] at hle
    simp only
    rw [List.take_of_length_le hle, List.drop_of_length_le hle, List.take_nil, copyTo_nil]
  · rw [if_neg hle]
    rw [UInt64.le_iff_toNat_le, hsrc] at hle
    simp only
    rw [List.take_of_length_le (l := src.drop (getWritePtr s).nSize1.toNat)]
    rw [List.length_drop]
    omega

theorem toNat_ofNat_length {src : List Byte} (h : src.length < 2 ^ 63) :
    (UInt64.ofNat src.length).toNat = src.length := by
  rw [UInt64.toNat_ofNat']
  omega

/-- The end of `Write`, when there is room. -/
theorem write_room (hs : WellFormed total s) {src : List Byte} (htotal : total + src.length < 2 ^ 63)
    (hne : src ≠ []) (hroom : s.nLen.toNat + src.length ≤ s.nSize.toNat) :
    ∃ s', advanceWritePtr
        (if UInt64.ofNat src.length ≤ (getWritePtr s).nSize1 then
          copyTo s (getWritePtr s).lpPtr1 src
        else copyTo (copyTo s (getWritePtr s).lpPtr1 (src.take (getWritePtr s).nSize1.toNat))
          (getWritePtr s).lpPtr2 (src.drop (getWritePtr s).nSize1.toNat))
        (.ofNat src.length) = (.sOk, s') ∧
      WellFormed (total + src.length) s' ∧ contents s' = contents s ++ src := by
  have hlen : (UInt64.ofNat src.length).toNat = src.length := toNat_ofNat_length (by omega)
  have hpos := List.length_pos_iff.mpr hne
  have hmem : s.lpData ≠ none := by
    intro hnone
    have hsize := hs.nSize_eq_zero.mp hnone
    omega
  obtain ⟨s', hcall, hs', -, hcont⟩ := advanceWritePtr_fill (n := .ofNat src.length) hs
    (by omega) hmem (d := src) (by omega) (by omega)
  rw [hlen] at hs'
  rw [hlen, List.take_length] at hcont
  exact ⟨s', by rw [copy_eq_fill hs (by omega) hroom, hcall], hs', hcont⟩

/-- The size that `Write` asks for. -/
theorem toNat_capacity (hs : WellFormed total s) {n : UInt64}
    (hsum : (s.nLen + n).toNat = s.nLen.toNat + n.toNat) (hbig : s.nLen.toNat + n.toNat < 2 ^ 63)
    (hgrow : s.nSize.toNat < s.nLen.toNat + n.toNat) :
    let nCap := if s.nSize <<< 1 < s.nSize || s.nSize <<< 1 < s.nLen + n then s.nLen + n
      else s.nSize <<< 1
    s.nLen.toNat + n.toNat ≤ nCap.toNat ∧ nCap.toNat ≤ 2 ^ 64 - 4096 := by
  have haligned := hs.aligned
  have hdouble : (s.nSize <<< 1).toNat = 2 * s.nSize.toNat := by
    rw [UInt64.toNat_shiftLeft]
    simp only [UInt64.reduceToNat, Nat.shiftLeft_eq, Nat.reduceMod, Nat.reducePow]
    omega
  simp only [Bool.or_eq_true, decide_eq_true_eq, UInt64.lt_iff_toNat_lt, hdouble, hsum]
  by_cases h : 2 * s.nSize.toNat < s.nSize.toNat ∨ 2 * s.nSize.toNat < s.nLen.toNat + n.toNat
  · rw [if_pos h, hsum]
    omega
  · rw [if_neg h, hdouble]
    omega

/-- **`Write` appends**, when it has room or may make some. -/
theorem write_of_accepts (hs : WellFormed total s) (lpNewData : Nat → Byte) {src : List Byte}
    (htotal : total + src.length < 2 ^ 63) {bExpandIfNeeded : Bool} (hne : src ≠ [])
    (hroom : bExpandIfNeeded = true ∨ s.nLen.toNat + src.length ≤ s.nSize.toNat) :
    ∃ s', write lpNewData s src bExpandIfNeeded = (.sOk, s') ∧
      WellFormed (total + src.length) s' ∧ contents s' = contents s ++ src := by
  have hlen : (UInt64.ofNat src.length).toNat = src.length := toNat_ofNat_length (by omega)
  have hpos := List.length_pos_iff.mpr hne
  have hend := hs.end_le_total
  have hsum : (s.nLen + UInt64.ofNat src.length).toNat = s.nLen.toNat + src.length := by
    rw [UInt64.toNat_add, hlen]
    omega
  have hzero : ¬ (UInt64.ofNat src.length == 0) = true := by
    rw [beq_iff_eq, ← UInt64.toNat_inj, hlen, UInt64.toNat_zero]
    omega
  have hover : ¬ s.nLen + UInt64.ofNat src.length < s.nLen := by
    rw [UInt64.lt_iff_toNat_lt, hsum]
    omega
  unfold write
  simp only [if_neg hzero, if_neg hover]
  by_cases hgrow : s.nLen + UInt64.ofNat src.length > s.nSize
  · have hgrow' := hgrow
    rw [gt_iff_lt, UInt64.lt_iff_toNat_lt, hsum] at hgrow'
    have hexpand : bExpandIfNeeded = true := hroom.resolve_right (by omega)
    have hcap := toNat_capacity (n := .ofNat src.length) hs (by rw [hsum, hlen])
      (by rw [hlen]; omega) (by rw [hlen]; omega)
    simp only at hcap
    rw [hlen] at hcap
    obtain ⟨s1, hcall, hs1, -, hsize, hlen1, hcont⟩ := setBufferSize_of_le hs (by omega) lpNewData
      (n := if s.nSize <<< 1 < s.nSize || s.nSize <<< 1 < s.nLen + UInt64.ofNat src.length then
        s.nLen + UInt64.ofNat src.length else s.nSize <<< 1)
      (by rw [Ne, ← UInt64.toNat_inj, UInt64.toNat_zero]; omega) hcap.2 (by omega)
    obtain ⟨s', hwrite, hs', happend⟩ := write_room hs1 htotal hne (by rw [hlen1]; omega)
    simp only [if_pos hgrow, hexpand, Bool.not_true, Bool.false_eq_true, if_false, hcall,
      HResult.failed_sOk]
    exact ⟨s', hwrite, hs', by rw [happend, hcont]⟩
  · obtain ⟨s', hwrite, hs', happend⟩ := write_room hs htotal hne (by
      rw [gt_iff_lt, UInt64.lt_iff_toNat_lt, hsum] at hgrow
      omega)
    simp only [if_neg hgrow, HResult.failed_sOk, Bool.false_eq_true, if_false]
    exact ⟨s', hwrite, hs', happend⟩

/-- `Write` leaves the buffer alone otherwise. -/
theorem write_of_not_accepts (hs : WellFormed total s) (lpNewData : Nat → Byte) {src : List Byte}
    (htotal : total + src.length < 2 ^ 63) {bExpandIfNeeded : Bool}
    (h : ¬ (src ≠ [] ∧
      (bExpandIfNeeded = true ∨ s.nLen.toNat + src.length ≤ s.nSize.toNat))) :
    (write lpNewData s src bExpandIfNeeded).1.failed = true ∧
      (write lpNewData s src bExpandIfNeeded).2 = s := by
  have hlen : (UInt64.ofNat src.length).toNat = src.length := toNat_ofNat_length (by omega)
  have hend := hs.end_le_total
  have hsum : (s.nLen + UInt64.ofNat src.length).toNat = s.nLen.toNat + src.length := by
    rw [UInt64.toNat_add, hlen]
    omega
  unfold write
  by_cases hne : src = []
  · rw [if_pos (by simp [hne])]
    exact ⟨rfl, rfl⟩
  · rw [not_and, not_or, Bool.not_eq_true] at h
    obtain ⟨hexpand, hroom⟩ := h hne
    have hpos := List.length_pos_iff.mpr hne
    have hzero : ¬ (UInt64.ofNat src.length == 0) = true := by
      rw [beq_iff_eq, ← UInt64.toNat_inj, hlen, UInt64.toNat_zero]
      omega
    have hover : ¬ s.nLen + UInt64.ofNat src.length < s.nLen := by
      rw [UInt64.lt_iff_toNat_lt, hsum]
      omega
    have hgrow : s.nLen + UInt64.ofNat src.length > s.nSize := by
      rw [gt_iff_lt, UInt64.lt_iff_toNat_lt, hsum]
      omega
    simp only [if_neg hzero, if_neg hover, if_pos hgrow, hexpand, Bool.not_false, if_true]
    exact ⟨rfl, rfl⟩

/-- **`EnsureWritableSize` makes room.** -/
theorem ensureWritableSize_spec (hs : WellFormed total s) (lpNewData : Nat → Byte) {nSize : UInt64}
    (htotal : total + nSize.toNat < 2 ^ 63) :
    ∃ s', ensureWritableSize lpNewData s nSize = (.sOk, s') ∧ WellFormed total s' ∧
      contents s' = contents s ∧ nSize.toNat ≤ writable s' := by
  have hsizes := writeSizes hs (by omega)
  have hend := hs.end_le_total
  have hlen := hs.nLen_le
  have hlt := s.nSize.toNat_lt
  have hsum : ((getWritePtr s).nSize1 + (getWritePtr s).nSize2).toNat
      = s.nSize.toNat - s.nLen.toNat := by
    rw [UInt64.toNat_add]
    omega
  unfold ensureWritableSize
  by_cases hroom : nSize ≤ (getWritePtr s).nSize1 + (getWritePtr s).nSize2
  · simp only [if_pos hroom]
    rw [UInt64.le_iff_toNat_le, hsum] at hroom
    exact ⟨s, rfl, hs, rfl, by rw [writable]; omega⟩
  · simp only [if_neg hroom]
    rw [UInt64.le_iff_toNat_le, hsum] at hroom
    have hask : (s.nSize + (nSize - ((getWritePtr s).nSize1 + (getWritePtr s).nSize2))).toNat
        = s.nLen.toNat + nSize.toNat := by
      rw [UInt64.toNat_add, toNat_sub_of_le (by omega), hsum]
      omega
    obtain ⟨s', hcall, hs', -, hsize, hlen', hcont⟩ := setBufferSize_of_le hs (by omega) lpNewData
      (n := s.nSize + (nSize - ((getWritePtr s).nSize1 + (getWritePtr s).nSize2)))
      (by rw [Ne, ← UInt64.toNat_inj, hask, UInt64.toNat_zero]; omega) (by omega) (by omega)
    have hsizes' := writeSizes hs' (by omega)
    exact ⟨s', hcall, hs', hcont, by rw [writable, hsizes', hlen']; omega⟩

/-! ### Runs -/

theorem WellFormed.mono {total' : Nat} (hs : WellFormed total s) (h : total ≤ total') :
    WellFormed total' s :=
  ⟨hs.nSize_eq_zero, hs.aligned, hs.nStart_lt, hs.nLen_le, hs.end_le_total.trans h⟩

theorem WellFormed.shows (hs : WellFormed total s) : Shows (contents s) s := by
  refine ⟨rfl, fun hne => ?_, fun nToScan nStartPos => find_eq hs nToScan nStartPos⟩
  have hsize : s.nSize.toNat ≠ 0 := fun h => hne (UInt64.toNat_inj.mp h)
  have hstart := hs.nStart_lt
  exact ⟨UInt64.lt_iff_toNat_lt.mpr (by omega), UInt64.le_iff_toNat_le.mpr hs.nLen_le⟩

theorem WellFormed.isSome_iff (hs : WellFormed total s) : s.lpData ≠ none ↔ 0 < s.nSize.toNat := by
  rw [Ne, hs.nSize_eq_zero]
  omega

/-- **A call does to the buffer what it does to the queue.** -/
theorem step_refines (hs : WellFormed total s) (lpNewData : Nat → Byte) {c : Call} (hc : c.IsValid)
    (htotal : total + c.size < 2 ^ 63) :
    WellFormed (total + c.size) (step lpNewData s c).2.2 ∧
      contents (step lpNewData s c).2.2
        = queueAfter (contents s) (step lpNewData s c).1.succeeded c ∧
      (step lpNewData s c).2.1 = queueOutput (contents s) c ∧
      ((step lpNewData s c).1.succeeded = true ↔ accepts (contents s) s.nSize.toNat c) ∧
      ∀ nSize, c = .ensureWritableSize nSize → (step lpNewData s c).1.succeeded = true →
        nSize.toNat ≤ writable (step lpNewData s c).2.2 := by
  have hlen := length_contents hs
  cases c with
  | write src bExpandIfNeeded =>
    rw [accepts, hlen]
    by_cases hacc : src ≠ [] ∧ (bExpandIfNeeded = true ∨ s.nLen.toNat + src.length ≤ s.nSize.toNat)
    · obtain ⟨s', hcall, hs', hcont⟩ := write_of_accepts hs lpNewData htotal hacc.1 hacc.2
      simp only [step, hcall]
      exact ⟨hs', hcont, rfl, iff_of_true rfl hacc, nofun⟩
    · obtain ⟨hfailed, hsame⟩ := write_of_not_accepts hs lpNewData htotal hacc
      have hfalse : (write lpNewData s src bExpandIfNeeded).1.succeeded = false := by
        simpa [HResult.failed] using hfailed
      simp only [step, hsame, hfalse]
      exact ⟨hs.mono (Nat.le_add_right _ _), rfl, rfl, iff_of_false Bool.false_ne_true hacc, nofun⟩
  | read nToRead =>
    obtain ⟨hout, hs', -, hcont⟩ := read_spec hs nToRead
    exact ⟨hs', hcont, hout, iff_of_true rfl trivial, nofun⟩
  | peek nToRead => exact ⟨hs, rfl, peek_eq s nToRead, iff_of_true rfl trivial, nofun⟩
  | advanceReadPtr nCount =>
    rw [accepts, hlen, ← hs.isSome_iff]
    by_cases hacc : s.lpData ≠ none ∧ nCount.toNat ≤ s.nLen.toNat
    · obtain ⟨s', hcall, hs', -, hcont⟩ := advanceReadPtr_of_le hs hacc.1 hacc.2
      simp only [step, hcall]
      exact ⟨hs', hcont, rfl, iff_of_true rfl hacc, nofun⟩
    · have hcall : (advanceReadPtr s nCount).1.succeeded = false ∧ (advanceReadPtr s nCount).2 = s := by
        unfold advanceReadPtr
        by_cases hnone : s.lpData = none
        · rw [if_pos (by simp [hnone])]
          exact ⟨rfl, rfl⟩
        · have hgt : nCount > s.nLen := by
            rw [gt_iff_lt, UInt64.lt_iff_toNat_lt]
            by_contra hle
            exact hacc ⟨hnone, by omega⟩
          rw [if_neg (by simpa using hnone), if_pos hgt]
          exact ⟨rfl, rfl⟩
      simp only [step, hcall.1, hcall.2]
      exact ⟨hs, rfl, rfl, iff_of_false Bool.false_ne_true hacc, nofun⟩
  | advanceWritePtr data nCount =>
    obtain ⟨hs', hcont', hsize', hlen', hnone'⟩ :=
      fill_keeps hs (Nat.lt_of_le_of_lt (Nat.le_add_right _ _) htotal) data
    rw [accepts, hlen, ← hs.isSome_iff]
    by_cases hacc : s.lpData ≠ none ∧ s.nLen.toNat + nCount.toNat ≤ s.nSize.toNat
    · rw [Call.size] at htotal
      obtain ⟨s', hcall, hs', -, hcont⟩ :=
        advanceWritePtr_fill hs (by omega) hacc.1 hc hacc.2
      simp only [step, hcall]
      exact ⟨hs', hcont, rfl, iff_of_true rfl hacc, nofun⟩
    · have hcall : (advanceWritePtr (fill s data) nCount).1.succeeded = false ∧
          (advanceWritePtr (fill s data) nCount).2 = fill s data := by
        unfold advanceWritePtr
        by_cases hnone : s.lpData = none
        · rw [if_pos (by simp [hnone'.mpr hnone])]
          exact ⟨rfl, rfl⟩
        · have hgt : nCount > (fill s data).nSize - (fill s data).nLen := by
            rw [hsize', hlen', gt_iff_lt, UInt64.lt_iff_toNat_lt, toNat_room hs]
            by_contra hle
            exact hacc ⟨hnone, by have := hs.nLen_le; omega⟩
          rw [if_neg (by simpa using hnone'.not.mpr hnone), if_pos hgt]
          exact ⟨rfl, rfl⟩
      simp only [step, hcall.1, hcall.2]
      exact ⟨hs'.mono (Nat.le_add_right _ _), hcont', rfl, iff_of_false Bool.false_ne_true hacc,
        nofun⟩
  | ensureWritableSize nSize =>
    obtain ⟨s', hcall, hs', hcont, hroom⟩ := ensureWritableSize_spec hs lpNewData htotal
    simp only [step, hcall]
    refine ⟨hs'.mono (Nat.le_add_right _ _), hcont, rfl, iff_of_true rfl trivial, ?_⟩
    intro n hn _
    rw [Call.ensureWritableSize.injEq] at hn
    rw [← hn]
    exact hroom
  | setBufferSize nSize =>
    rw [accepts, hlen]
    by_cases hle : s.nLen.toNat ≤ nSize.toNat
    · have hsize : nSize.toNat < 2 ^ 63 := by
        rw [Call.size] at htotal
        omega
      obtain ⟨s', hcall, hs', -, -, -, hcont⟩ :=
        setBufferSize_of_le hs (by omega) lpNewData hc (by omega) hle
      simp only [step, hcall]
      exact ⟨hs'.mono (Nat.le_add_right _ _), hcont, rfl, iff_of_true rfl hle, nofun⟩
    · have hcall := setBufferSize_of_lt lpNewData hc hs (Nat.lt_of_not_le hle)
      simp only [step, hcall]
      exact ⟨hs.mono (Nat.le_add_right _ _), rfl, rfl, iff_of_false Bool.false_ne_true hle, nofun⟩

theorem refines_of_wellFormed (hs : WellFormed total s) {calls : List (Call × (Nat → Byte))}
    (hvalid : ∀ c ∈ calls, c.1.IsValid)
    (htotal : total + (calls.map fun c => c.1.size).sum < 2 ^ 63) :
    Refines (contents s) s calls := by
  induction calls generalizing total s with
  | nil => exact hs.shows
  | cons c calls ih =>
    obtain ⟨c, lpNewData⟩ := c
    rw [List.map_cons, List.sum_cons] at htotal
    have hc := hvalid _ List.mem_cons_self
    obtain ⟨hs', hcont, hout, hacc, hroom⟩ := step_refines hs lpNewData hc (by omega)
    refine ⟨hs.shows, hout, hacc, hroom, ?_⟩
    rw [← hcont]
    exact ih hs' (fun c hmem => hvalid c (List.mem_cons_of_mem _ hmem)) (by omega)

/-- **The circular buffer is a queue**, over all calls of a total size below `2^63`. -/
theorem circularBuffer_refines_queue {calls : List (Call × (Nat → Byte))}
    (hvalid : ∀ c ∈ calls, c.1.IsValid) (htotal : (calls.map fun c => c.1.size).sum < 2 ^ 63) :
    Refines [] .new calls :=
  refines_of_wellFormed wellFormed_new hvalid (by rw [Nat.zero_add]; exact htotal)

theorem circularBuffer_refines_queue_small :
    Refines [] .new [(.write [1, 2, 3] true, fun _ => 0), (.read 2, fun _ => 0),
      (.advanceWritePtr [4, 5] 2, fun _ => 0), (.setBufferSize 5000, fun _ => 9)] :=
  circularBuffer_refines_queue (by simp [Call.IsValid]) (by decide)

end CircularBuffer

end MxLib
