import Mathlib.Data.Nat.Basic
import MxLib.Memory

/-!
# Memory streams

`CMemoryStream`.  The block is a function from the index to the byte, as in `Memory`, of which
`nAllocated` bytes belong to the stream.  A call that may allocate is given what `MX_MALLOC` and
`MX_REALLOC` return: `none` is a failure, and a new block holds anything.  A copy that leaves the
block gives no result.

The stream stands for a byte array with a cursor (`contents`, `nCurrPos`).  Each call does to them
what its name says (`Does`) as long as no write starts behind the end of the array and leaves the
block, and no end of a write wraps around.
-/

namespace MxLib

/-- `CMemoryStream` -/
structure MemoryStream where
  lpData : Nat → Byte
  nCurrPos : UInt64
  nSize : UInt64
  nAllocated : UInt64
  nGranularity : UInt64
  bCanGrow : Bool

namespace MemoryStream

/-- `SIZE_T_MAX` and `ULONGLONG_MAX` -/
def uInt64Max : UInt64 := 0xFFFFFFFFFFFFFFFF

/-- `MX_E_EndOfFileReached` -/
def mxEndOfFileReached : HResult := .other 0x80070026

/-- `CStream::eSeekMethod` -/
inductive SeekMethod
  | start | current | fromEnd
deriving DecidableEq, Repr

/-! ### The calls -/

/-- The granularity that the constructor takes for the one it is given. -/
def granularity (nAllocationGranularity : UInt64) : UInt64 :=
  if nAllocationGranularity < 0x100 then 0x100
  else if nAllocationGranularity > 0x1000000 then 0x1000000
  else
    let n := nAllocationGranularity - 1
    let n := n ||| (n >>> 1)
    let n := n ||| (n >>> 2)
    let n := n ||| (n >>> 4)
    let n := n ||| (n >>> 8)
    let n := n ||| (n >>> 16)
    n + 1

/-- The constructor. -/
def new (nAllocationGranularity : UInt64) : MemoryStream where
  lpData := fun _ => 0
  nCurrPos := 0
  nSize := 0
  nAllocated := 0
  nGranularity := granularity nAllocationGranularity
  bCanGrow := false

/-- `Close` -/
def close (s : MemoryStream) : MemoryStream :=
  { s with lpData := fun _ => 0, nCurrPos := 0, nSize := 0, nAllocated := 0 }

/-- `EnsureSize` -/
def ensureSize (s : MemoryStream) (nRequiredSize : UInt64) (lpNewData : Option (Nat → Byte)) :
    Bool × MemoryStream :=
  if nRequiredSize > s.nAllocated then
    let nRequiredSize :=
      if nRequiredSize < uInt64Max - s.nGranularity then
        (nRequiredSize + s.nGranularity - 1) &&& ~~~(s.nGranularity - 1)
      else nRequiredSize
    match lpNewData with
    | none => (false, s)
    | some lpNewData =>
      (true, { s with
        lpData := fun k => if k < s.nAllocated.toNat then s.lpData k else lpNewData k
        nAllocated := nRequiredSize })
  else (true, s)

/-- `Create` -/
def create (s : MemoryStream) (nInitialSize : UInt64) (bGrowable : Bool)
    (lpNewData : Option (Nat → Byte)) : HResult × MemoryStream :=
  let s := s.close
  if nInitialSize > 0 then
    let (bRet, s) := s.ensureSize nInitialSize lpNewData
    if !bRet then (.eOutOfMemory, s) else (.sOk, { s with bCanGrow := bGrowable })
  else (.sOk, { s with bCanGrow := bGrowable })

/-- What a call gives back: its result code, the count of bytes, and what is copied to `lpDest`. -/
structure Reply where
  hRes : HResult
  nBytesDone : UInt64
  lpDest : List Byte

/-- The copy of `Read` from a position in the block. -/
def readAt (s : MemoryStream) (nBytes nStartOffset nReadPos : UInt64) :
    Option (Reply × MemoryStream) :=
  let nBytes := if nBytes > s.nSize - nReadPos then s.nSize - nReadPos else nBytes
  if nReadPos.toNat + nBytes.toNat ≤ s.nAllocated.toNat then
    some (⟨.sOk, nBytes, readBytes (fun k => s.lpData (nReadPos.toNat + k)) nBytes.toNat⟩,
      { s with nCurrPos := if nStartOffset = uInt64Max then s.nCurrPos + nBytes else s.nCurrPos })
  else none

/-- `Read`; `bDest` is false for a null pointer. -/
def read (s : MemoryStream) (bDest : Bool) (nBytes nStartOffset : UInt64) :
    Option (Reply × MemoryStream) :=
  if !bDest then some (⟨.ePointer, 0, []⟩, s)
  else if nStartOffset = uInt64Max then
    if s.nCurrPos ≥ s.nSize then some (⟨mxEndOfFileReached, 0, []⟩, s)
    else s.readAt nBytes nStartOffset s.nCurrPos
  else if nStartOffset ≥ s.nSize then some (⟨mxEndOfFileReached, 0, []⟩, s)
  else s.readAt nBytes nStartOffset nStartOffset

/-- The copy of `Write` to a position in the block. -/
def writeAt (s : MemoryStream) (lpSrc : Nat → Byte) (nBytes nStartOffset nWritePos : UInt64) :
    Option (Reply × MemoryStream) :=
  if nWritePos.toNat + nBytes.toNat ≤ s.nAllocated.toNat then
    some (⟨.sOk, nBytes, []⟩, { s with
      lpData := memCopy s.lpData nWritePos.toNat (readBytes lpSrc nBytes.toNat)
      nCurrPos := if nStartOffset = uInt64Max then s.nCurrPos + nBytes else s.nCurrPos
      nSize := if s.nSize < nWritePos + nBytes then nWritePos + nBytes else s.nSize })
  else none

/-- Where a call starts: at the cursor or at the offset it is given. -/
def startPos (s : MemoryStream) (nStartOffset : UInt64) : UInt64 :=
  if nStartOffset = uInt64Max then s.nCurrPos else nStartOffset

/-- `Write`; the source is a function from the index to the byte. -/
def write (s : MemoryStream) (lpSrc : Option (Nat → Byte)) (nBytes nStartOffset : UInt64)
    (lpNewData : Option (Nat → Byte)) : Option (Reply × MemoryStream) :=
  if nBytes = 0 then some (⟨.sOk, 0, []⟩, s)
  else
    match lpSrc with
    | none => some (⟨.ePointer, 0, []⟩, s)
    | some lpSrc =>
      -- no offset is above `SIZE_T_MAX`, which has 64 bits too
      let nWritePos := s.startPos nStartOffset
      if nBytes > s.nSize - nWritePos then
        if s.bCanGrow then
          let (bRet, s) := s.ensureSize (nWritePos + nBytes) lpNewData
          if !bRet then some (⟨.eOutOfMemory, 0, []⟩, s)
          else s.writeAt lpSrc nBytes nStartOffset nWritePos
        else s.writeAt lpSrc (s.nSize - nWritePos) nStartOffset nWritePos
      else s.writeAt lpSrc nBytes nStartOffset nWritePos

/-- `Seek` -/
def seek (s : MemoryStream) (nPosition : UInt64) (nMethod : SeekMethod) : HResult × MemoryStream :=
  match nMethod with
  | .start => (.sOk, { s with nCurrPos := if nPosition > s.nSize then s.nSize else nPosition })
  | .current =>
    if 0 ≤ nPosition.toInt64 then
      let nPosition :=
        if nPosition > s.nSize - s.nCurrPos then s.nSize - s.nCurrPos else nPosition
      (.sOk, { s with nCurrPos := nPosition + s.nCurrPos })
    else
      let nPosition := ~~~nPosition + 1
      if nPosition > s.nCurrPos then (.eFail, s)
      else (.sOk, { s with nCurrPos := s.nCurrPos - nPosition })
  | .fromEnd =>
    let nPosition := if nPosition > s.nSize then s.nSize else nPosition
    (.sOk, { s with nCurrPos := s.nSize - nPosition })

/-- A call with its arguments. -/
inductive Call
  | create (nInitialSize : UInt64) (bGrowable : Bool) (lpNewData : Option (Nat → Byte))
  | write (lpSrc : Option (Nat → Byte)) (nBytes nStartOffset : UInt64)
      (lpNewData : Option (Nat → Byte))
  | read (bDest : Bool) (nBytes nStartOffset : UInt64)
  | seek (nPosition : UInt64) (nMethod : SeekMethod)

/-- What a call gives back and the stream after it; `none` is a copy that leaves the block. -/
def call (s : MemoryStream) : Call → Option (Reply × MemoryStream)
  | .create nInitialSize bGrowable lpNewData =>
    let (hRes, s) := s.create nInitialSize bGrowable lpNewData
    some (⟨hRes, 0, []⟩, s)
  | .write lpSrc nBytes nStartOffset lpNewData => s.write lpSrc nBytes nStartOffset lpNewData
  | .read bDest nBytes nStartOffset => s.read bDest nBytes nStartOffset
  | .seek nPosition nMethod =>
    let (hRes, s) := s.seek nPosition nMethod
    some (⟨hRes, 0, []⟩, s)

/-- The allocation of a call succeeds. -/
def Call.Allocates : Call → Prop
  | .create _ _ lpNewData => lpNewData.isSome
  | .write _ _ _ lpNewData => lpNewData.isSome
  | .read _ _ _ => True
  | .seek _ _ => True

/-! ### What the calls are for -/

/-- The byte array that the stream stands for. -/
def contents (s : MemoryStream) : List Byte := readBytes s.lpData s.nSize.toNat

/-- The sizes and the cursor are in order. -/
structure InOrder (s : MemoryStream) : Prop where
  nSize_le : s.nSize.toNat ≤ s.nAllocated.toNat
  nCurrPos_le : s.nCurrPos.toNat ≤ s.nSize.toNat

/-- **What `Write` does**: the source is put where the write starts, nothing else of the block
changes, the array grows as far as needed, and the cursor moves if the write starts there. -/
structure Writes (s : MemoryStream) (lpSrc : Option (Nat → Byte)) (nBytes nStartOffset : UInt64)
    (r : Reply) (s' : MemoryStream) : Prop where
  nBytesDone_le : r.nBytesDone.toNat ≤ nBytes.toNat
  complete : s.bCanGrow = true → lpSrc.isSome → r.nBytesDone = nBytes
  source : ∀ src, lpSrc = some src → ∀ k < r.nBytesDone.toNat,
    s'.lpData ((s.startPos nStartOffset).toNat + k) = src k
  unchanged : ∀ k < s.nAllocated.toNat, (k < (s.startPos nStartOffset).toNat ∨
    (s.startPos nStartOffset).toNat + r.nBytesDone.toNat ≤ k) → s'.lpData k = s.lpData k
  nSize_eq : s'.nSize.toNat = if r.nBytesDone = 0 then s.nSize.toNat
    else max s.nSize.toNat ((s.startPos nStartOffset).toNat + r.nBytesDone.toNat)
  nCurrPos_eq : s'.nCurrPos.toNat = s.nCurrPos.toNat +
    if nStartOffset = uInt64Max then r.nBytesDone.toNat else 0
  bCanGrow_eq : s'.bCanGrow = s.bCanGrow

/-- **What `Read` does**: it gives the bytes of the array where it starts, and moves the cursor
only if it starts there. -/
structure Reads (s : MemoryStream) (bDest : Bool) (nBytes nStartOffset : UInt64) (r : Reply)
    (s' : MemoryStream) : Prop where
  lpDest_eq : r.lpDest = if bDest = true then
    (s.contents.drop (s.startPos nStartOffset).toNat).take nBytes.toNat else []
  nBytesDone_eq : r.nBytesDone.toNat = r.lpDest.length
  nCurrPos_eq : s'.nCurrPos.toNat = s.nCurrPos.toNat +
    if nStartOffset = uInt64Max then r.lpDest.length else 0
  rest_eq : s' = { s with nCurrPos := s'.nCurrPos }

/-- Where `Seek` moves the cursor of an array of a length, if it can. -/
def seekTo (nLength nCursor : Nat) (nPosition : UInt64) : SeekMethod → Option Nat
  | .start => some (min nPosition.toNat nLength)
  | .current =>
    let n := nCursor + nPosition.toInt64.toInt
    if n < 0 then none else some (min n.toNat nLength)
  | .fromEnd => some (nLength - nPosition.toNat)

/-- **What each call does** to the array and its cursor. -/
def Does (s : MemoryStream) (c : Call) (r : Reply) (s' : MemoryStream) : Prop :=
  match c with
  | .create _ bGrowable _ => s'.nCurrPos = 0 ∧ s'.contents = [] ∧ s'.bCanGrow = bGrowable
  | .write lpSrc nBytes nStartOffset _ => Writes s lpSrc nBytes nStartOffset r s'
  | .read bDest nBytes nStartOffset => Reads s bDest nBytes nStartOffset r s'
  | .seek nPosition nMethod =>
    s' = { s with nCurrPos := s'.nCurrPos } ∧ s'.nCurrPos.toNat =
      (seekTo s.nSize.toNat s.nCurrPos.toNat nPosition nMethod).getD s.nCurrPos.toNat

/-- A run that is right: before and after every call the stream is in order, every copy stays
inside the block, and every call does what it is for. -/
def RunsRight (s : MemoryStream) : List Call → Prop
  | [] => InOrder s
  | c :: calls => InOrder s ∧ ∃ r s', s.call c = some (r, s') ∧ Does s c r s' ∧ RunsRight s' calls

/-- The call does not write behind the end of the array, unless there is room in the block, and no
end of a write that lets the stream grow wraps around. -/
def Within (s : MemoryStream) : Call → Prop
  | .write (some _) nBytes nStartOffset _ =>
    nBytes = 0 ∨
      ((s.startPos nStartOffset).toNat ≤ s.nSize.toNat ∧
        (s.bCanGrow = true → (s.startPos nStartOffset).toNat + nBytes.toNat < 2 ^ 64)) ∨
      (s.startPos nStartOffset).toNat + nBytes.toNat ≤ s.nAllocated.toNat
  | _ => True

/-- Every call of a run is within. -/
def RunsWithin (s : MemoryStream) : List Call → Prop
  | [] => True
  | c :: calls => Within s c ∧ ∀ r s', s.call c = some (r, s') → RunsWithin s' calls

/-! ### Room in the block -/

/-- What the proofs about a stream start from. -/
structure Sound (s : MemoryStream) : Prop extends InOrder s where
  le_nGranularity : 0x100 ≤ s.nGranularity.toNat
  nGranularity_le : s.nGranularity.toNat ≤ 0x1000000

theorem or_shiftRight_bounds {x : UInt64} (k : UInt64) (h : 0xFF ≤ x.toNat ∧ x.toNat < 2 ^ 24) :
    0xFF ≤ (x ||| (x >>> k)).toNat ∧ (x ||| (x >>> k)).toNat < 2 ^ 24 := by
  rw [UInt64.toNat_or, UInt64.toNat_shiftRight]
  have hshift : x.toNat >>> (k.toNat % 64) < 2 ^ 24 :=
    Nat.lt_of_le_of_lt (Nat.shiftRight_le _ _) h.2
  exact ⟨Nat.le_trans h.1 Nat.left_le_or, Nat.or_lt_two_pow h.2 hshift⟩

theorem granularity_bounds (n : UInt64) :
    0x100 ≤ (granularity n).toNat ∧ (granularity n).toNat ≤ 0x1000000 := by
  unfold granularity
  split
  case isTrue => decide
  case isFalse hlow =>
    split
    case isTrue => decide
    case isFalse hhigh =>
      rw [gt_iff_lt, UInt64.lt_iff_toNat_lt] at hhigh
      rw [UInt64.lt_iff_toNat_lt] at hlow
      have hpred : (n - 1).toNat = n.toNat - 1 := by
        rw [UInt64.toNat_sub_of_le _ _ (by rw [UInt64.le_iff_toNat_le]; simp at hlow ⊢; omega)]
        rfl
      have hstart : 0xFF ≤ (n - 1).toNat ∧ (n - 1).toNat < 2 ^ 24 := by
        simp at hlow hhigh
        omega
      have hend := or_shiftRight_bounds 16 (or_shiftRight_bounds 8 (or_shiftRight_bounds 4
        (or_shiftRight_bounds 2 (or_shiftRight_bounds 1 hstart))))
      simp only [UInt64.toNat_add]
      simp only [UInt64.reduceToNat]
      omega

theorem new_sound (n : UInt64) : Sound (new n) where
  nSize_le := Nat.le_refl 0
  nCurrPos_le := Nat.le_refl 0
  le_nGranularity := (granularity_bounds n).1
  nGranularity_le := (granularity_bounds n).2

/-- Clearing the bits of a mask takes no more than the mask from a number. -/
theorem le_and_not (x m : UInt64) : x.toNat ≤ (x &&& ~~~m).toNat + m.toNat := by
  have hor : (x.toBitVec &&& ~~~m.toBitVec) ||| (x.toBitVec &&& m.toBitVec) = x.toBitVec := by
    ext i hi
    simp only [BitVec.getElem_or, BitVec.getElem_and, BitVec.getElem_not]
    cases x.toBitVec[i] <;> cases m.toBitVec[i] <;> rfl
  have hadd : (x.toBitVec &&& ~~~m.toBitVec) + (x.toBitVec &&& m.toBitVec) = x.toBitVec := by
    rw [BitVec.add_eq_or_of_and_eq_zero, hor]
    ext i hi
    simp only [BitVec.getElem_and, BitVec.getElem_not, BitVec.getElem_zero]
    cases x.toBitVec[i] <;> cases m.toBitVec[i] <;> rfl
  have hsum := congrArg BitVec.toNat hadd
  rw [BitVec.toNat_add, BitVec.toNat_and x.toBitVec m.toBitVec] at hsum
  have hmod := Nat.mod_le ((x.toBitVec &&& ~~~m.toBitVec).toNat +
    (x.toBitVec.toNat &&& m.toBitVec.toNat)) (2 ^ 64)
  have hmask : x.toBitVec.toNat &&& m.toBitVec.toNat ≤ m.toBitVec.toNat := Nat.and_le_right
  change x.toBitVec.toNat ≤ (x.toBitVec &&& ~~~m.toBitVec).toNat + m.toBitVec.toNat
  omega

/-- **`EnsureSize` makes room** and keeps what is in the block. -/
theorem ensureSize_spec {s : MemoryStream} (hs : Sound s) (nRequiredSize : UInt64)
    (lpNewData : Nat → Byte) :
    ∃ lpData nAllocated,
      s.ensureSize nRequiredSize (some lpNewData) = (true, { s with lpData, nAllocated }) ∧
      nRequiredSize.toNat ≤ nAllocated.toNat ∧ s.nAllocated.toNat ≤ nAllocated.toNat ∧
      ∀ k < s.nAllocated.toNat, lpData k = s.lpData k := by
  have hlow := hs.le_nGranularity
  have hhigh := hs.nGranularity_le
  unfold ensureSize
  split
  case isFalse hroom =>
    rw [gt_iff_lt, UInt64.lt_iff_toNat_lt] at hroom
    exact ⟨s.lpData, s.nAllocated, rfl, Nat.not_lt.mp hroom, Nat.le_refl _, fun _ _ => rfl⟩
  case isTrue hgrow =>
    rw [gt_iff_lt, UInt64.lt_iff_toNat_lt] at hgrow
    have hround : nRequiredSize.toNat ≤ (if nRequiredSize < uInt64Max - s.nGranularity then
        (nRequiredSize + s.nGranularity - 1) &&& ~~~(s.nGranularity - 1)
        else nRequiredSize).toNat := by
      split
      case isFalse => exact Nat.le_refl _
      case isTrue hfits =>
        have hone : (1 : UInt64).toNat = 1 := rfl
        have hmax : (uInt64Max - s.nGranularity).toNat = 2 ^ 64 - 1 - s.nGranularity.toNat :=
          UInt64.toNat_sub_of_le _ _ (UInt64.le_iff_toNat_le.mpr (by
            change s.nGranularity.toNat ≤ 2 ^ 64 - 1
            omega))
        rw [UInt64.lt_iff_toNat_lt, hmax] at hfits
        have hadd : (nRequiredSize + s.nGranularity).toNat =
            nRequiredSize.toNat + s.nGranularity.toNat := by
          rw [UInt64.toNat_add]
          omega
        have hsum : (nRequiredSize + s.nGranularity - 1).toNat =
            nRequiredSize.toNat + s.nGranularity.toNat - 1 := by
          rw [UInt64.toNat_sub_of_le _ _ (by rw [UInt64.le_iff_toNat_le]; omega), hadd, hone]
        have hmask : (s.nGranularity - 1).toNat = s.nGranularity.toNat - 1 := by
          rw [UInt64.toNat_sub_of_le _ _ (by rw [UInt64.le_iff_toNat_le]; omega), hone]
        have hclear := le_and_not (nRequiredSize + s.nGranularity - 1) (s.nGranularity - 1)
        omega
    refine ⟨_, _, rfl, hround, Nat.le_trans (Nat.le_of_lt hgrow) hround, fun k hk => if_pos hk⟩

/-! ### Writes -/

theorem memCopy_readBytes {buf src : Nat → Byte} {n o : Nat} :
    (∀ k < n, memCopy buf o (readBytes src n) (o + k) = src k) ∧
    ∀ k, k < o ∨ o + n ≤ k → memCopy buf o (readBytes src n) k = buf k := by
  constructor
  · intro k hk
    rw [memCopy, length_readBytes, if_pos (by omega), Nat.add_sub_cancel_left,
      List.getD_eq_getElem?_getD, getElem?_readBytes hk]
    rfl
  · intro k hk
    rw [memCopy, length_readBytes, if_neg (by omega)]

/-- A copy that stays inside a block that holds the block from before is a write. -/
theorem writeAt_within {s : MemoryStream} (hs : Sound s) {lpData : Nat → Byte}
    {nAllocated nBytes nBytes' nStartOffset : UInt64} (lpSrc : Nat → Byte)
    (hdata : ∀ k < s.nAllocated.toNat, lpData k = s.lpData k)
    (halloc : s.nAllocated.toNat ≤ nAllocated.toNat) (hle : nBytes'.toNat ≤ nBytes.toNat)
    (hgrow : s.bCanGrow = true → nBytes' = nBytes)
    (hzero : nBytes' = 0 → (s.startPos nStartOffset).toNat ≤ s.nSize.toNat)
    (hroom : (s.startPos nStartOffset).toNat + nBytes'.toNat ≤ nAllocated.toNat) :
    ∃ r s', writeAt { s with lpData, nAllocated } lpSrc nBytes' nStartOffset
        (s.startPos nStartOffset) = some (r, s') ∧
      Writes s (some lpSrc) nBytes nStartOffset r s' ∧ Sound s' := by
  have hend : (s.startPos nStartOffset + nBytes').toNat =
      (s.startPos nStartOffset).toNat + nBytes'.toNat := by
    have hlt := nAllocated.toNat_lt
    rw [UInt64.toNat_add]
    omega
  have hsize : (if s.nSize < s.startPos nStartOffset + nBytes' then
      s.startPos nStartOffset + nBytes' else s.nSize).toNat =
        max s.nSize.toNat ((s.startPos nStartOffset).toNat + nBytes'.toNat) := by
    split
    case isTrue h =>
      rw [UInt64.lt_iff_toNat_lt, hend] at h
      omega
    case isFalse h =>
      rw [UInt64.lt_iff_toNat_lt, hend] at h
      omega
  have hpos : (if nStartOffset = uInt64Max then s.nCurrPos + nBytes' else s.nCurrPos).toNat =
      s.nCurrPos.toNat + if nStartOffset = uInt64Max then nBytes'.toNat else 0 := by
    by_cases hcursor : nStartOffset = uInt64Max
    · rw [startPos, if_pos hcursor] at hend
      rw [if_pos hcursor, if_pos hcursor, hend]
    · rw [if_neg hcursor, if_neg hcursor]
      rfl
  have hcopy := @memCopy_readBytes lpData lpSrc nBytes'.toNat (s.startPos nStartOffset).toNat
  have hin := hs.nSize_le
  have hcurr := hs.nCurrPos_le
  refine ⟨_, _, if_pos hroom, ⟨hle, fun h _ => hgrow h, ?_, ?_, ?_, hpos, rfl⟩, ⟨⟨?_, ?_⟩,
    hs.le_nGranularity, hs.nGranularity_le⟩⟩
  · intro src hsrc k hk
    obtain rfl := Option.some.inj hsrc
    exact hcopy.1 k hk
  · intro k hk hout
    exact (hcopy.2 k hout).trans (hdata k hk)
  · refine hsize.trans ?_
    split
    case isTrue h =>
      have hp := hzero h
      rw [show nBytes' = 0 from h]
      change max _ ((s.startPos nStartOffset).toNat + 0) = _
      omega
    case isFalse => rfl
  · refine Nat.le_trans (Nat.le_of_eq hsize) ?_
    change _ ≤ nAllocated.toNat
    omega
  · refine Nat.le_trans (Nat.le_of_eq hpos) (Nat.le_trans ?_ (Nat.le_of_eq hsize.symm))
    split
    case isTrue hcursor =>
      rw [startPos, if_pos hcursor]
      omega
    case isFalse => omega

/-- A call that writes nothing. -/
theorem Writes.nothing {s : MemoryStream} {lpSrc : Option (Nat → Byte)}
    {nBytes nStartOffset : UInt64} {hRes : HResult} (h : lpSrc.isSome → nBytes = 0) :
    Writes s lpSrc nBytes nStartOffset ⟨hRes, 0, []⟩ s where
  nBytesDone_le := Nat.zero_le _
  complete := fun _ hsrc => (h hsrc).symm
  source := fun _ _ k hk => absurd hk (Nat.not_lt_zero k)
  unchanged := fun _ _ _ => rfl
  nSize_eq := rfl
  nCurrPos_eq := by
    change s.nCurrPos.toNat = s.nCurrPos.toNat + if nStartOffset = uInt64Max then 0 else 0
    split <;> rfl
  bCanGrow_eq := rfl

/-- The room behind a position, which wraps around for one behind the end of the array. -/
theorem toNat_room (s : MemoryStream) (p : UInt64) :
    (s.nSize - p).toNat = if p.toNat ≤ s.nSize.toNat then s.nSize.toNat - p.toNat
      else 2 ^ 64 + s.nSize.toNat - p.toNat := by
  have hp := p.toNat_lt
  have hsize := s.nSize.toNat_lt
  rw [UInt64.toNat_sub]
  split <;> omega

/-- **A write that is within does what it is for.** -/
theorem write_within {s : MemoryStream} (hs : Sound s) {lpSrc : Option (Nat → Byte)}
    {nBytes nStartOffset : UInt64} {lpNewData : Option (Nat → Byte)} (hnew : lpNewData.isSome)
    (h : Within s (.write lpSrc nBytes nStartOffset lpNewData)) :
    ∃ r s', s.write lpSrc nBytes nStartOffset lpNewData = some (r, s') ∧
      Writes s lpSrc nBytes nStartOffset r s' ∧ Sound s' := by
  unfold write
  by_cases hempty : nBytes = 0
  · rw [if_pos hempty]
    exact ⟨_, s, rfl, Writes.nothing fun _ => hempty, hs⟩
  rw [if_neg hempty]
  cases lpSrc with
  | none => exact ⟨_, s, rfl, Writes.nothing nofun, hs⟩
  | some src =>
    have hin := hs.nSize_le
    have hroom := toNat_room s (s.startPos nStartOffset)
    have hwithin := h.resolve_left hempty
    have hlt := nBytes.toNat_lt
    simp only
    split
    case isFalse hfits =>
      rw [gt_iff_lt, UInt64.lt_iff_toNat_lt, hroom] at hfits
      refine writeAt_within hs src (fun _ _ => rfl) (Nat.le_refl _) (Nat.le_refl _) (fun _ => rfl)
        (fun hzero => absurd hzero hempty) ?_
      rcases hwithin with ⟨hle, -⟩ | hle
      · rw [if_pos hle] at hfits
        omega
      · exact hle
    case isTrue hmore =>
      rw [gt_iff_lt, UInt64.lt_iff_toNat_lt, hroom] at hmore
      have hle : (s.startPos nStartOffset).toNat ≤ s.nSize.toNat := by
        rcases hwithin with ⟨hle, -⟩ | hle
        · exact hle
        · by_contra hgt
          rw [if_neg hgt] at hmore
          have hmax := s.nAllocated.toNat_lt
          omega
      rw [if_pos hle] at hroom hmore
      cases hgrow : s.bCanGrow with
      | false =>
        refine writeAt_within hs src (fun _ _ => rfl) (Nat.le_refl _) ?_ ?_ (fun _ => hle) ?_
        · omega
        · rw [hgrow]
          nofun
        · omega
      | true =>
        obtain ⟨lpData, nAllocated, hensure, hneed, halloc, hdata⟩ :=
          ensureSize_spec hs (s.startPos nStartOffset + nBytes) (lpNewData.get hnew)
        rw [Option.some_get] at hensure
        have hend : (s.startPos nStartOffset).toNat + nBytes.toNat < 2 ^ 64 := by
          rcases hwithin with ⟨-, hlt⟩ | hle
          · exact hlt hgrow
          · exact Nat.lt_of_le_of_lt hle s.nAllocated.toNat_lt
        rw [UInt64.toNat_add, Nat.mod_eq_of_lt hend] at hneed
        simp only [if_true, hensure]
        exact writeAt_within hs src hdata halloc (Nat.le_refl _) (fun _ => rfl)
          (fun hzero => absurd hzero hempty) hneed

theorem writeAt_outside {s : MemoryStream} {lpSrc : Nat → Byte}
    {nBytes nStartOffset nWritePos : UInt64}
    (h : ¬ nWritePos.toNat + nBytes.toNat ≤ s.nAllocated.toNat) :
    s.writeAt lpSrc nBytes nStartOffset nWritePos = none := if_neg h

/-- **A write that is not within leaves the block.** -/
theorem write_outside {s : MemoryStream} (hs : Sound s) {lpSrc : Option (Nat → Byte)}
    {nBytes nStartOffset : UInt64} {lpNewData : Option (Nat → Byte)} (hnew : lpNewData.isSome)
    (h : ¬ Within s (.write lpSrc nBytes nStartOffset lpNewData)) :
    s.write lpSrc nBytes nStartOffset lpNewData = none := by
  cases lpSrc with
  | none => exact absurd trivial h
  | some src =>
    have hnot : nBytes ≠ 0 ∧ ¬ ((s.startPos nStartOffset).toNat ≤ s.nSize.toNat ∧
        (s.bCanGrow = true → (s.startPos nStartOffset).toNat + nBytes.toNat < 2 ^ 64)) ∧
        ¬ (s.startPos nStartOffset).toNat + nBytes.toNat ≤ s.nAllocated.toNat := by
      simpa only [Within, not_or] using h
    obtain ⟨hempty, hbehind, hleaves⟩ := hnot
    have hin := hs.nSize_le
    have hroom := toNat_room s (s.startPos nStartOffset)
    have hmax := s.nAllocated.toNat_lt
    unfold write
    rw [if_neg hempty]
    simp only
    split
    case isFalse hfits => exact writeAt_outside hleaves
    case isTrue hmore =>
      rw [gt_iff_lt, UInt64.lt_iff_toNat_lt, hroom] at hmore
      cases hgrow : s.bCanGrow with
      | false =>
        have hgt : ¬ (s.startPos nStartOffset).toNat ≤ s.nSize.toNat :=
          fun hle => hbehind ⟨hle, by rw [hgrow]; nofun⟩
        rw [if_neg hgt] at hroom
        exact writeAt_outside (by omega)
      | true =>
        obtain ⟨lpData, nAllocated, hensure, -⟩ :=
          ensureSize_spec hs (s.startPos nStartOffset + nBytes) (lpNewData.get hnew)
        rw [Option.some_get] at hensure
        simp only [if_true, hensure]
        have hend : 2 ^ 64 ≤ (s.startPos nStartOffset).toNat + nBytes.toNat := by
          by_cases hle : (s.startPos nStartOffset).toNat ≤ s.nSize.toNat
          · exact Nat.not_lt.mp fun hlt => hbehind ⟨hle, fun _ => hlt⟩
          · rw [if_neg hle] at hmore
            omega
        have hnewMax := nAllocated.toNat_lt
        exact writeAt_outside (by change ¬ _ ≤ nAllocated.toNat; omega)

/-! ### The other calls -/

theorem create_spec {s : MemoryStream} (hs : Sound s) (nInitialSize : UInt64) (bGrowable : Bool)
    {lpNewData : Option (Nat → Byte)} (hnew : lpNewData.isSome) :
    Does s (.create nInitialSize bGrowable lpNewData) ⟨(s.create nInitialSize bGrowable lpNewData).1,
        0, []⟩ (s.create nInitialSize bGrowable lpNewData).2 ∧
      Sound (s.create nInitialSize bGrowable lpNewData).2 := by
  have hclose : Sound s.close :=
    ⟨⟨Nat.le_refl 0, Nat.le_refl 0⟩, hs.le_nGranularity, hs.nGranularity_le⟩
  unfold create
  simp only
  split
  case isFalse =>
    exact ⟨⟨rfl, rfl, rfl⟩, ⟨⟨Nat.le_refl 0, Nat.le_refl 0⟩, hs.le_nGranularity, hs.nGranularity_le⟩⟩
  case isTrue =>
    obtain ⟨lpData, nAllocated, hensure, -⟩ :=
      ensureSize_spec hclose nInitialSize (lpNewData.get hnew)
    rw [Option.some_get] at hensure
    rw [hensure]
    exact ⟨⟨rfl, rfl, rfl⟩, ⟨⟨Nat.zero_le _, Nat.le_refl 0⟩, hs.le_nGranularity, hs.nGranularity_le⟩⟩

@[simp] theorem length_contents (s : MemoryStream) : s.contents.length = s.nSize.toNat :=
  length_readBytes _ _

/-- The bytes at a position of the block are those of the array. -/
theorem readBytes_eq_contents {s : MemoryStream} {p n : Nat} (h : p + n ≤ s.nSize.toNat) :
    readBytes (fun k => s.lpData (p + k)) n = (s.contents.drop p).take n := by
  apply List.ext_getElem?
  intro k
  by_cases hk : k < n
  · rw [getElem?_readBytes hk, List.getElem?_take_of_lt hk, List.getElem?_drop, contents,
      getElem?_readBytes (by omega)]
  · rw [List.getElem?_eq_none (by simp; omega), List.getElem?_eq_none (by simp; omega)]

theorem readAt_spec {s : MemoryStream} (hs : Sound s) {nBytes nStartOffset : UInt64}
    (h : (s.startPos nStartOffset).toNat ≤ s.nSize.toNat) :
    ∃ r s', s.readAt nBytes nStartOffset (s.startPos nStartOffset) = some (r, s') ∧
      Reads s true nBytes nStartOffset r s' ∧ Sound s' := by
  have hin := hs.nSize_le
  have hcurr := hs.nCurrPos_le
  have hroom := toNat_room s (s.startPos nStartOffset)
  rw [if_pos h] at hroom
  obtain ⟨n, hn⟩ : ∃ n, n = if nBytes > s.nSize - s.startPos nStartOffset then
    s.nSize - s.startPos nStartOffset else nBytes := ⟨_, rfl⟩
  have hmin : n.toNat = min nBytes.toNat (s.nSize.toNat - (s.startPos nStartOffset).toNat) := by
    rw [hn]
    split
    case isTrue hgt =>
      rw [gt_iff_lt, UInt64.lt_iff_toNat_lt, hroom] at hgt
      omega
    case isFalse hle =>
      rw [gt_iff_lt, UInt64.lt_iff_toNat_lt, hroom] at hle
      omega
  have hdata : readBytes (fun k => s.lpData ((s.startPos nStartOffset).toNat + k)) n.toNat =
      (s.contents.drop (s.startPos nStartOffset).toNat).take nBytes.toNat := by
    rw [readBytes_eq_contents (by omega), List.take_eq_take_iff, List.length_drop, length_contents]
    omega
  have hpos : (if nStartOffset = uInt64Max then s.nCurrPos + n else s.nCurrPos).toNat =
      s.nCurrPos.toNat + if nStartOffset = uInt64Max then n.toNat else 0 := by
    have hlt := s.nSize.toNat_lt
    by_cases hcursor : nStartOffset = uInt64Max
    · rw [startPos, if_pos hcursor] at hmin
      rw [if_pos hcursor, if_pos hcursor, UInt64.toNat_add]
      omega
    · rw [if_neg hcursor, if_neg hcursor]
      rfl
  unfold readAt
  rw [← hn]
  refine ⟨_, _, if_pos (by omega), ⟨hdata, ?_, ?_, rfl⟩, ⟨⟨hin, ?_⟩, hs.le_nGranularity,
    hs.nGranularity_le⟩⟩
  · exact (length_readBytes _ _).symm
  · rw [length_readBytes]
    exact hpos
  · refine Nat.le_trans (Nat.le_of_eq hpos) ?_
    change s.nCurrPos.toNat + (if nStartOffset = uInt64Max then n.toNat else 0) ≤ s.nSize.toNat
    split
    case isTrue hcursor =>
      rw [startPos, if_pos hcursor] at hmin
      omega
    case isFalse => exact hcurr

/-- A call that reads nothing. -/
theorem Reads.nothing {s : MemoryStream} {bDest : Bool} {nBytes nStartOffset : UInt64}
    {hRes : HResult} (h : bDest = true → s.nSize.toNat ≤ (s.startPos nStartOffset).toNat) :
    Reads s bDest nBytes nStartOffset ⟨hRes, 0, []⟩ s where
  lpDest_eq := by
    split
    case isTrue hdest => rw [List.drop_eq_nil_of_le (by simpa using h hdest), List.take_nil]
    case isFalse => rfl
  nBytesDone_eq := rfl
  nCurrPos_eq := by split <;> rfl
  rest_eq := rfl

theorem read_spec {s : MemoryStream} (hs : Sound s) (bDest : Bool) (nBytes nStartOffset : UInt64) :
    ∃ r s', s.read bDest nBytes nStartOffset = some (r, s') ∧
      Reads s bDest nBytes nStartOffset r s' ∧ Sound s' := by
  unfold read
  cases bDest with
  | false => exact ⟨_, s, rfl, Reads.nothing nofun, hs⟩
  | true =>
    have hread := fun h => @readAt_spec s hs nBytes nStartOffset h
    rw [if_neg (by decide)]
    split
    case isTrue hcursor =>
      rw [startPos, if_pos hcursor] at hread
      split
      case isTrue hend =>
        refine ⟨_, s, rfl, Reads.nothing fun _ => ?_, hs⟩
        rw [startPos, if_pos hcursor]
        exact UInt64.le_iff_toNat_le.mp hend
      case isFalse hin => exact hread hs.nCurrPos_le
    case isFalse hcursor =>
      rw [startPos, if_neg hcursor] at hread
      split
      case isTrue hend =>
        refine ⟨_, s, rfl, Reads.nothing fun _ => ?_, hs⟩
        rw [startPos, if_neg hcursor]
        exact UInt64.le_iff_toNat_le.mp hend
      case isFalse hin =>
        rw [ge_iff_le, UInt64.le_iff_toNat_le] at hin
        exact hread (Nat.le_of_not_le hin)

/-- Moving the cursor to a place in the array. -/
theorem Sound.moveTo {s : MemoryStream} (hs : Sound s) {nCurrPos : UInt64}
    (h : nCurrPos.toNat ≤ s.nSize.toNat) : Sound { s with nCurrPos } :=
  ⟨⟨hs.nSize_le, h⟩, hs.le_nGranularity, hs.nGranularity_le⟩

theorem toNat_min (a b : UInt64) : (if a > b then b else a).toNat = min a.toNat b.toNat := by
  split
  case isTrue h =>
    rw [gt_iff_lt, UInt64.lt_iff_toNat_lt] at h
    omega
  case isFalse h =>
    rw [gt_iff_lt, UInt64.lt_iff_toNat_lt] at h
    omega

theorem toInt_toInt64 (n : UInt64) :
    n.toInt64.toInt = if n.toNat < 2 ^ 63 then (n.toNat : Int) else n.toNat - 2 ^ 64 := by
  have hcond := BitVec.toInt_eq_toNat_cond n.toBitVec
  change n.toInt64.toInt = if 2 * n.toNat < 2 ^ 64 then (n.toNat : Int) else n.toNat - 2 ^ 64 at hcond
  rw [hcond]
  split <;> split <;> omega

theorem seek_spec {s : MemoryStream} (hs : Sound s) (nPosition : UInt64) (nMethod : SeekMethod) :
    (s.seek nPosition nMethod).2 = { s with nCurrPos := (s.seek nPosition nMethod).2.nCurrPos } ∧
    (s.seek nPosition nMethod).2.nCurrPos.toNat =
      (seekTo s.nSize.toNat s.nCurrPos.toNat nPosition nMethod).getD s.nCurrPos.toNat ∧
    Sound (s.seek nPosition nMethod).2 := by
  have hcurr := hs.nCurrPos_le
  have hmax := s.nSize.toNat_lt
  cases nMethod with
  | start =>
    have hto := toNat_min nPosition s.nSize
    exact ⟨rfl, hto, hs.moveTo (by omega)⟩
  | fromEnd =>
    have hto : (s.nSize - if nPosition > s.nSize then s.nSize else nPosition).toNat =
        s.nSize.toNat - nPosition.toNat := by
      have hmin := toNat_min nPosition s.nSize
      rw [UInt64.toNat_sub_of_le _ _ (UInt64.le_iff_toNat_le.mpr (by omega))]
      omega
    exact ⟨rfl, hto, hs.moveTo (by omega)⟩
  | current =>
    have hint := toInt_toInt64 nPosition
    have hlt := nPosition.toNat_lt
    have hsign : 0 ≤ nPosition.toInt64 ↔ nPosition.toNat < 2 ^ 63 := by
      rw [Int64.le_iff_toInt_le, hint, Int64.toInt_zero]
      split <;> omega
    unfold seek seekTo
    simp only
    by_cases hfront : nPosition.toNat < 2 ^ 63
    · rw [if_pos hfront] at hint
      have hahead : ¬ (s.nCurrPos.toNat : Int) + nPosition.toNat < 0 := by omega
      rw [if_pos (hsign.mpr hfront), hint, if_neg hahead]
      have hto : ((if nPosition > s.nSize - s.nCurrPos then s.nSize - s.nCurrPos else nPosition) +
          s.nCurrPos).toNat = min (s.nCurrPos.toNat + nPosition.toNat) s.nSize.toNat := by
        have hmin := toNat_min nPosition (s.nSize - s.nCurrPos)
        rw [toNat_room, if_pos hcurr] at hmin
        rw [UInt64.toNat_add]
        omega
      refine ⟨rfl, hto.trans ?_, hs.moveTo (by omega)⟩
      rw [Option.getD_some]
      omega
    · rw [if_neg hfront] at hint
      have hback : (~~~nPosition + 1).toNat = 2 ^ 64 - nPosition.toNat := by
        rw [UInt64.toNat_add, UInt64.toNat_not]
        change (2 ^ 64 - 1 - nPosition.toNat + 1) % 2 ^ 64 = _
        omega
      rw [if_neg (fun h => hfront (hsign.mp h)), hint]
      split
      case isTrue hfar =>
        rw [gt_iff_lt, UInt64.lt_iff_toNat_lt, hback] at hfar
        rw [if_pos (by omega)]
        exact ⟨rfl, rfl, hs⟩
      case isFalse hnear =>
        rw [gt_iff_lt, UInt64.lt_iff_toNat_lt, hback] at hnear
        rw [if_neg (by omega)]
        have hto : (s.nCurrPos - (~~~nPosition + 1)).toNat =
            s.nCurrPos.toNat - (2 ^ 64 - nPosition.toNat) := by
          rw [UInt64.toNat_sub_of_le _ _ (UInt64.le_iff_toNat_le.mpr (by omega)), hback]
        refine ⟨rfl, hto.trans ?_, hs.moveTo (by omega)⟩
        rw [Option.getD_some]
        omega

/-! ### Runs -/

/-- **A call that is within does what it is for**, and leaves the stream in order. -/
theorem call_within {s : MemoryStream} (hs : Sound s) {c : Call} (hc : c.Allocates)
    (h : Within s c) : ∃ r s', s.call c = some (r, s') ∧ Does s c r s' ∧ Sound s' := by
  cases c with
  | create nInitialSize bGrowable lpNewData =>
    exact ⟨_, _, rfl, create_spec hs nInitialSize bGrowable hc⟩
  | write lpSrc nBytes nStartOffset lpNewData => exact write_within hs hc h
  | read bDest nBytes nStartOffset => exact read_spec hs bDest nBytes nStartOffset
  | seek nPosition nMethod =>
    obtain ⟨hrest, hto, hsound⟩ := seek_spec hs nPosition nMethod
    exact ⟨_, _, rfl, ⟨hrest, hto⟩, hsound⟩

theorem call_outside {s : MemoryStream} (hs : Sound s) {c : Call} (hc : c.Allocates)
    (h : ¬ Within s c) : s.call c = none := by
  cases c with
  | create nInitialSize bGrowable lpNewData => exact absurd trivial h
  | write lpSrc nBytes nStartOffset lpNewData => exact write_outside hs hc h
  | read bDest nBytes nStartOffset => exact absurd trivial h
  | seek nPosition nMethod => exact absurd trivial h

/-- **The stream is a byte array with a cursor in exactly the runs whose writes are within**: they
start inside the array or have room in the block, and do not wrap around. -/
theorem runsRight_iff (nAllocationGranularity : UInt64) {calls : List Call}
    (hcalls : ∀ c ∈ calls, c.Allocates) :
    RunsRight (new nAllocationGranularity) calls ↔
      RunsWithin (new nAllocationGranularity) calls := by
  have hrun : ∀ s, Sound s → (RunsRight s calls ↔ RunsWithin s calls) := by
    induction calls with
    | nil => exact fun s hs => ⟨fun _ => trivial, fun _ => hs.toInOrder⟩
    | cons c calls ih =>
      intro s hs
      have hc := hcalls c List.mem_cons_self
      have ih := ih fun c hc => hcalls c (List.mem_cons_of_mem _ hc)
      by_cases hwithin : Within s c
      · obtain ⟨r, s', hcall, hdoes, hs'⟩ := call_within hs hc hwithin
        constructor
        · rintro ⟨-, r₁, s₁, hcall₁, -, hright⟩
          refine ⟨hwithin, fun r₂ s₂ hcall₂ => ?_⟩
          obtain ⟨rfl, rfl⟩ := Prod.mk.inj (Option.some.inj (hcall.symm.trans hcall₁))
          obtain ⟨rfl, rfl⟩ := Prod.mk.inj (Option.some.inj (hcall.symm.trans hcall₂))
          exact (ih s' hs').mp hright
        · rintro ⟨-, hrest⟩
          exact ⟨hs.toInOrder, r, s', hcall, hdoes, (ih s' hs').mpr (hrest r s' hcall)⟩
      · constructor
        · rintro ⟨-, r₁, s₁, hcall₁, -, -⟩
          rw [call_outside hs hc hwithin] at hcall₁
          cases hcall₁
        · exact fun h => absurd h.1 hwithin
  exact hrun _ (new_sound nAllocationGranularity)

/-- One byte is written and read again. -/
theorem runsRight_iff_one :
    (∀ c ∈ [Call.create 16 true (some fun _ => 0), .write (some fun _ => 0x41) 1 0 (some fun _ => 0),
      .read true 1 0], c.Allocates) ∧
    (RunsRight (new 65536) [.create 16 true (some fun _ => 0),
        .write (some fun _ => 0x41) 1 0 (some fun _ => 0), .read true 1 0] ↔
      RunsWithin (new 65536) [.create 16 true (some fun _ => 0),
        .write (some fun _ => 0x41) 1 0 (some fun _ => 0), .read true 1 0]) := by
  have hcalls : ∀ c ∈ [Call.create 16 true (some fun _ => 0),
      .write (some fun _ => 0x41) 1 0 (some fun _ => 0), .read true 1 0], c.Allocates := by
    simp [Call.Allocates]
  exact ⟨hcalls, runsRight_iff 65536 hcalls⟩

/-- A byte written behind the end of an empty array is copied to where there is no block. -/
theorem not_runsRight_gap :
    ¬ RunsRight (new 65536) [.create 0 true (some fun _ => 0),
      .write (some fun _ => 0x41) 1 1 (some fun _ => 0)] := by
  rintro ⟨-, r, s, hcreate, -, -, r', s', hwrite, -⟩
  obtain ⟨rfl, rfl⟩ := Prod.mk.inj (Option.some.inj hcreate)
  have hnone : ((create (new 65536) 0 true (some fun _ => 0)).2.write (some fun _ => 0x41) 1 1
      (some fun _ => 0)).isSome = false := by decide
  rw [show (create (new 65536) 0 true (some fun _ => 0)).2.write (some fun _ => 0x41) 1 1
    (some fun _ => 0) = some (r', s') from hwrite] at hnone
  cases hnone

end MemoryStream

end MxLib
