import MxLib.Library.Blocks
import MxLib.Strings.Strings

/-!
# The buffer of a string

`CStringA` and `CStringW` keep their characters in a block that grows, with a zero behind the last
one.  Whatever calls are made, the characters are those of the list that the same operations make,
and no copy leaves the block (`run_holds`).

A cell of a new block holds nothing (`none`) until it is written.  Sizes and lengths are numbers
below `2 ^ 64`, and so are the counts of bytes that a copy or an allocation is called with.
-/

namespace MxLib.Buffer

open MxLib.Library

/-- The two classes. -/
inductive CharKind
  | ansi | wide
deriving DecidableEq, Repr

/-- `sizeof(CHAR)` and `sizeof(WCHAR)` -/
def CharKind.size : CharKind → Nat
  | .ansi => 1
  | .wide => 2

/-- How many characters there are in the bytes that a call for `n` characters is made with. -/
def CharKind.cells (kind : CharKind) (n : Nat) : Nat := n * kind.size % 2 ^ 64 / kind.size

/-- The members of `CStringA` or `CStringW`. -/
structure CString (α : Type) where
  szStr : Option (List (Option α))
  nSize : Nat
  nLen : Nat

namespace CString

variable {α : Type}

/-- What the constructors leave, and `Empty`. -/
def empty : CString α := ⟨none, 0, 0⟩

/-- `X_ALIGN(x, 256)` -/
def align (x : Nat) : Nat := (x + 255) % 2 ^ 64 / 256 * 256

/-- `MX_MALLOC` -/
def malloc (α : Type) (n : Nat) : List (Option α) := List.replicate n none

/-- `nCount` characters from the start of the string. -/
def readFront (szStr : Option (List (Option α))) (nCount : Nat) : Option (List (Option α)) :=
  match szStr with
  | none => if nCount = 0 then some [] else none
  | some block => Blocks.read block 0 nCount

section Calls

variable [OfNat α 0] (kind : CharKind)

/-- `EnsureBuffer`; `none` is an access outside a block. -/
def ensureBuffer (s : CString α) (nChars : Nat) (bAlloc : Bool) : Option (Bool × CString α) :=
  let nChars := (nChars + 1) % 2 ^ 64
  if nChars ≥ s.nSize then
    let nOrigLen := s.nLen
    let nChars := if s.nSize > 0 then align nChars else nChars
    if bAlloc then do
      let szNewStr := malloc α (kind.cells nChars)
      let chars ← readFront s.szStr (kind.cells s.nLen)
      let szNewStr ← Blocks.write szNewStr 0 chars
      let szNewStr ← Blocks.write szNewStr nOrigLen [some 0]
      some (true, ⟨some szNewStr, nChars, nOrigLen⟩)
    else some (false, s)
  else some (true, s)

/-- `ConcatN` -/
def concatN (s : CString α) (szSrc : Option (List α)) (nSrcLen : Nat) (bAlloc : Bool) :
    Option (Bool × CString α) :=
  if nSrcLen = 0 then some (true, s)
  else
    match szSrc with
    | none => some (false, s)
    | some szSrc =>
      if (s.nLen + nSrcLen + 1) % 2 ^ 64 < s.nLen then some (false, s)
      else
        match s.ensureBuffer kind ((s.nLen + nSrcLen + 1) % 2 ^ 64) bAlloc with
        | none => none
        | some (false, s) => some (false, s)
        | some (true, s) => do
          let szStr ← s.szStr
          let chars ← Blocks.read szSrc 0 (kind.cells nSrcLen)
          let szStr ← Blocks.write szStr s.nLen (chars.map some)
          let nLen := (s.nLen + nSrcLen) % 2 ^ 64
          let szStr ← Blocks.write szStr nLen [some 0]
          some (true, { s with szStr := some szStr, nLen })

/-- `CopyN` -/
def copyN (_ : CString α) (szSrc : Option (List α)) (nSrcLen : Nat) (bAlloc : Bool) :
    Option (Bool × CString α) := empty.concatN kind szSrc nSrcLen bAlloc

/-- `InsertN` -/
def insertN (s : CString α) (szSrc : Option (List α)) (nInsertPosition nSrcLen : Nat)
    (bAlloc : Bool) : Option (Bool × CString α) :=
  if nSrcLen = 0 then some (true, s)
  else
    match szSrc with
    | none => some (false, s)
    | some szSrc =>
      if (s.nLen + nSrcLen + 1) % 2 ^ 64 < s.nLen then some (false, s)
      else
        match s.ensureBuffer kind ((s.nLen + nSrcLen + 1) % 2 ^ 64) bAlloc with
        | none => none
        | some (false, s) => some (false, s)
        | some (true, s) => do
          let nInsertPosition := if nInsertPosition > s.nLen then s.nLen else nInsertPosition
          let szStr ← s.szStr
          let szStr ← Blocks.move szStr (nInsertPosition + nSrcLen) nInsertPosition
            (kind.cells (s.nLen - nInsertPosition))
          let chars ← Blocks.read szSrc 0 (kind.cells nSrcLen)
          let szStr ← Blocks.write szStr nInsertPosition (chars.map some)
          let nLen := (s.nLen + nSrcLen) % 2 ^ 64
          let szStr ← Blocks.write szStr nLen [some 0]
          some (true, { s with szStr := some szStr, nLen })

/-- Where `Delete` returns at once: `CStringW` takes the place behind the last character too. -/
def isOutside (nStartChar nLen : Nat) : Bool :=
  match kind with
  | .ansi => decide (nStartChar ≥ nLen)
  | .wide => decide (nStartChar > nLen)

/-- `Delete` -/
def delete (s : CString α) (nStartChar nChars : Nat) : Option (CString α) :=
  if s.nLen > 0 then
    if isOutside kind nStartChar s.nLen then some s
    else do
      let nChars :=
        if (nStartChar + nChars) % 2 ^ 64 > s.nLen ∨
            (nStartChar + nChars) % 2 ^ 64 < nStartChar then
          s.nLen - nStartChar
        else nChars
      let k := s.nLen - nChars - nStartChar
      let nLen := s.nLen - nChars
      let szStr ← s.szStr
      let szStr ← Blocks.move szStr nStartChar (nStartChar + nChars) (kind.cells k)
      let szStr ← Blocks.write szStr nLen [some 0]
      some { s with szStr := some szStr, nLen }
  else some s

end Calls

end CString

/-! ### Histories -/

/-- A call.  A null pointer is `none`. -/
inductive Op (α : Type)
  | copyN (szSrc : Option (List α)) (nSrcLen : Nat)
  | concatN (szSrc : Option (List α)) (nSrcLen : Nat)
  | insertN (szSrc : Option (List α)) (nInsertPosition nSrcLen : Nat)
  | delete (nStartChar nChars : Nat)
  | empty
  | ensureBuffer (nChars : Nat)

section Histories

variable {α : Type}

/-- The characters that are taken from a source, none of a null pointer. -/
def taken (szSrc : Option (List α)) (nSrcLen : Nat) : List α := (szSrc.getD []).take nSrcLen

/-- What a call means for the list of the characters, which is what a string is elsewhere. -/
def Op.apply : Op α → List α → List α
  | .copyN szSrc nSrcLen, _ => taken szSrc nSrcLen
  | .concatN szSrc nSrcLen, l => l ++ taken szSrc nSrcLen
  | .insertN szSrc nInsertPosition nSrcLen, l =>
    insertStr l nInsertPosition (taken szSrc nSrcLen)
  | .delete nStartChar nChars, l => deleteStr l nStartChar nChars
  | .empty, _ => []
  | .ensureBuffer _, l => l

/-- What a call returns: it fails for a null pointer with a length. -/
def Op.result : Op α → Bool
  | .copyN szSrc nSrcLen => nSrcLen == 0 || szSrc.isSome
  | .concatN szSrc nSrcLen => nSrcLen == 0 || szSrc.isSome
  | .insertN szSrc _ nSrcLen => nSrcLen == 0 || szSrc.isSome
  | _ => true

/-- A source has the characters that are taken, and lengths stay below `2 ^ 60`. -/
def Op.Valid (l : List α) : Op α → Prop
  | .copyN szSrc nSrcLen => nSrcLen < 2 ^ 60 ∧ ∀ src, szSrc = some src → nSrcLen ≤ src.length
  | .concatN szSrc nSrcLen =>
    l.length + nSrcLen < 2 ^ 60 ∧ ∀ src, szSrc = some src → nSrcLen ≤ src.length
  | .insertN szSrc _ nSrcLen =>
    l.length + nSrcLen < 2 ^ 60 ∧ ∀ src, szSrc = some src → nSrcLen ≤ src.length
  | .delete nStartChar nChars => nStartChar < 2 ^ 64 ∧ nChars < 2 ^ 64
  | .empty => True
  | .ensureBuffer nChars => nChars < 2 ^ 60

def Valid (l : List α) : List (Op α) → Prop
  | [] => True
  | op :: ops => op.Valid l ∧ Valid (op.apply l) ops

variable [OfNat α 0] (kind : CharKind)

/-- A call where the allocations succeed. -/
def CString.call (s : CString α) : Op α → Option (Bool × CString α)
  | .copyN szSrc nSrcLen => s.copyN kind szSrc nSrcLen true
  | .concatN szSrc nSrcLen => s.concatN kind szSrc nSrcLen true
  | .insertN szSrc nInsertPosition nSrcLen => s.insertN kind szSrc nInsertPosition nSrcLen true
  | .delete nStartChar nChars => (s.delete kind nStartChar nChars).map fun s => (true, s)
  | .empty => some (true, CString.empty)
  | .ensureBuffer nChars => s.ensureBuffer kind nChars true

/-- The results of the calls and the string in the end. -/
def CString.run (s : CString α) : List (Op α) → Option (List Bool × CString α)
  | [] => some ([], s)
  | op :: ops => do
    let (bRes, s) ← s.call kind op
    let (results, s) ← s.run ops
    some (bRes :: results, s)

end Histories

end MxLib.Buffer
