import Mathlib.Algebra.Order.Ring.Nat
import Mathlib.Data.List.TakeDrop
import Mathlib.Logic.Basic

/-!
# Result codes and bytes

The `HRESULT` values the modelled functions return, and the narrow and wide
characters they work on: a `CHAR` is read as the byte it is stored in, a `WCHAR`
as a 16-bit unit.
-/

namespace MxLib

/-- The result codes of the modelled functions.  Everything but `S_OK` and
`S_FALSE` is a failure. -/
inductive HResult
  | sOk | sFalse
  | eFail | eInvalidArg | ePointer | eNotImpl | eOutOfMemory
  | mxInvalidData | mxBadLength | mxUnsupported | mxArithmeticOverflow | mxAlreadyExists
  | mxNoData | mxNotReady | mxWriteFault | mxBusy | mxInvalidState
  | win32DataNotAccepted | win32FileTooLarge | win32ConnReset
  | other (code : Nat)
deriving DecidableEq, Repr

/-- `SUCCEEDED(hRes)` -/
def HResult.succeeded : HResult → Bool
  | .sOk => true
  | .sFalse => true
  | _ => false

/-- `FAILED(hRes)` -/
def HResult.failed (h : HResult) : Bool := !h.succeeded

@[simp] theorem HResult.failed_sOk : HResult.failed .sOk = false := rfl

/-- The code of a call that failed. -/
structure Fault where
  hRes : HResult
  failed : hRes.failed = true

/-- A step of a computation that succeeds. -/
theorem exists_of_bind_ok {ε α β : Type} {x : Except ε α} {f : α → Except ε β} {b : β}
    (h : x >>= f = .ok b) : ∃ a, x = .ok a ∧ f a = .ok b := by
  cases x with
  | error r => cases h
  | ok a => exact ⟨a, rfl, h⟩

theorem exists_of_map_ok {ε α β : Type} {x : Except ε α} {f : α → β} {b : β}
    (h : x.map f = .ok b) : ∃ a, x = .ok a ∧ f a = b := by
  cases x with
  | error r => cases h
  | ok a => exact ⟨a, rfl, Except.ok.inj h⟩

theorem eq_error_of_map {ε α β : Type} {x : Except ε α} {f : α → β} {e : ε}
    (h : x.map f = .error e) : x = .error e := by
  cases x with
  | error e' => exact congrArg Except.error (Except.error.inj h)
  | ok a => cases h

/-- A narrow character, as the byte it is stored in. -/
abbrev Byte := UInt8

/-- A property of all bytes can be checked one by one, by their two digits. -/
theorem forall_byte {P : Byte → Prop} (h : ∀ m < 16, ∀ n < 16, P (UInt8.ofNat (16 * m + n)))
    (ch : Byte) : P ch := by
  have hlt := ch.toNat_lt
  have hch := h (ch.toNat / 16) (by omega) (ch.toNat % 16) (Nat.mod_lt _ (by decide))
  rwa [Nat.div_add_mod, UInt8.ofNat_toNat] at hch

/-- A wide character. -/
abbrev WChar := UInt16

/-- The bytes of an ASCII literal. -/
def ascii (s : String) : List Byte := s.toList.map fun c => UInt8.ofNat c.toNat

/-- The units of a wide ASCII literal. -/
def wide (s : String) : List WChar := s.toList.map fun c => UInt16.ofNat c.toNat

/-- A literal is the list of its characters. -/
theorem ascii_eq_map {s : String} {l : List Char} (h : String.ofList l = s) :
    ascii s = l.map fun c => UInt8.ofNat c.toNat := by
  rw [ascii, ← h, String.toList_ofList]

theorem toList_utf8Encode (l : List Char) :
    l.utf8Encode.data.toList = l.flatMap String.utf8EncodeChar :=
  List.toList_data_toByteArray

/-- A character whose encoding has ASCII bytes only is its one byte. -/
theorem utf8EncodeChar_of_ascii {c : Char} (h : ∀ b ∈ String.utf8EncodeChar c, b < 0x80) :
    String.utf8EncodeChar c = [UInt8.ofNat c.toNat] := by
  have hlast : ¬ UInt8.ofNat (c.val.toNat % 0x40 + 0x80) < 0x80 := by
    rw [UInt8.lt_iff_toNat_lt, UInt8.toNat_ofNat', Nat.mod_eq_of_lt (by omega)]
    exact Nat.not_lt.mpr (Nat.le_add_left _ _)
  rw [String.utf8EncodeChar] at h ⊢
  split_ifs at h ⊢
  · rfl
  all_goals exact absurd (h _ (by simp only [List.mem_cons, true_or, or_true])) hlast

/-- A string of ASCII bytes is stored as it is encoded. -/
theorem ascii_eq_bytes {s : String} (h : ∀ b ∈ s.toByteArray.data.toList, b < 0x80) :
    ascii s = s.toByteArray.data.toList := by
  rw [← String.utf8Encode_toList, toList_utf8Encode] at h ⊢
  rw [ascii]
  generalize s.toList = l at h
  induction l with
  | nil => rfl
  | cons c l ih =>
    rw [List.flatMap_cons] at h ⊢
    rw [List.map_cons, utf8EncodeChar_of_ascii fun b hb => h b (List.mem_append_left _ hb),
      ih fun b hb => h b (List.mem_append_right _ hb)]
    rfl

end MxLib
