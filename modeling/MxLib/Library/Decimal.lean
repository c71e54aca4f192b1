import Mathlib.Algebra.Order.Ring.Nat
import Mathlib.Data.Nat.Basic
import Mathlib.Data.List.Basic

/-!
# Decimal numbers

A digit is the code of its character, so that texts of different characters share the number
they denote.
-/

namespace MxLib.Library.Decimal

def isDigit (c : Nat) : Bool := 0x30 ≤ c && c ≤ 0x39

/-- The number that the digits make when they follow the digits of `n`. -/
def value (n : Nat) (d : List Nat) : Nat := d.foldl (fun n c => 10 * n + (c - 0x30)) n

/-- The digits of a number. -/
def numeral (n : Nat) : List Nat := (Nat.toDigits 10 n).map Char.toNat

@[simp] theorem value_nil (n : Nat) : value n [] = n := rfl

@[simp] theorem value_cons (n c : Nat) (d : List Nat) :
    value n (c :: d) = value (10 * n + (c - 0x30)) d := by
  rw [value, value, List.foldl_cons]

/-- Digits that follow make a number larger. -/
theorem le_value (d : List Nat) : ∀ n, n ≤ value n d := by
  induction d with
  | nil => exact fun n => Nat.le_refl n
  | cons c d ih =>
    intro n
    have hle := ih (10 * n + (c - 0x30))
    rw [value_cons]
    omega

theorem isDigit_iff {c : Nat} : isDigit c = true ↔ 0x30 ≤ c ∧ c ≤ 0x39 := by
  rw [isDigit, Bool.and_eq_true, decide_eq_true_iff, decide_eq_true_iff]

/-- **The digits of a number denote it.** -/
theorem value_numeral (n : Nat) : value 0 (numeral n) = n := by
  have h := Nat.ofDigitChars_toDigits (n := n) (show 1 < 10 by decide) (by decide)
  rw [Nat.ofDigitChars_eq_foldl] at h
  rw [value, numeral, List.foldl_map]
  exact h

theorem numeral_ne_nil (n : Nat) : numeral n ≠ [] := by
  rw [numeral]
  exact fun h => Nat.toDigits_ne_nil (List.map_eq_nil_iff.mp h)

theorem isDigit_numeral (n : Nat) : ∀ c ∈ numeral n, isDigit c = true := by
  intro c hc
  obtain ⟨ch, hch, rfl⟩ := List.mem_map.mp hc
  have h := Nat.isDigit_of_mem_toDigits (by decide) (by decide) hch
  rw [Char.isDigit, Bool.and_eq_true, decide_eq_true_iff, decide_eq_true_iff] at h
  exact isDigit_iff.mpr h

end MxLib.Library.Decimal
