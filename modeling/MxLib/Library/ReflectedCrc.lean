import Mathlib.Algebra.Order.Ring.Nat
import Mathlib.Data.List.Basic

/-!
# Reflected cyclic redundancy checks

The register of a reflected CRC of any width and any polynomial, fed with one bit of the message
at a time.  Shifting is linear, so that several bits can be fed at once, and the part of the
register they fall on can come from a table.
-/

namespace MxLib.Library.ReflectedCrc

section Register

variable {w : Nat} (poly : BitVec w)

/-- One place to the right; the polynomial comes in when a set bit falls out. -/
def shift (r : BitVec w) : BitVec w := if r.getLsbD 0 then (r >>> 1) ^^^ poly else r >>> 1

def shifts : Nat → BitVec w → BitVec w
  | 0, r => r
  | n + 1, r => shifts n (shift poly r)

def bitWord (w : Nat) (b : Bool) : BitVec w := (BitVec.ofBool b).setWidth w

/-- The register after one more bit of the message. -/
def feed (r : BitVec w) (b : Bool) : BitVec w := shift poly (r ^^^ bitWord w b)

def run (r : BitVec w) (message : List Bool) : BitVec w := message.foldl (feed poly) r

/-- The check value of a message. -/
def crc (initial final : BitVec w) (message : List Bool) : BitVec w :=
  run poly initial message ^^^ final

/-- The first bit of the list is the lowest one. -/
def word (w : Nat) : List Bool → BitVec w
  | [] => 0
  | b :: bs => bitWord w b ^^^ (word w bs <<< 1)

def bits {n : Nat} (x : BitVec n) : List Bool := (List.range n).map x.getLsbD

end Register

section Words

theorem getLsbD_bitWord (w : Nat) (b : Bool) (i : Nat) :
    (bitWord w b).getLsbD i = (decide (i < w) && decide (i = 0) && b) := by
  unfold bitWord
  rw [BitVec.getLsbD_setWidth, BitVec.getLsbD_ofBool]
  cases b <;> simp

theorem getLsbD_word (w : Nat) (bs : List Bool) :
    ∀ i, (word w bs).getLsbD i = (decide (i < w) && bs.getD i false) := by
  induction bs with
  | nil => intro i; simp [word]
  | cons b bs ih =>
      intro i
      rw [word, BitVec.getLsbD_xor, getLsbD_bitWord, BitVec.getLsbD_shiftLeft, ih]
      cases i with
      | zero => simp
      | succ i => by_cases hi : i + 1 < w <;> simp [hi]; omega

theorem word_bits {n : Nat} (w : Nat) (x : BitVec n) : word w (bits x) = x.setWidth w := by
  apply BitVec.eq_of_getLsbD_eq
  intro i hi
  rw [getLsbD_word, BitVec.getLsbD_setWidth]
  by_cases hin : i < n
  · simp [bits, hin, List.getD]
  · have hx : x.getLsbD i = false := BitVec.getLsbD_of_ge x i (by omega)
    have hout : (bits x)[i]? = none :=
      List.getElem?_eq_none (by simp [bits]; omega)
    simp [List.getD, hout, hx]

theorem length_bits {n : Nat} (x : BitVec n) : (bits x).length = n := by simp [bits]

end Words

section Shifting

variable {w : Nat} (poly : BitVec w)

theorem shift_xor (x y : BitVec w) : shift poly (x ^^^ y) = shift poly x ^^^ shift poly y := by
  unfold shift
  rw [BitVec.getLsbD_xor, BitVec.ushiftRight_xor_distrib]
  cases x.getLsbD 0 <;> cases y.getLsbD 0
  · rfl
  · exact BitVec.xor_assoc _ _ _
  · show x >>> 1 ^^^ y >>> 1 ^^^ poly = x >>> 1 ^^^ poly ^^^ y >>> 1
    rw [BitVec.xor_assoc, BitVec.xor_comm (y >>> 1), ← BitVec.xor_assoc]
  · show x >>> 1 ^^^ y >>> 1 = x >>> 1 ^^^ poly ^^^ (y >>> 1 ^^^ poly)
    rw [BitVec.xor_assoc, BitVec.xor_comm (y >>> 1) poly, ← BitVec.xor_assoc poly,
      BitVec.xor_self, BitVec.zero_xor]

theorem shifts_xor (n : Nat) :
    ∀ x y : BitVec w, shifts poly n (x ^^^ y) = shifts poly n x ^^^ shifts poly n y := by
  induction n with
  | zero => intro x y; rfl
  | succ n ih =>
      intro x y
      rw [shifts, shift_xor, ih]
      rfl

theorem shift_of_clear {r : BitVec w} (h : r.getLsbD 0 = false) : shift poly r = r >>> 1 := by
  simp [shift, h]

/-- Bits that do not reach the end only move. -/
theorem shifts_of_clear (n : Nat) :
    ∀ r : BitVec w, (∀ i < n, r.getLsbD i = false) → shifts poly n r = r >>> n := by
  induction n with
  | zero => intro r _; simp [shifts]
  | succ n ih =>
      intro r hr
      have hlow : ∀ i < n, (r >>> 1).getLsbD i = false := by
        intro i hi
        rw [BitVec.getLsbD_ushiftRight]
        exact hr (1 + i) (by omega)
      rw [shifts, shift_of_clear poly (hr 0 (by omega)), ih _ hlow, ← BitVec.shiftRight_add,
        Nat.add_comm]

/-- The register comes apart into its `n` lowest bits, which go through the polynomial, and the
others, which only move. -/
theorem shifts_eq_low_xor (n : Nat) (r : BitVec w) :
    shifts poly n r = shifts poly n (r &&& BitVec.setWidth w (BitVec.allOnes n)) ^^^ r >>> n := by
  have hsplit : r = (r &&& BitVec.setWidth w (BitVec.allOnes n)) ^^^
      (r &&& ~~~ BitVec.setWidth w (BitVec.allOnes n)) := by
    apply BitVec.eq_of_getLsbD_eq
    intro i hi
    simp only [BitVec.getLsbD_xor, BitVec.getLsbD_and, BitVec.getLsbD_not, hi, decide_true,
      Bool.true_and]
    cases r.getLsbD i <;>
      cases (BitVec.setWidth w (BitVec.allOnes n)).getLsbD i <;> rfl
  have hclear : ∀ i < n,
      (r &&& ~~~ BitVec.setWidth w (BitVec.allOnes n)).getLsbD i = false := by
    intro i hi
    by_cases hw : i < w <;> simp [hi, hw]
  have hmove : (r &&& ~~~ BitVec.setWidth w (BitVec.allOnes n)) >>> n = r >>> n := by
    apply BitVec.eq_of_getLsbD_eq
    intro i _
    by_cases hw : n + i < w
    · simp [BitVec.getLsbD_ushiftRight, hw]
    · have hr : r.getLsbD (n + i) = false := BitVec.getLsbD_of_ge r _ (by omega)
      simp [BitVec.getLsbD_ushiftRight, hw, hr]
  calc shifts poly n r
      = shifts poly n (r &&& BitVec.setWidth w (BitVec.allOnes n)) ^^^
          shifts poly n (r &&& ~~~ BitVec.setWidth w (BitVec.allOnes n)) := by
        rw [← shifts_xor, ← hsplit]
    _ = _ := by rw [shifts_of_clear poly n _ hclear, hmove]

end Shifting

section Messages

variable {w : Nat} (poly : BitVec w)

@[simp] theorem run_nil (r : BitVec w) : run poly r [] = r := rfl

theorem run_append (r : BitVec w) (xs ys : List Bool) :
    run poly r (xs ++ ys) = run poly (run poly r xs) ys := List.foldl_append

theorem shift_shiftLeft {x : BitVec w} (h : x.getLsbD (w - 1) = false) :
    shift poly (x <<< 1) = x := by
  have hclear : (x <<< 1).getLsbD 0 = false := by simp
  rw [shift_of_clear poly hclear]
  apply BitVec.eq_of_getLsbD_eq
  intro i hi
  rw [BitVec.getLsbD_ushiftRight, BitVec.getLsbD_shiftLeft]
  by_cases htop : 1 + i < w
  · simp [htop]
  · have he : i = w - 1 := by omega
    subst he
    simp [h, htop]

/-- As many bits as the register has can be fed at once. -/
theorem run_eq_shifts (bs : List Bool) :
    ∀ r : BitVec w, bs.length ≤ w → run poly r bs = shifts poly bs.length (r ^^^ word w bs) := by
  induction bs with
  | nil => intro r _; simp [shifts, word]
  | cons b bs ih =>
      intro r hlen
      have hshort : bs.length + 1 ≤ w := hlen
      have htop : (word w bs).getLsbD (w - 1) = false := by
        rw [getLsbD_word, List.getD_eq_getElem?_getD,
          List.getElem?_eq_none (show bs.length ≤ w - 1 by omega)]
        exact Bool.and_false _
      have hshift : shift poly (r ^^^ word w (b :: bs)) = feed poly r b ^^^ word w bs := by
        rw [word, ← BitVec.xor_assoc, shift_xor, shift_shiftLeft poly htop]
        rfl
      calc run poly r (b :: bs)
          = run poly (feed poly r b) bs := rfl
        _ = shifts poly bs.length (feed poly r b ^^^ word w bs) := ih _ (by omega)
        _ = shifts poly (bs.length + 1) (r ^^^ word w (b :: bs)) := by rw [← hshift]; rfl

/-- `n` bits of the message at once, through a table of `2 ^ n` entries. -/
theorem run_bits {n : Nat} (hn : n ≤ w) (r : BitVec w) (x : BitVec n) :
    run poly r (bits x) =
      shifts poly n ((r ^^^ x.setWidth w) &&& BitVec.setWidth w (BitVec.allOnes n)) ^^^
        r >>> n := by
  have hmove : (r ^^^ x.setWidth w) >>> n = r >>> n := by
    apply BitVec.eq_of_getLsbD_eq
    intro i _
    simp [BitVec.getLsbD_ushiftRight, BitVec.getLsbD_setWidth]
  rw [run_eq_shifts poly _ r (by rw [length_bits]; exact hn), length_bits, word_bits,
    shifts_eq_low_xor, hmove]

end Messages

end MxLib.Library.ReflectedCrc
