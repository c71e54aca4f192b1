import Mathlib.Data.List.MinMax
import Mathlib.Tactic.Ring

/-!
# The encoding procedure of RFC 3492

Bootstring with the parameters of Punycode, as section 6.3 has it: the basic code points are
copied, a delimiter follows if there are any, and the others are written as numbers, in the order
of their values.  `maxInt` is the greatest integer of the machine; the procedure fails on
overflow.
-/

namespace MxLib.Library.Rfc3492

/-- The digits `a` to `z`, and `0` to `9`. -/
def digit (d : Nat) : UInt8 := if d < 26 then .ofNat (0x61 + d) else .ofNat (0x30 + (d - 26))

/-- `t` at the position `k`. -/
def threshold (bias k : Nat) : Nat :=
  if k ≤ bias then 1 else if bias + 26 ≤ k then 26 else k - bias

theorem threshold_pos (bias k : Nat) : 1 ≤ threshold bias k := by
  unfold threshold
  split
  · omega
  · split <;> omega

/-- A generalized variable-length integer. -/
def number (bias k q : Nat) : List UInt8 :=
  if q < threshold bias k then [digit q]
  else
    digit (threshold bias k + (q - threshold bias k) % (36 - threshold bias k)) ::
      number bias (k + 36) ((q - threshold bias k) / (36 - threshold bias k))
termination_by q
decreasing_by
  have hpos := threshold_pos bias k
  calc (q - threshold bias k) / (36 - threshold bias k)
      ≤ q - threshold bias k := Nat.div_le_self _ _
    _ < q := by omega

/-- The digits of a generalized variable-length integer, from the least significant one. -/
def digits (bias k q : Nat) : List Nat :=
  if q < threshold bias k then [q]
  else
    (threshold bias k + (q - threshold bias k) % (36 - threshold bias k)) ::
      digits bias (k + 36) ((q - threshold bias k) / (36 - threshold bias k))
termination_by q
decreasing_by
  have hpos := threshold_pos bias k
  calc (q - threshold bias k) / (36 - threshold bias k)
      ≤ q - threshold bias k := Nat.div_le_self _ _
    _ < q := by omega

/-- What digits are worth where the first one has the weight `w`. -/
def value (bias : Nat) : Nat → Nat → List Nat → Nat
  | _, _, [] => 0
  | k, w, d :: ds => d * w + value bias (k + 36) (w * (36 - threshold bias k)) ds

/-- The digits of a number: the first one below its threshold is the last one. -/
inductive Numeral (bias : Nat) : Nat → List Nat → Prop
  | last {k d : Nat} (h : d < threshold bias k) : Numeral bias k [d]
  | next {k d : Nat} {ds : List Nat} (hge : threshold bias k ≤ d) (hlt : d < 36)
      (h : Numeral bias (k + 36) ds) : Numeral bias k (d :: ds)

/-- The loop of the bias adaptation. -/
def adaptLoop (delta k : Nat) : Nat :=
  if 455 < delta then adaptLoop (delta / 35) (k + 36) else k + 36 * delta / (delta + 38)
termination_by delta
decreasing_by exact Nat.div_lt_self (by omega) (by omega)

/-- The bias adaptation of section 6.1. -/
def adapt (delta numpoints : Nat) (firsttime : Bool) : Nat :=
  let delta := if firsttime then delta / 700 else delta / 2
  adaptLoop (delta + delta / numpoints) 0

structure State where
  delta : Nat
  bias : Nat
  h : Nat
  output : List UInt8

/-- The pass over the input that writes the code point `n`. -/
def pass (maxInt n b : Nat) : List Nat → State → Option State
  | [], st => some st
  | c :: input, st =>
    if c < n then
      if maxInt < st.delta + 1 then none else pass maxInt n b input { st with delta := st.delta + 1 }
    else if c = n then
      pass maxInt n b input
        { delta := 0, bias := adapt st.delta (st.h + 1) (st.h == b), h := st.h + 1,
          output := st.output ++ number st.bias 36 st.delta }
    else pass maxInt n b input st

/-- The least code point of the input from `n` on. -/
def least (n : Nat) (input : List Nat) : Option Nat := (input.filter (n ≤ ·)).min?

/-- The main loop.  A turn writes at least one code point, so one turn more than there are code
points is enough. -/
def loop (maxInt b : Nat) (input : List Nat) : Nat → Nat → State → Option State
  | 0, _, st => some st
  | turns + 1, n, st =>
    if st.h < input.length then
      match least n input with
      | none => none
      | some m =>
        if maxInt < st.delta + (m - n) * (st.h + 1) then none
        else
          match pass maxInt m b input { st with delta := st.delta + (m - n) * (st.h + 1) } with
          | none => none
          | some st' => loop maxInt b input turns (m + 1) { st' with delta := st'.delta + 1 }
    else some st

/-- The basic code points. -/
def basic (input : List Nat) : List UInt8 := (input.filter (· < 128)).map UInt8.ofNat

/-- The basic code points, with the delimiter if there are any. -/
def front (input : List Nat) : List UInt8 :=
  basic input ++ if basic input = [] then [] else [0x2D]

/-- The encoding procedure. -/
def encode (maxInt : Nat) (input : List Nat) : Option (List UInt8) :=
  (loop maxInt (basic input).length input (input.length + 1) 128
    ⟨0, 72, (basic input).length, front input⟩).map State.output

/-! ### Numerals -/

theorem threshold_le (bias k : Nat) : threshold bias k ≤ 26 := by
  unfold threshold
  split
  · omega
  · split <;> omega

theorem number_eq_map (bias k q : Nat) : number bias k q = (digits bias k q).map digit := by
  fun_induction digits bias k q with
  | case1 k q h => rw [number, if_pos h]; rfl
  | case2 k q h ih => rw [number, if_neg h, ih]; rfl

theorem numeral_digits (bias k q : Nat) : Numeral bias k (digits bias k q) := by
  fun_induction digits bias k q with
  | case1 k q h => exact .last h
  | case2 k q h ih =>
    have hle := threshold_le bias k
    have hmod := Nat.mod_lt (q - threshold bias k) (show 0 < 36 - threshold bias k by omega)
    exact .next (Nat.le_add_right _ _) (by omega) ih

/-- The weights give back what the quotients have taken apart. -/
theorem value_digits (bias k q : Nat) : ∀ w, value bias k w (digits bias k q) = q * w := by
  fun_induction digits bias k q with
  | case1 k q h => intro w; rfl
  | case2 k q h ih =>
    intro w
    rw [value, ih]
    generalize threshold bias k = t at *
    calc (t + (q - t) % (36 - t)) * w + (q - t) / (36 - t) * (w * (36 - t))
        = (t + ((q - t) % (36 - t) + (36 - t) * ((q - t) / (36 - t)))) * w := by ring
      _ = q * w := by rw [Nat.mod_add_div, Nat.add_sub_cancel' (Nat.not_lt.mp h)]

theorem Numeral.ne_nil {bias k : Nat} {ds : List Nat} (h : Numeral bias k ds) : ds ≠ [] := by
  cases h <;> exact List.cons_ne_nil _ _

theorem Numeral.lt {bias k : Nat} {ds : List Nat} (h : Numeral bias k ds) : ∀ d ∈ ds, d < 36 := by
  induction h with
  | @last k d h =>
    intro e he
    have hle := threshold_le bias k
    rw [List.mem_singleton.mp he]
    omega
  | next _ hlt _ ih =>
    intro e he
    rcases List.mem_cons.mp he with rfl | he
    · exact hlt
    · exact ih e he

/-! ### The output grows -/

theorem pass_begins {maxInt n b : Nat} {input : List Nat} {st st' : State}
    (h : pass maxInt n b input st = some st') : st.output <+: st'.output := by
  induction input generalizing st with
  | nil =>
    obtain rfl := Option.some.inj h
    exact List.prefix_refl _
  | cons c input ih =>
    rw [pass] at h
    split at h
    · split at h
      · cases h
      · have hgrows := ih h
        exact hgrows
    · split at h
      · exact (List.prefix_append _ _).trans (ih h)
      · exact ih h

theorem loop_begins {maxInt b : Nat} {input : List Nat} {turns n : Nat} {st st' : State}
    (h : loop maxInt b input turns n st = some st') : st.output <+: st'.output := by
  induction turns generalizing n st with
  | zero =>
    obtain rfl := Option.some.inj h
    exact List.prefix_refl _
  | succ turns ih =>
    rw [loop] at h
    split at h
    · split at h
      · cases h
      · split at h
        · cases h
        · split at h
          · cases h
          · rename_i hpass
            have hgrows := ih h
            exact (pass_begins hpass).trans hgrows
    · obtain rfl := Option.some.inj h
      exact List.prefix_refl _

/-- **What is written begins with the basic code points.** -/
theorem basic_prefix {maxInt : Nat} {input : List Nat} {out : List UInt8}
    (h : encode maxInt input = some out) : basic input <+: out := by
  obtain ⟨st, hloop, rfl⟩ := Option.map_eq_some_iff.mp h
  exact (List.prefix_append _ _).trans (loop_begins hloop)

end MxLib.Library.Rfc3492
