import MxLib.Comm.HostResolver
import Mathlib.Data.List.Basic
import Mathlib.Algebra.Order.Group.Nat
import Mathlib.Tactic.Ring

/-!
# The bytes of an IPv4 address

`IsValidIPV4` with the four bytes that it stores, beside what `inet_aton` says of two
to four numbers: every number but the last one is a byte, and the last one fills the
bytes that are left.

The code compares no last number with the room that is left for it, and it notices an
overflow only where a product or a sum of 32 bits got less.  It takes every text that
it should take, with the bytes it should have (`ipv4Address_of_inetAton`), and more
than these exactly when a number is too large and no overflow is noticed
(`ipv4Address_exact_iff`).
-/

namespace MxLib.HostResolver

/-! ### The code -/

/-- `for (j = 0; dwValue > 0; j++,dwValue /= 0x100) d[i - j] = (BYTE)(dwValue & 0xFF);` -/
def storeValue (d : List Nat) (i dwValue : Nat) : List Nat :=
  if dwValue = 0 then d else storeValue (d.set i (dwValue % 256)) (i - 1) (dwValue / 256)
termination_by dwValue

/-- The loop over the blocks, from block `i` on. -/
def ipv4Store : List (List WChar) → Nat → List Nat → Option (List Nat)
  | [], _, d => some d
  | [block], _, d => (ipv4Value block).map (storeValue d 3)
  | block :: blocks, i, d =>
    match ipv4Value block with
    | none => none
    | some dwValue => if dwValue > 255 then none else ipv4Store blocks (i + 1) (storeValue d i dwValue)

/-- `IsValidIPV4`, with the bytes `s_b1` to `s_b4` when it is TRUE. -/
def ipv4Address (szAddressW : List WChar) : Option (List Nat) :=
  match ipv4Blocks 3 szAddressW with
  | none => none
  | some blocks => if blocks.length ≥ 2 then ipv4Store blocks 0 [0, 0, 0, 0] else none

theorem ipv4Store_cons (block block' : List WChar) (blocks : List (List WChar)) (i : Nat)
    (d : List Nat) :
    ipv4Store (block :: block' :: blocks) i d =
      match ipv4Value block with
      | none => none
      | some dwValue =>
        if dwValue > 255 then none else ipv4Store (block' :: blocks) (i + 1) (storeValue d i dwValue) :=
  rfl

theorem isSome_ipv4Store {blocks : List (List WChar)} {i : Nat} {d : List Nat} :
    (ipv4Store blocks i d).isSome = ipv4Values blocks := by
  induction blocks generalizing i d with
  | nil => rfl
  | cons block blocks ih =>
    cases blocks with
    | nil => simp [ipv4Store, ipv4Values]
    | cons block' blocks =>
      rw [ipv4Store_cons, ipv4Values]
      · cases ipv4Value block with
        | none => rfl
        | some dwValue =>
          dsimp only
          by_cases h : dwValue ≤ 255
          · rw [if_neg (by omega), ih, decide_eq_true h, Bool.true_and]
          · rw [if_pos (by omega), decide_eq_false h]
            rfl
      · exact List.cons_ne_nil _ _

/-- **The bytes are stored when the answer is TRUE.** -/
theorem isSome_ipv4Address (szAddressW : List WChar) :
    (ipv4Address szAddressW).isSome = isValidIPV4 szAddressW := by
  rw [ipv4Address, isValidIPV4]
  cases ipv4Blocks 3 szAddressW with
  | none => rfl
  | some blocks =>
    dsimp only
    by_cases h : blocks.length ≥ 2
    · rw [if_pos h, isSome_ipv4Store, decide_eq_true h, Bool.true_and]
    · rw [if_neg h, decide_eq_false h]
      rfl

/-! ### Numbers between dots -/

/-- A number as it is written. -/
structure Numeral where
  base : Nat
  digits : List Nat
deriving DecidableEq

namespace Numeral

/-- A number from its digits, behind those of `v`. -/
def valueFrom (base v : Nat) (digits : List Nat) : Nat :=
  digits.foldl (fun v dw => v * base + dw) v

def value (x : Numeral) : Nat := valueFrom x.base 0 x.digits

/-- A product or a sum of 32 bits gets less at a digit behind the value `v`. -/
def CaughtFrom (base : Nat) : Nat → List Nat → Prop
  | _, [] => False
  | v, dw :: digits =>
    v * base % 2 ^ 32 < v % 2 ^ 32 ∨ (v * base + dw) % 2 ^ 32 < v * base % 2 ^ 32 ∨
      CaughtFrom base (v * base + dw) digits

/-- An overflow is noticed. -/
def Caught (x : Numeral) : Prop := CaughtFrom x.base 0 x.digits

end Numeral

/-- A digit below the base. -/
def digitBelow (base : Nat) (chW : WChar) : Option Nat := (hexaDigit chW).filter (· < base)

/-- A number with at least one digit. -/
def numeralIn (base : Nat) (sW : List WChar) : Option Numeral :=
  if sW = [] then none else (sW.mapM (digitBelow base)).map fun digits => { base, digits }

/-- A number: hexadecimal behind `0x`, octal behind another zero, else decimal. -/
def numeral : List WChar → Option Numeral
  | 0x30 :: 0x58 :: sW => numeralIn 16 sW
  | 0x30 :: 0x78 :: sW => numeralIn 16 sW
  | 0x30 :: chW :: sW => numeralIn 8 (chW :: sW)
  | sW => numeralIn 10 sW

/-- A character before a suffix. -/
def inAddress (chW : WChar) : Bool := chW != 0x2F && chW != 0x25

/-- What stands between the dots, up to a suffix. -/
def dotted (szAddressW : List WChar) : List (List WChar) :=
  (szAddressW.takeWhile inAddress).splitOn 0x2E

/-- The `k` last bytes of a value, the highest one first. -/
def bigEndian : Nat → Nat → List Nat
  | 0, _ => []
  | k + 1, v => bigEndian k (v / 256) ++ [v % 256]

/-- The numbers of an address: one to three in front of the last one. -/
def ReadsNumbers (szAddressW : List WChar) (front : List Numeral) (last : Numeral) : Prop :=
  (dotted szAddressW).mapM numeral = some (front ++ [last]) ∧ 1 ≤ front.length ∧ front.length ≤ 3

/-- **The address that a text stands for**, as `inet_aton` has it. -/
def InetAton (szAddressW : List WChar) (d : List Nat) : Prop :=
  ∃ front last, ReadsNumbers szAddressW front last ∧ (∀ x ∈ front, x.value ≤ 255) ∧
    last.value < 256 ^ (4 - front.length) ∧
    d = front.map Numeral.value ++ bigEndian (4 - front.length) last.value

/-- A number of the text is too large, and neither an overflow nor a byte above 255 is
noticed. -/
def PassesTooLarge (szAddressW : List WChar) : Prop :=
  ∃ front last, ReadsNumbers szAddressW front last ∧ (∀ x ∈ front ++ [last], ¬ x.Caught) ∧
    (∀ x ∈ front, x.value % 2 ^ 32 ≤ 255) ∧
    ((∃ x ∈ front, 255 < x.value) ∨ 256 ^ (4 - front.length) ≤ last.value)

/-! ### Blocks -/

/-- A character of a block. -/
def inBlock (chW : WChar) : Bool := chW != 0x2E && chW != 0x2F && chW != 0x25

theorem splitOn_block {block : List WChar} (hblock : ∀ chW ∈ block, inBlock chW = true) :
    block.splitOn 0x2E = [block] := by
  apply List.splitOn_eq_singleton
  intro hdot
  exact absurd (hblock _ hdot) (by decide)

theorem takeWhile_block {block rest : List WChar} (hblock : ∀ chW ∈ block, inBlock chW = true) :
    (block ++ rest).takeWhile inAddress = block ++ rest.takeWhile inAddress := by
  apply List.takeWhile_append_of_pos
  intro chW hch
  have h := hblock chW hch
  rw [inBlock, Bool.and_eq_true, Bool.and_eq_true] at h
  rw [inAddress, h.1.2, h.2]
  rfl

theorem dotted_of_dot {block : List WChar} (hblock : ∀ chW ∈ block, inBlock chW = true)
    (rest : List WChar) : dotted (block ++ 0x2E :: rest) = block :: dotted rest := by
  rw [dotted, takeWhile_block hblock, List.takeWhile_cons_of_pos (by decide),
    List.splitOn_append_cons_self, splitOn_block hblock]
  rfl

theorem dotted_of_suffix {block : List WChar} (hblock : ∀ chW ∈ block, inBlock chW = true)
    {suffix : List WChar} (hsuffix : ∀ chW ∈ suffix.head?, chW = 0x2F ∨ chW = 0x25) :
    dotted (block ++ suffix) = [block] := by
  rw [dotted, takeWhile_block hblock]
  cases suffix with
  | nil => rw [List.takeWhile_nil, List.append_nil, splitOn_block hblock]
  | cons chW suffix =>
    have hstop : ¬ inAddress chW = true := by
      rcases hsuffix chW rfl with rfl | rfl <;> decide
    rw [List.takeWhile_cons_of_neg hstop, List.append_nil, splitOn_block hblock]

theorem length_dotted_pos (szAddressW : List WChar) : 0 < (dotted szAddressW).length :=
  List.length_pos_of_ne_nil (List.splitOn_ne_nil _ _)

/-- A text is a block with a dot behind it, or with a suffix or nothing. -/
theorem exists_block (szAddressW : List WChar) : ∃ block : List WChar,
    (∀ chW ∈ block, inBlock chW = true) ∧
      ((∃ rest, szAddressW = block ++ 0x2E :: rest) ∨
        ∃ suffix : List WChar, szAddressW = block ++ suffix ∧
          ∀ chW ∈ suffix.head?, chW = 0x2F ∨ chW = 0x25) := by
  induction szAddressW with
  | nil => exact ⟨[], by simp, .inr ⟨[], rfl, by simp⟩⟩
  | cons chW szAddressW ih =>
    by_cases hdot : chW = 0x2E
    · exact ⟨[], by simp, .inl ⟨szAddressW, by rw [hdot]; rfl⟩⟩
    · by_cases hend : chW = 0x2F ∨ chW = 0x25
      · exact ⟨[], by simp, .inr ⟨chW :: szAddressW, rfl, by simpa using hend⟩⟩
      · have hin : inBlock chW = true := by
          rw [not_or] at hend
          simp [inBlock, hdot, hend.1, hend.2]
        obtain ⟨block, hblock, hrest⟩ := ih
        refine ⟨chW :: block, ?_, ?_⟩
        · intro c hc
          rcases List.mem_cons.mp hc with rfl | hc
          · exact hin
          · exact hblock c hc
        · rcases hrest with ⟨rest, rfl⟩ | ⟨suffix, rfl, hsuffix⟩
          · exact .inl ⟨rest, rfl⟩
          · exact .inr ⟨suffix, rfl, hsuffix⟩

theorem ipv4Blocks_of_suffix {block : List WChar} (hblock : ∀ chW ∈ block, inBlock chW = true)
    {suffix : List WChar} (hsuffix : ∀ chW ∈ suffix.head?, chW = 0x2F ∨ chW = 0x25) (n : Nat) :
    ipv4Blocks n (block ++ suffix) = some [block] := by
  have htake := @List.takeWhile_append_of_pos _ _ _ suffix hblock
  have hdrop := @List.dropWhile_append_of_pos _ _ _ suffix hblock
  cases suffix with
  | nil =>
    simp only [List.takeWhile_nil, List.append_nil, List.dropWhile_nil] at htake hdrop ⊢
    unfold inBlock at hdrop htake
    unfold ipv4Blocks
    simp only [hdrop, htake]
  | cons chW suffix =>
    have hne : (chW == 0x2E) = false ∧ ¬ inBlock chW = true := by
      rcases hsuffix chW rfl with rfl | rfl <;> decide
    rw [List.takeWhile_cons_of_neg hne.2, List.append_nil] at htake
    rw [List.dropWhile_cons_of_neg hne.2] at hdrop
    unfold inBlock at hdrop htake
    unfold ipv4Blocks
    simp only [hdrop, htake]
    cases n <;> simp only [hne.1, Bool.false_eq_true, if_false]

theorem ipv4Blocks_of_dot {block : List WChar} (hblock : ∀ chW ∈ block, inBlock chW = true)
    (rest : List WChar) : ipv4Blocks 0 (block ++ 0x2E :: rest) = none ∧ ∀ n,
      ipv4Blocks (n + 1) (block ++ 0x2E :: rest) = (ipv4Blocks n rest).map (block :: ·) := by
  have htake := @List.takeWhile_append_of_pos _ _ _ (0x2E :: rest) hblock
  have hdrop := @List.dropWhile_append_of_pos _ _ _ (0x2E :: rest) hblock
  rw [List.takeWhile_cons_of_neg (by decide), List.append_nil] at htake
  rw [List.dropWhile_cons_of_neg (by decide)] at hdrop
  constructor
  · unfold ipv4Blocks
    unfold inBlock at hdrop
    simp only [hdrop]
    rfl
  · intro n
    conv => lhs; unfold ipv4Blocks
    unfold inBlock at hdrop htake
    simp only [hdrop, htake]
    rfl

/-- **The blocks of a text** are what stands between its dots. -/
theorem ipv4Blocks_eq (n : Nat) (szAddressW : List WChar) :
    ipv4Blocks n szAddressW
      = if (dotted szAddressW).length ≤ n + 1 then some (dotted szAddressW) else none := by
  induction n generalizing szAddressW with
  | zero =>
    obtain ⟨block, hblock, ⟨rest, rfl⟩ | ⟨suffix, rfl, hsuffix⟩⟩ := exists_block szAddressW
    · have hpos := length_dotted_pos rest
      rw [(ipv4Blocks_of_dot hblock rest).1, dotted_of_dot hblock, List.length_cons,
        if_neg (by omega)]
    · rw [ipv4Blocks_of_suffix hblock hsuffix, dotted_of_suffix hblock hsuffix]
      rfl
  | succ n ih =>
    obtain ⟨block, hblock, ⟨rest, rfl⟩ | ⟨suffix, rfl, hsuffix⟩⟩ := exists_block szAddressW
    · rw [(ipv4Blocks_of_dot hblock rest).2, dotted_of_dot hblock, List.length_cons, ih]
      by_cases h : (dotted rest).length ≤ n + 1
      · rw [if_pos h, if_pos (by omega)]
        rfl
      · rw [if_neg h, if_neg (by omega)]
        rfl
    · rw [ipv4Blocks_of_suffix hblock hsuffix, dotted_of_suffix hblock hsuffix,
        if_pos (by rw [List.length_singleton]; omega)]

/-! ### Numbers -/

namespace Numeral

variable {base v : Nat}

theorem valueFrom_cons (dw : Nat) (digits : List Nat) :
    valueFrom base v (dw :: digits) = valueFrom base (v * base + dw) digits := rfl

theorem le_valueFrom (hbase : 0 < base) (digits : List Nat) : v ≤ valueFrom base v digits := by
  induction digits generalizing v with
  | nil => exact Nat.le_refl v
  | cons dw digits ih =>
    have hmul : v ≤ v * base := Nat.le_mul_of_pos_right v hbase
    exact (show v ≤ v * base + dw by omega).trans ih

/-- **No overflow is noticed where there is none.** -/
theorem not_caughtFrom (hbase : 0 < base) {digits : List Nat} (h : valueFrom base v digits < 2 ^ 32) :
    ¬ CaughtFrom base v digits := by
  induction digits generalizing v with
  | nil => exact id
  | cons dw digits ih =>
    rw [valueFrom_cons] at h
    have hle := le_valueFrom (v := v * base + dw) hbase digits
    have hmul : v ≤ v * base := Nat.le_mul_of_pos_right v hbase
    rintro (hlt | hlt | hrest)
    · rw [Nat.mod_eq_of_lt (by omega), Nat.mod_eq_of_lt (by omega)] at hlt
      omega
    · rw [Nat.mod_eq_of_lt (by omega), Nat.mod_eq_of_lt (by omega)] at hlt
      omega
    · exact ih h hrest

end Numeral

open Numeral

theorem mapM_cons_eq_some_iff {α β : Type} {f : α → Option β} {a : α} {l : List α} {bs : List β} :
    (a :: l).mapM f = some bs ↔ ∃ b bs', f a = some b ∧ l.mapM f = some bs' ∧ bs = b :: bs' := by
  rw [List.mapM_cons]
  constructor
  · intro h
    obtain ⟨b, hb, h⟩ := Option.bind_eq_some_iff.mp h
    obtain ⟨bs', hbs', h⟩ := Option.bind_eq_some_iff.mp h
    exact ⟨b, bs', hb, hbs', (Option.some.inj h).symm⟩
  · rintro ⟨b, bs', hb, hbs', rfl⟩
    rw [hb, hbs']
    rfl

/-- **The digits of a block** give the number of 32 bits, unless an overflow is noticed. -/
theorem ipv4Digits_eq_some_iff {base v dwValue : Nat} {sW : List WChar} :
    ipv4Digits base sW (v % 2 ^ 32) = some dwValue ↔
      ∃ digits, sW.mapM (digitBelow base) = some digits ∧ ¬ CaughtFrom base v digits ∧
        dwValue = valueFrom base v digits % 2 ^ 32 := by
  induction sW generalizing v with
  | nil =>
    constructor
    · intro h
      exact ⟨[], rfl, id, (Option.some.inj h).symm⟩
    · rintro ⟨digits, hdigits, -, rfl⟩
      cases hdigits
      rfl
  | cons chW sW ih =>
    have hmul : v % 2 ^ 32 * base % 2 ^ 32 = v * base % 2 ^ 32 := Nat.mod_mul_mod v base (2 ^ 32)
    simp only [ipv4Digits, mapM_cons_eq_some_iff, hmul]
    cases hdigit : hexaDigit chW with
    | none => simp [digitBelow, hdigit]
    | some dw =>
      have hadd : (v * base % 2 ^ 32 + dw) % 2 ^ 32 = (v * base + dw) % 2 ^ 32 :=
        Nat.mod_add_mod (v * base) (2 ^ 32) dw
      dsimp only
      rw [hadd]
      by_cases hdw : dw < base
      · have hbelow : digitBelow base chW = some dw := by
          rw [digitBelow, hdigit, Option.filter_some, if_pos (by simpa using hdw)]
        by_cases hcaught : v * base % 2 ^ 32 < v % 2 ^ 32 ∨ (v * base + dw) % 2 ^ 32 < v * base % 2 ^ 32
        · rw [if_pos (by simpa [hdw.not_ge] using hcaught)]
          constructor
          · intro h
            cases h
          · rintro ⟨_, ⟨b, bs, hb, -, rfl⟩, hnot, -⟩
            cases hbelow.symm.trans hb
            exact absurd (or_assoc.mp (.inl hcaught)) hnot
        · rw [if_neg (by simpa [hdw.not_ge] using hcaught), ih]
          constructor
          · rintro ⟨digits, hdigits, hnot, rfl⟩
            refine ⟨dw :: digits, ⟨dw, digits, hbelow, hdigits, rfl⟩, ?_, rfl⟩
            rintro (h | h | h)
            · exact hcaught (.inl h)
            · exact hcaught (.inr h)
            · exact hnot h
          · rintro ⟨_, ⟨b, bs, hb, hbs, rfl⟩, hnot, rfl⟩
            cases hbelow.symm.trans hb
            exact ⟨bs, hbs, fun h => hnot (.inr (.inr h)), rfl⟩
      · have hbelow : digitBelow base chW = none := by
          rw [digitBelow, hdigit, Option.filter_some, if_neg (by simpa using hdw)]
        rw [if_pos (by simp [not_lt.mp hdw])]
        simp [hbelow]

theorem numeralIn_eq_some_iff {base : Nat} {sW : List WChar} {x : Numeral} :
    numeralIn base sW = some x ↔
      sW ≠ [] ∧ ∃ digits, sW.mapM (digitBelow base) = some digits ∧ x = { base, digits } := by
  rw [numeralIn]
  by_cases h : sW = []
  · simp [h]
  · rw [if_neg h, Option.map_eq_some_iff]
    constructor
    · rintro ⟨digits, hdigits, rfl⟩
      exact ⟨h, digits, hdigits, rfl⟩
    · rintro ⟨-, digits, hdigits, rfl⟩
      exact ⟨digits, hdigits, rfl⟩

/-- The digits of a number, as the code reads them. -/
theorem ipv4Digits_numeralIn {base dwValue : Nat} {sW : List WChar} (hne : sW ≠ []) :
    ipv4Digits base sW 0 = some dwValue ↔
      ∃ x, numeralIn base sW = some x ∧ ¬ x.Caught ∧ dwValue = x.value % 2 ^ 32 := by
  rw [show (0 : Nat) = 0 % 2 ^ 32 from rfl, ipv4Digits_eq_some_iff]
  constructor
  · rintro ⟨digits, hdigits, hnot, rfl⟩
    exact ⟨{ base, digits }, numeralIn_eq_some_iff.mpr ⟨hne, digits, hdigits, rfl⟩, hnot, rfl⟩
  · rintro ⟨x, hx, hnot, rfl⟩
    obtain ⟨-, digits, hdigits, rfl⟩ := numeralIn_eq_some_iff.mp hx
    exact ⟨digits, hdigits, hnot, rfl⟩

/-- **The value of a block** is that of its number, modulo `2^32`, unless an overflow is
noticed. -/
theorem ipv4Value_eq_some_iff {block : List WChar} {dwValue : Nat} :
    ipv4Value block = some dwValue ↔
      ∃ x, numeral block = some x ∧ ¬ x.Caught ∧ dwValue = x.value % 2 ^ 32 := by
  unfold numeral
  split
  · next sW => -- `0X`
    rw [ipv4Value, if_neg (List.cons_ne_nil _ _), if_pos (by simp [charAt]), if_pos (by simp [charAt])]
    by_cases h : sW = []
    · simp [h, numeralIn]
    · rw [List.drop_succ_cons, List.drop_succ_cons, List.drop_zero, if_neg h, ipv4Digits_numeralIn h]
  · next sW => -- `0x`
    rw [ipv4Value, if_neg (List.cons_ne_nil _ _), if_pos (by simp [charAt]), if_pos (by simp [charAt])]
    by_cases h : sW = []
    · simp [h, numeralIn]
    · rw [List.drop_succ_cons, List.drop_succ_cons, List.drop_zero, if_neg h, ipv4Digits_numeralIn h]
  · next chW sW hX hx => -- another zero
    rw [ipv4Value, if_neg (List.cons_ne_nil _ _), if_pos (by simp [charAt]),
      if_neg (by simpa [charAt] using ⟨hX, hx⟩), List.drop_succ_cons, List.drop_zero,
      ipv4Digits_numeralIn (List.cons_ne_nil _ _)]
  · next _ _ _ hzero => -- decimal
    rw [ipv4Value]
    by_cases h : block = []
    · simp [h, numeralIn]
    · have hten : ¬ (charAt block 0 == 0x30 && decide (block.length ≥ 2)) = true := by
        rcases block with - | ⟨chW, - | ⟨chW', sW⟩⟩
        · exact absurd rfl h
        · simp
        · intro h0
          rw [Bool.and_eq_true, beq_iff_eq] at h0
          obtain rfl : chW = 0x30 := h0.1
          exact hzero chW' sW rfl
      rw [if_neg h, if_neg hten, ipv4Digits_numeralIn h]

/-! ### Bytes -/

/-- **The bytes of a value** are stored in the room in front of index `i`, if it has
enough of them. -/
theorem storeValue_bigEndian (front : List Nat) (k : Nat) (behind : List Nat) {v : Nat}
    (h : v < 256 ^ k) :
    storeValue (front ++ List.replicate k 0 ++ behind) (front.length + k - 1) v
      = front ++ bigEndian k v ++ behind := by
  induction k generalizing v behind with
  | zero =>
    rw [storeValue, if_pos (by omega)]
    rfl
  | succ k ih =>
    have hpow : 256 ^ (k + 1) = 256 ^ k * 256 := Nat.pow_succ 256 k
    have hdiv : v / 256 < 256 ^ k := by omega
    have hbytes := ih (v % 256 :: behind) hdiv
    rw [bigEndian]
    by_cases hv : v = 0
    · subst hv
      rw [Nat.zero_div, storeValue, if_pos rfl] at hbytes
      rw [storeValue, if_pos rfl, List.replicate_succ', Nat.zero_mod]
      simpa using hbytes
    · have hset : (front ++ List.replicate (k + 1) 0 ++ behind).set (front.length + (k + 1) - 1) (v % 256)
          = front ++ List.replicate k 0 ++ v % 256 :: behind := by
        rw [List.replicate_succ', ← List.append_assoc, List.append_assoc,
          List.set_append_right _ _ (by simp)]
        simp
      rw [storeValue, if_neg hv, hset, show front.length + (k + 1) - 1 - 1 = front.length + k - 1 by omega,
        hbytes]
      simp

/-- A byte is stored in the first free place. -/
theorem storeValue_byte (done : List Nat) {k v : Nat} (hv : v ≤ 255) :
    storeValue (done ++ List.replicate (k + 1) 0) done.length v
      = done ++ [v] ++ List.replicate k 0 := by
  have h := storeValue_bigEndian done 1 (List.replicate k 0) (show v < 256 ^ 1 by omega)
  rw [bigEndian, bigEndian, Nat.mod_eq_of_lt (by omega), List.append_assoc done,
    List.replicate_append_replicate, Nat.add_sub_cancel, Nat.add_comm 1 k] at h
  exact h

/-- **The loop over the blocks**, from block `i` on: a byte for every block but the last
one, whose value is stored from the last byte backwards. -/
theorem ipv4Store_eq_some_iff {blocks : List (List WChar)} (hne : blocks ≠ []) {done : List Nat}
    {k : Nat} {d : List Nat} (hlen : blocks.length ≤ k) :
    ipv4Store blocks done.length (done ++ List.replicate k 0) = some d ↔
      ∃ front last, blocks.mapM numeral = some (front ++ [last]) ∧
        (∀ x ∈ front ++ [last], ¬ x.Caught) ∧ (∀ x ∈ front, x.value % 2 ^ 32 ≤ 255) ∧
        d = storeValue (done ++ front.map (fun x => x.value % 2 ^ 32)
          ++ List.replicate (k - front.length) 0) 3 (last.value % 2 ^ 32) := by
  induction blocks generalizing done k with
  | nil => exact absurd rfl hne
  | cons block blocks ih =>
    cases blocks with
    | nil =>
      rw [ipv4Store, Option.map_eq_some_iff]
      constructor
      · rintro ⟨v, hv, rfl⟩
        obtain ⟨x, hx, hnot, rfl⟩ := ipv4Value_eq_some_iff.mp hv
        refine ⟨[], x, mapM_cons_eq_some_iff.mpr ⟨x, [], hx, rfl, rfl⟩, by simpa using hnot,
          by simp, by simp⟩
      · rintro ⟨front, last, hmap, hnot, -, rfl⟩
        obtain ⟨x, xs, hx, hxs, heq⟩ := mapM_cons_eq_some_iff.mp hmap
        cases hxs
        obtain ⟨rfl, rfl⟩ : front = [] ∧ last = x := by
          cases front with
          | nil => exact ⟨rfl, (List.cons.inj heq).1⟩
          | cons y front => simp at heq
        refine ⟨_, ipv4Value_eq_some_iff.mpr ⟨last, hx, hnot last (by simp), rfl⟩, by simp⟩
    | cons block' blocks =>
      obtain ⟨k, rfl⟩ : ∃ k', k = k' + 1 := ⟨k - 1, by rw [List.length_cons] at hlen; omega⟩
      have hrest : (block' :: blocks).length ≤ k := by rw [List.length_cons] at hlen; omega
      have hloop := fun v => @ih (List.cons_ne_nil block' blocks) (done ++ [v]) k hrest
      simp only [List.length_append, List.length_singleton] at hloop
      rw [ipv4Store_cons]
      constructor
      · intro h
        split at h
        · cases h
        · next v hv =>
          split at h
          · cases h
          · next hle =>
            rw [storeValue_byte done (by omega)] at h
            obtain ⟨front, last, hmap, hnot, hbytes, rfl⟩ := (hloop v).mp h
            obtain ⟨x, hx, hnotx, rfl⟩ := ipv4Value_eq_some_iff.mp hv
            refine ⟨x :: front, last, mapM_cons_eq_some_iff.mpr ⟨x, _, hx, hmap, rfl⟩, ?_, ?_, ?_⟩
            · simpa using ⟨hnotx, by simpa using hnot⟩
            · simpa using ⟨by omega, hbytes⟩
            · simp
      · rintro ⟨front, last, hmap, hnot, hbytes, rfl⟩
        obtain ⟨x, xs, hx, hxs, heq⟩ := mapM_cons_eq_some_iff.mp hmap
        cases front with
        | nil =>
          obtain ⟨-, rfl⟩ := List.cons.inj heq
          obtain ⟨_, _, -, -, hcons⟩ := mapM_cons_eq_some_iff.mp hxs
          cases hcons
        | cons y front =>
          obtain ⟨rfl, rfl⟩ := List.cons.inj heq
          have hle := hbytes y List.mem_cons_self
          rw [ipv4Value_eq_some_iff.mpr ⟨y, hx, hnot y (by simp), rfl⟩]
          dsimp only
          rw [if_neg (by omega), storeValue_byte done hle, hloop]
          refine ⟨front, last, hxs, fun z hz => hnot z (List.mem_cons_of_mem _ hz),
            fun z hz => hbytes z (List.mem_cons_of_mem _ hz), by simp⟩

theorem length_mapM {α β : Type} {f : α → Option β} {l : List α} {bs : List β}
    (h : l.mapM f = some bs) : bs.length = l.length := by
  induction l generalizing bs with
  | nil =>
    cases h
    rfl
  | cons a l ih =>
    obtain ⟨b, bs', -, hbs', rfl⟩ := mapM_cons_eq_some_iff.mp h
    rw [List.length_cons, List.length_cons, ih hbs']

/-- **What `IsValidIPV4` accepts**, and what it stores. -/
theorem ipv4Address_eq_some_iff {szAddressW : List WChar} {d : List Nat} :
    ipv4Address szAddressW = some d ↔
      ∃ front last, ReadsNumbers szAddressW front last ∧ (∀ x ∈ front ++ [last], ¬ x.Caught) ∧
        (∀ x ∈ front, x.value % 2 ^ 32 ≤ 255) ∧
        d = storeValue (front.map (fun x => x.value % 2 ^ 32) ++ List.replicate (4 - front.length) 0)
          3 (last.value % 2 ^ 32) := by
  have hstore (hlen : (dotted szAddressW).length ≤ 4) := @ipv4Store_eq_some_iff _
    (List.ne_nil_of_length_pos (length_dotted_pos szAddressW)) [] _ d hlen
  rw [ipv4Address, ipv4Blocks_eq]
  constructor
  · intro h
    by_cases hlen : (dotted szAddressW).length ≤ 3 + 1
    · rw [if_pos hlen] at h
      dsimp only at h
      split at h
      · next htwo =>
        obtain ⟨front, last, hmap, hnot, hle, rfl⟩ := (hstore hlen).mp h
        have hfront := length_mapM hmap
        rw [List.length_append, List.length_singleton] at hfront
        exact ⟨front, last, ⟨hmap, by omega, by omega⟩, hnot, hle, rfl⟩
      · cases h
    · rw [if_neg hlen] at h
      cases h
  · rintro ⟨front, last, ⟨hmap, hone, hthree⟩, hnot, hle, rfl⟩
    have hfront := length_mapM hmap
    rw [List.length_append, List.length_singleton] at hfront
    rw [if_pos (by omega)]
    dsimp only
    rw [if_pos (by omega)]
    exact (hstore (by omega)).mpr ⟨front, last, hmap, hnot, hle, rfl⟩

/-! ### The numbers that are too large -/

theorem pos_base_of_numeral {block : List WChar} {x : Numeral} (h : numeral block = some x) :
    0 < x.base := by
  unfold numeral at h
  split at h <;>
    · obtain ⟨-, digits, -, rfl⟩ := numeralIn_eq_some_iff.mp h
      dsimp only
      omega

theorem exists_of_mem_mapM {α β : Type} {f : α → Option β} {l : List α} {bs : List β}
    (h : l.mapM f = some bs) {b : β} (hb : b ∈ bs) : ∃ a ∈ l, f a = some b := by
  induction l generalizing bs with
  | nil =>
    cases h
    cases hb
  | cons a l ih =>
    obtain ⟨b', bs', hb', hbs', rfl⟩ := mapM_cons_eq_some_iff.mp h
    rcases List.mem_cons.mp hb with rfl | hb
    · exact ⟨a, List.mem_cons_self, hb'⟩
    · obtain ⟨a', ha', hf⟩ := ih hbs' hb
      exact ⟨a', List.mem_cons_of_mem _ ha', hf⟩

/-- No overflow is noticed in a number of 32 bits. -/
theorem not_caught_of_lt {szAddressW : List WChar} {front : List Numeral} {last x : Numeral}
    (h : ReadsNumbers szAddressW front last) (hx : x ∈ front ++ [last]) (hlt : x.value < 2 ^ 32) :
    ¬ x.Caught := by
  obtain ⟨block, -, hblock⟩ := exists_of_mem_mapM h.1 hx
  exact not_caughtFrom (pos_base_of_numeral hblock) hlt

theorem ReadsNumbers.unique {szAddressW : List WChar} {front front' : List Numeral}
    {last last' : Numeral} (h : ReadsNumbers szAddressW front last)
    (h' : ReadsNumbers szAddressW front' last') : front = front' ∧ last = last' := by
  have heq := Option.some.inj (h.1.symm.trans h'.1)
  obtain ⟨hfront, hlast⟩ := List.append_inj' heq rfl
  exact ⟨hfront, (List.cons.inj hlast).1⟩

/-- What is stored for numbers that have room. -/
theorem storeValue_of_room {front : List Numeral} {last : Numeral} (hthree : front.length ≤ 3)
    (hle : ∀ x ∈ front, x.value ≤ 255) (hlast : last.value < 256 ^ (4 - front.length)) :
    storeValue (front.map (fun x => x.value % 2 ^ 32) ++ List.replicate (4 - front.length) 0) 3
        (last.value % 2 ^ 32)
      = front.map Numeral.value ++ bigEndian (4 - front.length) last.value := by
  have hpow : 256 ^ (4 - front.length) ≤ 256 ^ 4 := Nat.pow_le_pow_right (by omega) (by omega)
  have hmap : front.map (fun x => x.value % 2 ^ 32) = front.map Numeral.value := by
    apply List.map_congr_left
    intro x hx
    have := hle x hx
    exact Nat.mod_eq_of_lt (by omega)
  have h := storeValue_bigEndian (front.map Numeral.value) (4 - front.length) [] hlast
  rw [List.length_map, List.append_nil, List.append_nil,
    show front.length + (4 - front.length) - 1 = 3 by omega] at h
  rw [hmap, Nat.mod_eq_of_lt (by omega), h]

/-- **Every address of two to four numbers is taken**, with its bytes. -/
theorem ipv4Address_of_inetAton {szAddressW : List WChar} {d : List Nat}
    (h : InetAton szAddressW d) : ipv4Address szAddressW = some d := by
  obtain ⟨front, last, hreads, hle, hlast, rfl⟩ := h
  have hpow : 256 ^ (4 - front.length) ≤ 256 ^ 4 := Nat.pow_le_pow_right (by omega) (by omega)
  apply ipv4Address_eq_some_iff.mpr
  refine ⟨front, last, hreads, ?_, ?_, (storeValue_of_room hreads.2.2 hle hlast).symm⟩
  · intro x hx
    apply not_caught_of_lt hreads hx
    rcases List.mem_append.mp hx with hx | hx
    · have := hle x hx
      omega
    · rw [List.mem_singleton.mp hx]
      omega
  · intro x hx
    have := hle x hx
    rw [Nat.mod_eq_of_lt (by omega)]
    exact this

/-- **`IsValidIPV4` is `inet_aton` on two to four numbers** unless a number that is too
large passes its checks. -/
theorem ipv4Address_exact_iff (szAddressW : List WChar) :
    (∀ d, ipv4Address szAddressW = some d ↔ InetAton szAddressW d) ↔
      ¬ PassesTooLarge szAddressW := by
  constructor
  · rintro h ⟨front, last, hreads, hnot, hle, hlarge⟩
    obtain ⟨front', last', hreads', hle', hlast', -⟩ :=
      (h _).mp (ipv4Address_eq_some_iff.mpr ⟨front, last, hreads, hnot, hle, rfl⟩)
    obtain ⟨rfl, rfl⟩ := hreads.unique hreads'
    rcases hlarge with ⟨x, hx, hlt⟩ | hge
    · have := hle' x hx
      omega
    · omega
  · intro h d
    refine ⟨fun hd => ?_, ipv4Address_of_inetAton⟩
    obtain ⟨front, last, hreads, hnot, hle, rfl⟩ := ipv4Address_eq_some_iff.mp hd
    have hfront : ∀ x ∈ front, x.value ≤ 255 := by
      intro x hx
      by_contra hlt
      exact h ⟨front, last, hreads, hnot, hle, .inl ⟨x, hx, by omega⟩⟩
    have hlast : last.value < 256 ^ (4 - front.length) := by
      by_contra hge
      exact h ⟨front, last, hreads, hnot, hle, .inr (by omega)⟩
    exact ⟨front, last, hreads, hfront, hlast, storeValue_of_room hreads.2.2 hfront hlast⟩

/-- A last number without room stores over the number before it. -/
theorem ipv4Address_too_large :
    ¬ ∀ (szAddressW : List WChar) (d : List Nat),
      ipv4Address szAddressW = some d ↔ InetAton szAddressW d := by
  intro h
  have hcode : ipv4Address (wide "1.2.3.256") = some [1, 2, 1, 0] := by decide +kernel
  have hreads : ReadsNumbers (wide "1.2.3.256") [⟨10, [1]⟩, ⟨10, [2]⟩, ⟨10, [3]⟩] ⟨10, [2, 5, 6]⟩ :=
    ⟨by decide, by decide, by decide⟩
  obtain ⟨front, last, hreads', -, hlt, -⟩ := (h _ _).mp hcode
  obtain ⟨rfl, rfl⟩ := hreads.unique hreads'
  revert hlt
  decide

/-- An overflow that is not noticed. -/
example : ipv4Address (wide "1.0x1234567890/8") = some [52, 86, 120, 144] := by decide +kernel

end MxLib.HostResolver
