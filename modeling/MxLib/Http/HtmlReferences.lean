import MxLib.Http.HtmlEntities

/-!
# Numeric character references

`Decode` reads the number of a reference into 16 bits.  A carry that is lost is noticed if the
product, or the sum behind it, is smaller than before; a product of 65536 and more can come out
larger again, and then the reference is read as the number modulo 65536.
-/

namespace MxLib.Http.HtmlEntities

/-! ### What a reference denotes -/

/-- The digit that a character is. -/
def digitOf (c : Nat) : Nat := (decodeDigit c).getD 0

/-- The characters are digits. -/
def AreDigits (nBase : Nat) (cs : List Nat) : Prop :=
  ∀ c ∈ cs, ∃ d < nBase, decodeDigit c = some d

/-- The number that the digits are, behind the number `m`. -/
def numberFrom (nBase m : Nat) (cs : List Nat) : Nat :=
  cs.foldl (fun m c => m * nBase + digitOf c) m

/-- The beginning of a reference, up to the last digit. -/
inductive ReferenceHead (cs : List Nat) : Nat → List Nat → Prop
  | decimal : ReferenceHead cs 10 (0x26 :: 0x23 :: cs)
  | hexadecimal {x : Nat} : x = 0x78 ∨ x = 0x58 → ReferenceHead cs 16 (0x26 :: 0x23 :: x :: cs)

/-- The text begins with the reference that has these digits. -/
def IsNumberReference (nBase : Nat) (cs szStr : List Nat) : Prop :=
  AreDigits nBase cs ∧ ∃ head l, ReferenceHead cs nBase head ∧ szStr = head ++ 0x3B :: l

/-- The value, if there is a character of 16 bits for it. -/
def denoted (nBase : Nat) (cs : List Nat) : Nat :=
  if 1 ≤ numberFrom nBase 0 cs ∧ numberFrom nBase 0 cs ≤ 65535 then numberFrom nBase 0 cs else 0

/-- A carry shows in 16 bits when the digit `d` comes behind the number `m`. -/
def CarryShows (nBase m d : Nat) : Prop :=
  m * nBase % 65536 < m % 65536 ∨ 65536 ≤ m * nBase % 65536 + d

/-- No carry shows at any of the digits. -/
def NoCarryShows (nBase : Nat) : Nat → List Nat → Prop
  | _, [] => True
  | m, c :: cs => ¬ CarryShows nBase m (digitOf c) ∧ NoCarryShows nBase (m * nBase + digitOf c) cs

/-- `Decode` for narrow strings: the character it returns. -/
def decodeA (szStrA : List Byte) : WChar := ((decode (szStrA.map UInt8.toNat)).map Prod.fst).getD 0

/-- `Decode` for wide strings. -/
def decodeW (szStrW : List WChar) : WChar :=
  ((decode (szStrW.map UInt16.toNat)).map Prod.fst).getD 0

/-! ### The loop -/

theorem le_numberFrom {nBase : Nat} (hbase : 1 ≤ nBase) (m : Nat) (cs : List Nat) :
    m ≤ numberFrom nBase m cs := by
  induction cs generalizing m with
  | nil => exact Nat.le_refl m
  | cons c cs ih =>
    have hstep : m ≤ m * nBase + digitOf c :=
      Nat.le_trans (Nat.le_mul_of_pos_right m hbase) (Nat.le_add_right _ _)
    exact Nat.le_trans hstep (ih _)

/-- Where the number fits, no carry is there to show. -/
theorem noCarryShows_of_lt {nBase : Nat} (hbase : 1 ≤ nBase) {m : Nat} {cs : List Nat}
    (h : numberFrom nBase m cs < 65536) : NoCarryShows nBase m cs := by
  induction cs generalizing m with
  | nil => exact trivial
  | cons c cs ih =>
    have hle : m * nBase + digitOf c < 65536 := Nat.lt_of_le_of_lt (le_numberFrom hbase _ cs) h
    have hm : m ≤ m * nBase := Nat.le_mul_of_pos_right m hbase
    refine ⟨?_, ih h⟩
    rw [CarryShows, Nat.mod_eq_of_lt (by omega : m * nBase < 65536),
      Nat.mod_eq_of_lt (by omega : m < 65536)]
    omega

/-- One digit, with the number read so far in 16 bits. -/
theorem decodeDigits_digit {nBase c d : Nat} (hbase : nBase < 65536) (hdigit : decodeDigit c = some d)
    (hd : d < nBase) (l : List Nat) (m n : Nat) [Decidable (CarryShows nBase m d)] :
    decodeDigits (.ofNat nBase) (c :: l) (.ofNat m) n =
      if CarryShows nBase m d then none
      else decodeDigits (.ofNat nBase) l (.ofNat (m * nBase + d)) (n + 1) := by
  have hsemi : c ≠ 0x3B := by
    rintro rfl
    cases hdigit
  have hzero : c ≠ 0 := by
    rintro rfl
    cases hdigit
  have hlt : ¬ d ≥ (UInt16.ofNat nBase).toNat := by
    rw [UInt16.toNat_ofNat', Nat.mod_eq_of_lt hbase]
    omega
  have hmul : (UInt16.ofNat m * .ofNat nBase : WChar) = .ofNat (m * nBase) :=
    (UInt16.ofNat_mul m nBase).symm
  have hproduct : (UInt16.ofNat m * .ofNat nBase : WChar) < .ofNat m ↔
      m * nBase % 65536 < m % 65536 := by
    rw [hmul, UInt16.lt_iff_toNat_lt, UInt16.toNat_ofNat', UInt16.toNat_ofNat']
  have hadd : (UInt16.ofNat m * .ofNat nBase + .ofNat d : WChar) = .ofNat (m * nBase + d) := by
    rw [hmul, ← UInt16.ofNat_add]
  have hsum : (UInt16.ofNat (m * nBase + d) : WChar) < .ofNat m * .ofNat nBase ↔
      65536 ≤ m * nBase % 65536 + d := by
    rw [hmul, UInt16.lt_iff_toNat_lt, UInt16.toNat_ofNat', UInt16.toNat_ofNat']
    omega
  rw [decodeDigits, if_neg hsemi, if_neg hzero, hdigit]
  simp only [if_neg hlt, hproduct, hadd, hsum]
  by_cases h1 : m * nBase % 65536 < m % 65536
  · have hcarry : CarryShows nBase m d := Or.inl h1
    rw [if_pos h1, if_pos hcarry]
  rw [if_neg h1]
  by_cases h2 : 65536 ≤ m * nBase % 65536 + d
  · have hcarry : CarryShows nBase m d := Or.inr h2
    rw [if_pos h2, if_pos hcarry]
  · have hcarry : ¬ CarryShows nBase m d := not_or.mpr ⟨h1, h2⟩
    rw [if_neg h2, if_neg hcarry]

open Classical in
/-- **The number is read modulo 65536, unless a carry shows.** -/
theorem decodeDigits_number {nBase : Nat} (hbase : nBase < 65536) {cs : List Nat}
    (hcs : AreDigits nBase cs) (l : List Nat) (m n : Nat) :
    decodeDigits (.ofNat nBase) (cs ++ 0x3B :: l) (.ofNat m) n =
      if NoCarryShows nBase m cs then some (.ofNat (numberFrom nBase m cs), n + cs.length + 1)
      else none := by
  induction cs generalizing m n with
  | nil =>
    have hnone : NoCarryShows nBase m [] := trivial
    rw [if_pos hnone, List.nil_append, decodeDigits, if_pos rfl]
    rfl
  | cons c cs ih =>
    obtain ⟨⟨d, hd, hdigit⟩, hrest⟩ := List.forall_mem_cons.mp hcs
    have hdigitOf : digitOf c = d := by rw [digitOf, hdigit, Option.getD_some]
    have hiff : NoCarryShows nBase m (c :: cs) ↔
        ¬ CarryShows nBase m d ∧ NoCarryShows nBase (m * nBase + d) cs := by
      rw [NoCarryShows, hdigitOf]
    have hnumber : numberFrom nBase m (c :: cs) = numberFrom nBase (m * nBase + d) cs := by
      rw [← hdigitOf]
      rfl
    rw [List.cons_append, decodeDigits_digit hbase hdigit hd, ih hrest, hnumber]
    by_cases hcarry : CarryShows nBase m d
    · rw [if_pos hcarry, if_neg fun h => (hiff.mp h).1 hcarry]
    · rw [if_neg hcarry, List.length_cons, Nat.add_right_comm n 1, ← Nat.add_assoc n]
      exact if_congr (by rw [hiff, and_iff_right hcarry]) rfl rfl

/-! ### A reference -/

theorem ne_of_areDigits {nBase : Nat} {cs : List Nat} (hcs : AreDigits nBase cs) {x : Nat}
    (hx : x = 0x78 ∨ x = 0x58) (l : List Nat) : (cs ++ 0x3B :: l)[0]? ≠ some x := by
  intro h
  cases cs with
  | nil =>
    obtain rfl := Option.some.inj h
    omega
  | cons c cs =>
    obtain rfl : c = x := Option.some.inj h
    obtain ⟨d, -, hdigit⟩ := hcs c List.mem_cons_self
    rcases hx with rfl | rfl
    · cases hdigit
    · cases hdigit

/-- `Decode` reads the digits of a reference. -/
theorem decode_head {nBase : Nat} {cs head : List Nat} (hcs : AreDigits nBase cs)
    (hhead : ReferenceHead cs nBase head) (l : List Nat) :
    ∃ n, decode (head ++ 0x3B :: l) = decodeDigits (.ofNat nBase) (cs ++ 0x3B :: l) 0 n := by
  cases hhead with
  | decimal =>
    refine ⟨2, ?_⟩
    rw [List.cons_append, List.cons_append, decode, if_neg (not_not_intro rfl), if_pos rfl, if_neg]
    · rfl
    · exact not_or.mpr ⟨ne_of_areDigits hcs (Or.inl rfl) l, ne_of_areDigits hcs (Or.inr rfl) l⟩
  | @hexadecimal x hx =>
    refine ⟨3, ?_⟩
    rw [List.cons_append, List.cons_append, List.cons_append, decode, if_neg (not_not_intro rfl),
      if_pos rfl, if_pos]
    · rfl
    · exact hx.imp (congrArg some) (congrArg some)

open Classical in
theorem decode_reference {nBase : Nat} {cs szStr : List Nat}
    (h : IsNumberReference nBase cs szStr) :
    (((decode szStr).map Prod.fst).getD 0).toNat =
      if NoCarryShows nBase 0 cs then numberFrom nBase 0 cs % 65536 else 0 := by
  obtain ⟨hcs, head, l, hhead, rfl⟩ := h
  have hbase : nBase < 65536 := by
    cases hhead with
    | decimal => decide
    | hexadecimal => decide
  obtain ⟨n, hdecode⟩ := decode_head hcs hhead l
  have hread := decodeDigits_number hbase hcs l 0 n
  rw [hdecode, show (0 : WChar) = .ofNat 0 from rfl, hread]
  by_cases hcarry : NoCarryShows nBase 0 cs
  · rw [if_pos hcarry, if_pos hcarry]
    exact UInt16.toNat_ofNat'
  · rw [if_neg hcarry, if_neg hcarry]
    rfl

/-- **A reference is read as what it denotes exactly if it denotes a number below 65536 or a
multiple of 65536, or if a carry shows at one of its digits.** -/
theorem decode_denoted_iff {nBase : Nat} {cs szStr : List Nat}
    (h : IsNumberReference nBase cs szStr) :
    (((decode szStr).map Prod.fst).getD 0).toNat = denoted nBase cs ↔
      numberFrom nBase 0 cs < 65536 ∨ numberFrom nBase 0 cs % 65536 = 0 ∨
        ¬ NoCarryShows nBase 0 cs := by
  classical
  have hbase : 1 ≤ nBase := by
    obtain ⟨-, head, l, hhead, -⟩ := h
    cases hhead with
    | decimal => decide
    | hexadecimal => decide
  rw [decode_reference h, denoted]
  by_cases hlt : numberFrom nBase 0 cs < 65536
  · rw [if_pos (noCarryShows_of_lt hbase hlt), Nat.mod_eq_of_lt hlt]
    refine iff_of_true ?_ (Or.inl hlt)
    split <;> omega
  · have hnot : ¬ (1 ≤ numberFrom nBase 0 cs ∧ numberFrom nBase 0 cs ≤ 65535) :=
      fun hfits => hlt (Nat.lt_succ_of_le hfits.2)
    rw [if_neg hnot, or_iff_right hlt]
    by_cases hcarry : NoCarryShows nBase 0 cs
    · rw [if_pos hcarry, or_iff_left (not_not_intro hcarry)]
    · rw [if_neg hcarry]
      exact iff_of_true rfl (Or.inr hcarry)

/-- **The narrow and the wide `Decode` on numeric references.** -/
theorem decode_number_iff (nBase : Nat) (cs : List Nat) :
    (∀ szStrA : List Byte, IsNumberReference nBase cs (szStrA.map UInt8.toNat) →
      ((decodeA szStrA).toNat = denoted nBase cs ↔
        numberFrom nBase 0 cs < 65536 ∨ numberFrom nBase 0 cs % 65536 = 0 ∨
          ¬ NoCarryShows nBase 0 cs)) ∧
    (∀ szStrW : List WChar, IsNumberReference nBase cs (szStrW.map UInt16.toNat) →
      ((decodeW szStrW).toNat = denoted nBase cs ↔
        numberFrom nBase 0 cs < 65536 ∨ numberFrom nBase 0 cs % 65536 = 0 ∨
          ¬ NoCarryShows nBase 0 cs)) :=
  ⟨fun _ h => decode_denoted_iff h, fun _ h => decode_denoted_iff h⟩

theorem isNumberReference_eighty : IsNumberReference 10 [0x38, 0x30, 0x30, 0x30, 0x30]
    ((ascii "&#80000;").map UInt8.toNat) := by
  refine ⟨fun c hc => ?_, _, [], .decimal, by decide⟩
  simp only [List.mem_cons, List.not_mem_nil, or_false] at hc
  rcases hc with rfl | rfl | rfl | rfl | rfl
  · exact ⟨8, by decide, rfl⟩
  all_goals exact ⟨0, by decide, rfl⟩

/-- The letter A, by its number. -/
theorem decode_number_letter : (decodeA (ascii "&#65;")).toNat = denoted 10 [0x36, 0x35] ∧
    (decodeW (wide "&#65;")).toNat = denoted 10 [0x36, 0x35] := by
  have hdigits : AreDigits 10 [0x36, 0x35] := by
    intro c hc
    simp only [List.mem_cons, List.not_mem_nil, or_false] at hc
    rcases hc with rfl | rfl
    · exact ⟨6, by decide, rfl⟩
    · exact ⟨5, by decide, rfl⟩
  exact ⟨((decode_number_iff 10 [0x36, 0x35]).1 _ ⟨hdigits, _, [], .decimal, by decide⟩).mpr
      (Or.inl (by decide)),
    ((decode_number_iff 10 [0x36, 0x35]).2 _ ⟨hdigits, _, [], .decimal, by decide⟩).mpr
      (Or.inl (by decide))⟩

/-- The number 80000 is read as 14464, since the product of 8000 and 10 comes out larger
than 8000. -/
theorem decode_number_wraps : ¬ ∀ (nBase : Nat) (cs : List Nat) (szStrA : List Byte),
    IsNumberReference nBase cs (szStrA.map UInt8.toNat) → (decodeA szStrA).toNat = denoted nBase cs := by
  intro h
  have hread : (decodeA (ascii "&#80000;")).toNat = 14464 := by decide
  have hspec : denoted 10 [0x38, 0x30, 0x30, 0x30, 0x30] = 0 := by decide
  have heq := h 10 _ _ isNumberReference_eighty
  rw [hread, hspec] at heq
  cases heq

end MxLib.Http.HtmlEntities
