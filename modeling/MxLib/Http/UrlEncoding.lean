import Mathlib.Data.Bool.AllAny
import Mathlib.Data.Nat.Bitwise
import MxLib.Http.PunycodeRoundTrip
import MxLib.Http.UrlText

/-!
# Encoded texts

What `ToStringEncode` writes is read back by `Decode` and `Utf8_Decode`, for a text of
characters that UTF-8 keeps.  An encoded text consists of unreserved characters, percent
signs and the characters that are allowed, so none of the others separates anything
in it.
-/

namespace MxLib.Http

open MxLib.Library.Unicode

/-! ### Texts that survive -/

/-- The text is what is decoded from its bytes, and they are a string. -/
def SurvivesUtf8 (s : List WChar) : Prop :=
  ∃ b, utf8Encode s = .ok b ∧ 0 ∉ b ∧ utf8Decode b = .ok s

/-- A character that is written and read one by one. -/
def IsKeptText (s : List WChar) : Prop := ∀ u ∈ s, u ≠ 0 ∧ isKept u = true

theorem isHighSurrogate_of_isKept {u : WChar} (h : isKept u = true) : isHighSurrogate u = false := by
  rw [isKept_iff] at h
  refine not_isHighSurrogate ?_
  omega

theorem isKeptText_of_survives {s : List WChar} (h : SurvivesUtf8 s) : IsKeptText s := by
  obtain ⟨b, henc, hzero, hdec⟩ := h
  induction s generalizing b with
  | nil => exact fun _ hu => absurd hu List.not_mem_nil
  | cons u s ih =>
    by_cases hu : isHighSurrogate u = true
    · have hrange : (0xD800 ≤ u && u ≤ 0xDBFF) = true := hu
      cases s with
      | nil =>
        rw [utf8Encode, if_pos hrange] at henc
        cases henc
      | cons v s =>
        by_cases hv : isLowSurrogate v = true
        · rw [utf8Encode_pair hu hv] at henc
          obtain ⟨b', -, rfl⟩ := exists_of_map_ok henc
          obtain ⟨hlo, hhi⟩ := (isHighSurrogate_iff u).mp hu
          obtain ⟨hlo', hhi'⟩ := (isLowSurrogate_iff v).mp hv
          rw [utf8Decode_four (by rw [pairValue]; omega) (by rw [pairValue]; omega)] at hdec
          cases hdec
        · have hrange' : (v < 0xDC00 || v > 0xDFFF) = true := by
            rw [isLowSurrogate, Bool.and_eq_true, not_and_or] at hv
            simpa [UInt16.not_le] using hv
          rw [utf8Encode, if_pos hrange, if_pos hrange'] at henc
          cases henc
    · rw [Bool.not_eq_true] at hu
      rw [utf8Encode_single hu] at henc
      obtain ⟨b', hb', rfl⟩ := exists_of_map_ok henc
      rw [utf8Decode_single] at hdec
      by_cases hk : isKept u = true
      · rw [if_pos hk] at hdec
        obtain ⟨s', hs', hcons⟩ := exists_of_map_ok hdec
        obtain ⟨-, rfl⟩ := List.cons.inj hcons
        have hzero' := not_or.mp (List.mem_append.not.mp hzero)
        rw [IsKeptText, List.forall_mem_cons]
        refine ⟨⟨?_, hk⟩, ih b' hb' hzero'.2 hs'⟩
        rintro rfl
        exact hzero'.1 (by decide)
      · rw [if_neg hk] at hdec
        cases hdec

/-! ### What is written -/

/-- The text of a character. -/
def escape (szAllowedCharsA : List Byte) (u : WChar) : List Byte :=
  if isCopied szAllowedCharsA u then [u.toUInt8] else (utf8Bytes u.toNat).flatMap encodeByte

def encoded (szAllowedCharsA : List Byte) (s : List WChar) : List Byte :=
  s.flatMap (escape szAllowedCharsA)

theorem encoded_cons (szAllowedCharsA : List Byte) (u : WChar) (s : List WChar) :
    encoded szAllowedCharsA (u :: s) = escape szAllowedCharsA u ++ encoded szAllowedCharsA s := rfl

theorem toStringEncode_eq {szAllowedCharsA : List Byte} {s : List WChar} (h : IsKeptText s) :
    toStringEncode szAllowedCharsA s = .ok (encoded szAllowedCharsA s) := by
  induction s with
  | nil => rfl
  | cons u s ih =>
    obtain ⟨⟨-, hu⟩, hs⟩ := List.forall_mem_cons.mp h
    have hhigh : ¬ (0xD800 ≤ u && u ≤ 0xDBFF) = true :=
      Bool.eq_false_iff.mp (isHighSurrogate_of_isKept hu)
    rw [encoded_cons, escape]
    cases s with
    | nil =>
      rw [toStringEncode, utf8EncodeChar_single]
      split <;> simp [encoded, encodeChar]
    | cons v s =>
      rw [toStringEncode, ih hs, utf8EncodeChar_single, if_neg hhigh]
      split <;> rfl

/-- The characters of an encoded text. -/
def IsEncoded (szAllowedCharsA : List Byte) (ch : Byte) : Prop :=
  isUnreservedChar ch = true ∨ ch ∈ szAllowedCharsA ∨ ch = 0x25

/-- The escape of a byte is a percent sign and two digits, and is read as the byte. -/
theorem encodeByte_facts : ∀ b : Byte,
    (encodeByte b).all (fun ch => isUnreservedChar ch || ch == 0x25) = true ∧
      (encodeByte b).tail.all (· != 0x25) = true ∧ decodePct (encodeByte b) = b :=
  forall_byte (by decide)

theorem isEncoded_encodeByte {szAllowedCharsA : List Byte} {b ch : Byte} (h : ch ∈ encodeByte b) :
    IsEncoded szAllowedCharsA ch := by
  have hch := List.all_eq_true.mp (encodeByte_facts b).1 ch h
  rw [Bool.or_eq_true, beq_iff_eq] at hch
  exact hch.imp_right Or.inr

theorem isEncoded_of_mem {szAllowedCharsA : List Byte} {s : List WChar} {ch : Byte}
    (h : ch ∈ encoded szAllowedCharsA s) : IsEncoded szAllowedCharsA ch := by
  obtain ⟨u, -, hch⟩ := List.mem_flatMap.mp h
  rw [escape] at hch
  split at hch
  · rename_i hcopied
    rw [isCopied, Bool.and_eq_true, Bool.or_eq_true, List.contains_iff_mem] at hcopied
    rw [List.mem_singleton.mp hch]
    exact hcopied.2.imp_right Or.inl
  · obtain ⟨b, -, hch⟩ := List.mem_flatMap.mp hch
    exact isEncoded_encodeByte hch

/-- The first character is copied, or a percent sign. -/
theorem encoded_ne_nil {szAllowedCharsA : List Byte} {s : List WChar} (hs : s ≠ []) :
    encoded szAllowedCharsA s ≠ [] := by
  obtain ⟨u, s, rfl⟩ := List.exists_cons_of_ne_nil hs
  rw [encoded_cons, escape]
  split
  · exact List.cons_ne_nil _ _
  · obtain ⟨b, bs, hb⟩ := List.exists_cons_of_ne_nil (utf8Bytes_ne_nil u.toNat)
    rw [hb]
    exact List.cons_ne_nil _ _

/-! ### What is read -/

theorem decodePct_encodeByte (ch : Byte) (rest : List Byte) :
    decodePct (encodeByte ch ++ rest) = ch :=
  (encodeByte_facts ch).2.2

theorem decodeFrom_pct {rest : List Byte} (hlen : 2 ≤ rest.length)
    (hpct : decodePct (0x25 :: rest) ≠ 0) (fuel : Nat) (cStrDestA : List Byte) :
    decodeFrom (fuel + 1) (0x25 :: rest) cStrDestA =
      decodeFrom fuel (rest.drop 2) (cStrDestA ++ [decodePct (0x25 :: rest)]) := by
  rw [decodeFrom, if_neg (by decide), if_pos (by decide), if_pos, List.drop_succ_cons]
  rw [Bool.and_eq_true, bne_iff_ne, decide_eq_true_iff, List.length_cons]
  exact ⟨by omega, hpct⟩

theorem decodeFrom_encodeByte {ch : Byte} (hch : ch ≠ 0) (fuel : Nat) (rest cStrDestA : List Byte) :
    decodeFrom (fuel + 1) (encodeByte ch ++ rest) cStrDestA =
      decodeFrom fuel rest (cStrDestA ++ [ch]) := by
  have hpct := decodePct_encodeByte ch rest
  refine (decodeFrom_pct ?_ ?_ fuel cStrDestA).trans ?_
  · exact Nat.le_add_left 2 _
  · exact hpct.trans_ne hch
  · exact congrArg (fun b => decodeFrom fuel rest (cStrDestA ++ [b])) hpct

theorem decodeFrom_encodeBytes {bs : List Byte} (hbs : ∀ ch ∈ bs, ch ≠ 0) {fuel : Nat}
    (rest cStrDestA : List Byte) (hfuel : (bs.flatMap encodeByte ++ rest).length ≤ fuel) :
    ∃ fuel', rest.length ≤ fuel' ∧ decodeFrom fuel (bs.flatMap encodeByte ++ rest) cStrDestA =
      decodeFrom fuel' rest (cStrDestA ++ bs) := by
  induction bs generalizing fuel cStrDestA with
  | nil => exact ⟨fuel, hfuel, by rw [List.append_nil]; rfl⟩
  | cons ch bs ih =>
    obtain ⟨hch, hbs⟩ := List.forall_mem_cons.mp hbs
    rw [List.flatMap_cons, List.append_assoc] at hfuel ⊢
    rw [List.length_append, show (encodeByte ch).length = 3 from rfl] at hfuel
    obtain ⟨fuel, rfl⟩ : ∃ n, fuel = n + 1 := ⟨fuel - 1, by omega⟩
    obtain ⟨fuel', hle, heq⟩ := @ih hbs fuel (cStrDestA ++ [ch]) (by omega)
    refine ⟨fuel', hle, ?_⟩
    rw [decodeFrom_encodeByte hch, heq, List.append_assoc, List.singleton_append]

/-- The highest bit of a byte is that of the bytes that are not ASCII. -/
theorem and_80_eq_zero_iff (ch : Byte) : ch &&& 0x80 = 0 ↔ ch.toNat < 0x80 := by
  have hlt := ch.toNat_lt
  have hand : (ch &&& 0x80).toNat = (ch.toNat.testBit 7).toNat * 2 ^ 7 := by
    rw [UInt8.toNat_and]
    exact Nat.and_two_pow ch.toNat 7
  rw [← UInt8.toNat_inj, hand, Nat.testBit_eq_decide_div_mod_eq, UInt8.toNat_zero,
    mul_eq_zero_iff_right (by decide), Bool.toNat_eq_zero, decide_eq_false_iff_not]
  omega

/-- A character that `Decode` copies. -/
def isPlainChar (ch : Byte) : Bool := ch != 0x2B && ch != 0x25 && ch &&& 0x80 == 0

theorem decodeFrom_plain {ch : Byte} (hch : isPlainChar ch = true) (fuel : Nat)
    (rest cStrDestA : List Byte) :
    decodeFrom (fuel + 1) (ch :: rest) cStrDestA = decodeFrom fuel rest (cStrDestA ++ [ch]) := by
  rw [isPlainChar, Bool.and_eq_true, Bool.and_eq_true, bne_iff_ne, bne_iff_ne, beq_iff_eq] at hch
  obtain ⟨⟨hplus, hpct⟩, hhigh⟩ := hch
  rw [decodeFrom, if_neg (by simpa using hplus), if_neg (by simpa using hpct),
    if_neg (by simpa using hhigh)]

/-- The allowed characters are read as they are. -/
def AllowedPlain (szAllowedCharsA : List Byte) : Prop :=
  ∀ ch ∈ szAllowedCharsA, isPlainChar ch = true

theorem isPlainChar_of_isUnreserved {ch : Byte} (h : isUnreservedChar ch = true) :
    isPlainChar ch = true := by
  have hall : ∀ ch : Byte, (!isUnreservedChar ch || isPlainChar ch) = true :=
    forall_byte (by decide)
  simpa [h] using hall ch

theorem toUInt8_eq_utf8Bytes {u : WChar} (h : u < 127) : [u.toUInt8] = utf8Bytes u.toNat := by
  have hlt : u.toNat < 127 := UInt16.lt_iff_toNat_lt.mp h
  rw [utf8Bytes, if_pos (by omega)]
  rfl

theorem ne_zero_of_mem_utf8Bytes {u : WChar} (hu : u ≠ 0) {ch : Byte}
    (h : ch ∈ utf8Bytes u.toNat) : ch ≠ 0 := by
  have hne : u.toNat ≠ 0 := fun h0 => hu (UInt16.toNat_inj.mp h0)
  by_cases hlt : u.toNat < 0x80
  · rw [utf8Bytes, if_pos hlt, List.mem_singleton] at h
    intro h0
    rw [h0, ← UInt8.toNat_inj, toNat_ofNat_byte (by omega)] at h
    exact hne h.symm
  · have hle := le_of_mem_utf8Bytes (by omega) (Nat.lt_trans u.toNat_lt (by decide)) ch h
    intro h0
    rw [h0] at hle
    exact absurd hle (by decide)

theorem decodeFrom_encoded {szAllowedCharsA : List Byte} (hallowed : AllowedPlain szAllowedCharsA)
    {s : List WChar} (hs : IsKeptText s) {fuel : Nat} (cStrDestA : List Byte)
    (hfuel : (encoded szAllowedCharsA s).length ≤ fuel) :
    decodeFrom fuel (encoded szAllowedCharsA s) cStrDestA =
      .ok (cStrDestA ++ s.flatMap fun u => utf8Bytes u.toNat) := by
  induction s generalizing fuel cStrDestA with
  | nil =>
    rw [List.flatMap_nil, List.append_nil]
    cases fuel <;> rfl
  | cons u s ih =>
    obtain ⟨⟨hu, -⟩, hs⟩ := List.forall_mem_cons.mp hs
    rw [List.flatMap_cons, ← List.append_assoc]
    rw [encoded_cons, escape] at hfuel ⊢
    split at hfuel
    · rename_i hcopied
      rw [if_pos hcopied]
      rw [isCopied, Bool.and_eq_true, Bool.or_eq_true, List.contains_iff_mem,
        decide_eq_true_iff] at hcopied
      have hplain : isPlainChar u.toUInt8 = true :=
        hcopied.2.elim isPlainChar_of_isUnreserved (hallowed _)
      rw [List.length_append, List.length_singleton] at hfuel
      obtain ⟨fuel, rfl⟩ : ∃ n, fuel = n + 1 := ⟨fuel - 1, by omega⟩
      rw [List.singleton_append, decodeFrom_plain hplain, ih hs _ (by omega),
        toUInt8_eq_utf8Bytes hcopied.1]
    · rename_i hcopied
      rw [if_neg hcopied]
      obtain ⟨fuel', hle, heq⟩ := decodeFrom_encodeBytes
        (fun ch hch => ne_zero_of_mem_utf8Bytes hu hch) _ cStrDestA hfuel
      rw [heq, ih hs _ hle]

theorem utf8Decode_flatMap {s : List WChar} (hs : IsKeptText s) :
    utf8Decode (s.flatMap fun u => utf8Bytes u.toNat) = .ok s := by
  induction s with
  | nil => rfl
  | cons u s ih =>
    obtain ⟨⟨-, hu⟩, hs⟩ := List.forall_mem_cons.mp hs
    rw [List.flatMap_cons, utf8Decode_single, if_pos hu, ih hs]
    rfl

/-- **An encoded text is decoded to the text.** -/
theorem decodeText_encoded {szAllowedCharsA : List Byte} (hallowed : AllowedPlain szAllowedCharsA)
    {s : List WChar} (hs : IsKeptText s) : decodeText (encoded szAllowedCharsA s) = .ok s := by
  rw [decodeText, decode, decodeFrom_encoded hallowed hs [] (Nat.le_refl _), List.nil_append]
  exact utf8Decode_flatMap hs

/-! ### What is not found in a path -/

theorem isInfix_of_strNFindA {szToFindA l : List Byte} (hzero : 0 ∉ szToFindA)
    (h : strNFindA szToFindA l = true) : szToFindA <:+: l := by
  induction l with
  | nil => cases h
  | cons ch l ih =>
    rw [strNFindA] at h
    split at h
    · cases h
    · rcases Bool.or_eq_true_iff.mp h with h | h
      · have hfind : szStr szToFindA = szToFindA :=
          szStr_of_ne_zero fun ch hch h0 => hzero (h0 ▸ hch)
        rw [strNCompareA, hfind, List.take_length, beq_iff_eq] at h
        refine List.IsPrefix.isInfix ?_
        have hprefix : (szStr (ch :: l)).take szToFindA.length <+: ch :: l :=
          (List.take_prefix _ _).trans (List.takeWhile_prefix _)
        exact (show _ = szToFindA from h) ▸ hprefix
      · exact List.infix_cons (ih h)

theorem encodeByte_digits {b ch : Byte} (h : ch ∈ (encodeByte b).tail) : ch ≠ 0x25 :=
  bne_iff_ne.mp (List.all_eq_true.mp (encodeByte_facts b).2.1 ch h)

/-- An escape in an encoded text is one that was written. -/
theorem exists_encodeByte_of_infix {szAllowedCharsA : List Byte}
    (hallowed : AllowedPlain szAllowedCharsA) {s : List WChar} {d0 d1 : Byte} {t : List Byte}
    (h : 0x25 :: d0 :: d1 :: t <:+: encoded szAllowedCharsA s) :
    ∃ b, ∃ u ∈ s, b ∈ utf8Bytes u.toNat ∧ isCopied szAllowedCharsA u = false ∧
      encodeByte b = [0x25, d0, d1] := by
  have hskip : ∀ (ch : Byte) (l : List Byte), ch ≠ 0x25 → 0x25 :: d0 :: d1 :: t <:+: ch :: l →
      0x25 :: d0 :: d1 :: t <:+: l := by
    intro ch l hch hinfix
    rcases List.infix_cons_iff.mp hinfix with hprefix | hinfix
    · exact absurd (List.cons_prefix_cons.mp hprefix).1.symm hch
    · exact hinfix
  have hbyte : ∀ (b : Byte) (l : List Byte), 0x25 :: d0 :: d1 :: t <:+: encodeByte b ++ l →
      encodeByte b = [0x25, d0, d1] ∨ 0x25 :: d0 :: d1 :: t <:+: l := by
    intro b l hinfix
    have hdigits : ∀ ch ∈ (encodeByte b).tail, ch ≠ 0x25 := fun _ hch => encodeByte_digits hch
    rw [encodeByte] at hinfix hdigits ⊢
    rcases List.infix_cons_iff.mp hinfix with hprefix | hinfix
    · obtain ⟨-, hprefix⟩ := List.cons_prefix_cons.mp hprefix
      obtain ⟨h0, hprefix⟩ := List.cons_prefix_cons.mp hprefix
      obtain ⟨h1, -⟩ := List.cons_prefix_cons.mp hprefix
      exact Or.inl (by rw [h0, h1])
    · refine Or.inr (hskip _ _ ?_ (hskip _ _ ?_ hinfix))
      · exact hdigits _ (List.mem_cons_of_mem _ List.mem_cons_self)
      · exact hdigits _ List.mem_cons_self
  induction s with
  | nil => exact absurd (List.eq_nil_of_infix_nil h) (List.cons_ne_nil _ _)
  | cons u s ih =>
    rw [encoded_cons, escape] at h
    have hrest : 0x25 :: d0 :: d1 :: t <:+: encoded szAllowedCharsA s →
        ∃ b, ∃ v ∈ u :: s, b ∈ utf8Bytes v.toNat ∧ isCopied szAllowedCharsA v = false ∧
          encodeByte b = [0x25, d0, d1] := fun h => by
      obtain ⟨b, v, hv, hb⟩ := ih h
      exact ⟨b, v, List.mem_cons_of_mem u hv, hb⟩
    split at h
    · rename_i hcopied
      rw [isCopied, Bool.and_eq_true, Bool.or_eq_true, List.contains_iff_mem] at hcopied
      have hplain : isPlainChar u.toUInt8 = true :=
        hcopied.2.elim isPlainChar_of_isUnreserved (hallowed _)
      refine hrest (hskip _ _ ?_ h)
      rw [isPlainChar, Bool.and_eq_true, Bool.and_eq_true, bne_iff_ne, bne_iff_ne] at hplain
      exact hplain.1.2
    · rename_i hcopied
      rw [Bool.not_eq_true] at hcopied
      have hbytes : ∀ bs : List Byte, (∀ b ∈ bs, b ∈ utf8Bytes u.toNat) →
          0x25 :: d0 :: d1 :: t <:+: bs.flatMap encodeByte ++ encoded szAllowedCharsA s →
          ∃ b, ∃ v ∈ u :: s, b ∈ utf8Bytes v.toNat ∧ isCopied szAllowedCharsA v = false ∧
            encodeByte b = [0x25, d0, d1] := by
        intro bs hbs hinfix
        induction bs with
        | nil => exact hrest hinfix
        | cons b bs ihb =>
          obtain ⟨hb, hbs⟩ := List.forall_mem_cons.mp hbs
          rw [List.flatMap_cons, List.append_assoc] at hinfix
          rcases hbyte b _ hinfix with h | h
          · exact ⟨b, u, List.mem_cons_self, hb, hcopied, h⟩
          · exact ihb hbs h
      exact hbytes _ (fun _ h => h) h

/-- The bytes of a character that is not copied into a path. -/
theorem byte_of_not_copied {u : WChar} (hu : u ≠ 0) (hcopied : isCopied (ascii "/") u = false)
    (hback : u ≠ backslashW) {b : Byte} (h : b ∈ utf8Bytes u.toNat) :
    b ≠ 0 ∧ b ≠ 0x2F ∧ b ≠ 0x5C := by
  refine ⟨ne_zero_of_mem_utf8Bytes hu h, ?_⟩
  by_cases hlt : u.toNat < 0x80
  · rw [utf8Bytes, if_pos hlt, List.mem_singleton] at h
    have hbu : b.toNat = u.toNat := by rw [h, toNat_ofNat_byte (by omega)]
    refine ⟨?_, ?_⟩
    · rintro rfl
      have hslash : u = 0x2F := UInt16.toNat_inj.mp hbu.symm
      rw [hslash] at hcopied
      exact absurd hcopied (by decide)
    · rintro rfl
      exact hback (UInt16.toNat_inj.mp hbu.symm)
  · have hle := le_of_mem_utf8Bytes (by omega) (Nat.lt_trans u.toNat_lt (by decide)) b h
    constructor
    · rintro rfl
      exact absurd hle (by decide)
    · rintro rfl
      exact absurd hle (by decide)

end MxLib.Http
