import MxLib.Http.UrlEncoding

/-!
# Percent-encoding

`CUrl::Encode` and `CUrl::Decode` for any set of allowed characters, and the two functions that
say beforehand how long their results are.
-/

namespace MxLib.Http

open MxLib.Library.Unicode

/-! ### Encoding -/

/-- The character is copied by `Encode`. -/
def isAllowed (szAllowedCharsA : List Byte) (chA : Byte) : Bool :=
  isUnreservedChar chA || (szStr szAllowedCharsA).contains chA

/-- `Encode`: what it adds to `cStrDestA`. -/
def encode (szAllowedCharsA : List Byte) : List Byte → List Byte
  | [] => []
  | chA :: szUrlA =>
    (if isAllowed szAllowedCharsA chA then [chA] else encodeByte chA) ++ encode szAllowedCharsA szUrlA

/-- The loop of `GetEncodedLength`. -/
def encodedLengthFrom (szAllowedCharsA : List Byte) : List Byte → Nat → Nat
  | [], nCount => nCount
  | chA :: szUrlA, nCount =>
    if isAllowed szAllowedCharsA chA then encodedLengthFrom szAllowedCharsA szUrlA (nCount + 1)
    else encodedLengthFrom szAllowedCharsA szUrlA (nCount + 3)

/-- `GetEncodedLength` -/
def getEncodedLength (szAllowedCharsA szUrlA : List Byte) : Nat :=
  encodedLengthFrom szAllowedCharsA szUrlA 0

theorem encodedLengthFrom_eq (szAllowedCharsA szUrlA : List Byte) (nCount : Nat) :
    encodedLengthFrom szAllowedCharsA szUrlA nCount =
      nCount + (encode szAllowedCharsA szUrlA).length := by
  induction szUrlA generalizing nCount with
  | nil => rfl
  | cons chA szUrlA ih =>
    rw [encodedLengthFrom, encode, List.length_append]
    split
    · rw [ih, List.length_singleton, Nat.add_assoc]
    · rw [ih, show (encodeByte chA).length = 3 from rfl, Nat.add_assoc]

/-! ### Decoding -/

/-- The number of bytes a unit is written with. -/
def unitLength (chW : WChar) : Nat := if chW < 0x80 then 1 else if chW < 0x800 then 2 else 3

/-- The loop of `GetDecodedLength`, with at most `fuel` characters left. -/
def decodedLengthFrom : Nat → List Byte → Nat → Nat
  | 0, _, nCount => nCount
  | fuel + 1, szUrlA, nCount =>
    match szUrlA with
    | [] => nCount
    | chA :: rest =>
      if chA &&& 0x80 != 0 then 0
      else if chA == 0x25 && (szUrlA.length ≥ 3 && decodePct szUrlA != 0) then
        decodedLengthFrom fuel (szUrlA.drop 3) (nCount + 1)
      else if chA == 0x25 && (szUrlA.length ≥ 6 && decodePctU szUrlA != 0) then
        decodedLengthFrom fuel (szUrlA.drop 6) (nCount + unitLength (decodePctU szUrlA))
      else decodedLengthFrom fuel rest (nCount + 1)

/-- `GetDecodedLength` -/
def getDecodedLength (szUrlA : List Byte) : Nat := decodedLengthFrom szUrlA.length szUrlA 0

/-- The bytes of a unit that is no zero are as many as predicted. -/
theorem length_utf8Encode {chW : WChar} (hne : chW ≠ 0) {cStrTempA : List Byte}
    (h : utf8Encode [chW] = .ok cStrTempA) : (szStr cStrTempA).length = unitLength chW := by
  rw [utf8Encode, utf8EncodeChar_single] at h
  split at h
  · cases h
  obtain rfl := Except.ok.inj h
  rw [szStr_of_ne_zero fun ch hch => ne_zero_of_mem_utf8Bytes hne hch, unitLength, utf8Bytes]
  have hlt : chW.toNat < 0x10000 := chW.toNat_lt
  have htwo : chW < 0x80 ↔ chW.toNat < 0x80 := UInt16.lt_iff_toNat_lt
  have hthree : chW < 0x800 ↔ chW.toNat < 0x800 := UInt16.lt_iff_toNat_lt
  simp only [htwo, hthree, if_pos hlt]
  split
  · rfl
  · split <;> rfl

/-- **The decoded text is as long as predicted**, where there is one. -/
theorem decodedLengthFrom_eq {fuel : Nat} {szUrlA cStrDestA r : List Byte}
    (h : decodeFrom fuel szUrlA cStrDestA = .ok r) :
    decodedLengthFrom fuel szUrlA cStrDestA.length = r.length := by
  induction fuel generalizing szUrlA cStrDestA with
  | zero =>
    obtain rfl := Except.ok.inj h
    rfl
  | succ fuel ih =>
    cases szUrlA with
    | nil =>
      obtain rfl := Except.ok.inj h
      rfl
    | cons chA rest =>
      have hnext : ∀ (szUrlA src : List Byte), decodeFrom fuel szUrlA (cStrDestA ++ src) = .ok r →
          decodedLengthFrom fuel szUrlA (cStrDestA.length + src.length) = r.length := by
        intro szUrlA src hsrc
        rw [← List.length_append]
        exact ih hsrc
      rw [decodeFrom] at h
      rw [decodedLengthFrom]
      by_cases hplus : (chA == 0x2B) = true
      · rw [if_pos hplus] at h
        obtain rfl := beq_iff_eq.mp hplus
        rw [if_neg (by decide), if_neg (by simp), if_neg (by simp)]
        exact hnext _ _ h
      rw [if_neg hplus] at h
      by_cases hpct : (chA == 0x25) = true
      · rw [if_pos hpct] at h
        obtain rfl := beq_iff_eq.mp hpct
        rw [if_neg (by decide), beq_self_eq_true, Bool.true_and, Bool.true_and]
        split at h
        · rename_i hhex
          rw [if_pos hhex]
          exact hnext _ _ h
        rename_i hhex
        rw [if_neg hhex]
        split at h
        · rename_i hunicode
          rw [if_pos hunicode]
          split at h
          · cases h
          · rename_i cStrTempA hutf
            rw [Bool.and_eq_true, bne_iff_ne] at hunicode
            rw [← length_utf8Encode hunicode.2 hutf]
            exact hnext _ _ h
        · rename_i hunicode
          rw [if_neg hunicode]
          exact hnext _ _ h
      · rw [if_neg hpct] at h
        split at h
        · cases h
        · rename_i hhigh
          rw [if_neg hhigh, Bool.eq_false_iff.mpr hpct, Bool.false_and, Bool.false_and,
            if_neg Bool.false_ne_true, if_neg Bool.false_ne_true]
          exact hnext _ _ h

/-! ### Encoded and decoded -/

theorem decodeFrom_encode {szAllowedCharsA : List Byte} (hallowed : AllowedPlain szAllowedCharsA)
    {s : List Byte} (hs : ∀ ch ∈ s, ch ≠ 0) {fuel : Nat} (cStrDestA : List Byte)
    (hfuel : (encode szAllowedCharsA s).length ≤ fuel) :
    decodeFrom fuel (encode szAllowedCharsA s) cStrDestA = .ok (cStrDestA ++ s) := by
  induction s generalizing fuel cStrDestA with
  | nil =>
    rw [List.append_nil]
    cases fuel <;> rfl
  | cons ch s ih =>
    obtain ⟨hch, hs⟩ := List.forall_mem_cons.mp hs
    rw [encode, List.length_append] at hfuel
    rw [encode]
    by_cases hcopied : isAllowed szAllowedCharsA ch = true
    · rw [if_pos hcopied, List.length_singleton] at hfuel
      obtain ⟨fuel, rfl⟩ : ∃ n, fuel = n + 1 := ⟨fuel - 1, by omega⟩
      have hplain : isPlainChar ch = true := by
        rw [isAllowed, Bool.or_eq_true, List.contains_iff_mem] at hcopied
        exact hcopied.elim isPlainChar_of_isUnreserved
          fun h => hallowed ch ((List.takeWhile_sublist _).subset h)
      rw [if_pos hcopied, List.singleton_append, decodeFrom_plain hplain, ih hs _ (by omega),
        List.append_assoc, List.singleton_append]
    · rw [if_neg hcopied, show (encodeByte ch).length = 3 from rfl] at hfuel
      obtain ⟨fuel, rfl⟩ : ∃ n, fuel = n + 1 := ⟨fuel - 1, by omega⟩
      rw [if_neg hcopied, decodeFrom_encodeByte hch, ih hs _ (by omega), List.append_assoc,
        List.singleton_append]

/-- The characters that may be allowed. -/
def isAllowable (ch : Byte) : Bool := ch != 0x25 && ch != 0x2B && ch ≤ 127

/-- **The percent codec**: what is encoded is decoded to what it was, and both lengths are
predicted. -/
theorem percentCodec :
    (∀ s szAllowedCharsA : List Byte, (∀ ch ∈ s, ch ≠ 0) →
      (∀ ch ∈ szAllowedCharsA, isAllowable ch = true) →
      decode (encode szAllowedCharsA s) = .ok s ∧
        (encode szAllowedCharsA s).length = getEncodedLength szAllowedCharsA s) ∧
    ∀ t r : List Byte, decode t = .ok r → r.length = getDecodedLength t := by
  constructor
  · intro s szAllowedCharsA hs hallowed
    have hplain : AllowedPlain szAllowedCharsA := by
      intro ch hch
      have hall : ∀ ch : Byte, (!isAllowable ch || isPlainChar ch) = true := forall_byte (by decide)
      have himp := hall ch
      rwa [hallowed ch hch, Bool.not_true, Bool.false_or] at himp
    constructor
    · rw [decode, decodeFrom_encode hplain hs [] (Nat.le_refl _), List.nil_append]
    · rw [getEncodedLength, encodedLengthFrom_eq, Nat.zero_add]
  · intro t r h
    exact (decodedLengthFrom_eq h).symm

theorem percentCodec_space :
    (decode (encode (ascii "/") (ascii "a b/%41")) = .ok (ascii "a b/%41") ∧
      (encode (ascii "/") (ascii "a b/%41")).length =
        getEncodedLength (ascii "/") (ascii "a b/%41")) ∧
    (ascii "a b%").length = getDecodedLength (ascii "a+b%") :=
  ⟨percentCodec.1 _ _ (by decide +kernel) (by decide +kernel),
    percentCodec.2 _ _ (by decide +kernel)⟩

end MxLib.Http
