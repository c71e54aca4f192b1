import Mathlib.Data.List.Basic
import MxLib.Library.Unicode
import MxLib.Strings.Utf8

/-!
# What the UTF-8 functions accept

`Utf8_Encode` gives the UTF-8 form of every string that is well formed.
`Utf8_Decode` takes every lead byte from `0xE0` to `0xF8` for the first one of three,
but `0xED`, and does not look at the second byte beyond its two high bits
(`IsLoose`).  So it does not read what stands for the code points from `U+D000` to
`U+DFFF` or above `U+FFFF`, and it reads forms that are no UTF-8: a lead byte above
`0xEF`, or `0xE0` before a byte below `0xA0`.
-/

namespace MxLib

open MxLib.Library.Unicode

/-! ### Encoding a code point -/

theorem toUInt8_eq_ofNat (n : UInt32) : n.toUInt8 = UInt8.ofNat n.toNat := by
  apply UInt8.toNat_inj.mp
  rw [UInt32.toNat_toUInt8]
  rfl

theorem trail_eq (n : UInt32) :
    ((n ||| 0x80) &&& 0xBF).toUInt8 = UInt8.ofNat (0x80 + n.toNat % 64) := by
  have h : ∀ ch : Byte, (ch ||| 0x80) &&& 0xBF = UInt8.ofNat (0x80 + ch.toNat % 64) :=
    forall_byte (by decide)
  have hn : n.toUInt8.toNat % 64 = n.toNat % 64 := by
    rw [UInt32.toNat_toUInt8]
    omega
  rw [UInt32.toUInt8_and, UInt32.toUInt8_or, ← hn]
  exact h n.toUInt8

theorem toNat_shiftRight_eq (n : UInt32) {k : Nat} (hk : k < 32) :
    (n >>> UInt32.ofNat k).toNat = n.toNat / 2 ^ k := by
  rw [UInt32.toNat_shiftRight, Nat.shiftRight_eq_div_pow]
  congr 2
  rw [UInt32.toNat_ofNat']
  omega

/-- The first byte of two. -/
theorem mark_two {n : UInt32} (hn : n.toNat < 32) :
    (n ||| 0xC0).toUInt8 = UInt8.ofNat (0xC0 + n.toNat) := by
  have h : ∀ k < 32, UInt8.ofNat k ||| 0xC0 = UInt8.ofNat (0xC0 + k) := by decide
  rw [UInt32.toUInt8_or, toUInt8_eq_ofNat]
  exact h n.toNat hn

/-- The first byte of three. -/
theorem mark_three {n : UInt32} (hn : n.toNat < 16) :
    (n ||| 0xE0).toUInt8 = UInt8.ofNat (0xE0 + n.toNat) := by
  have h : ∀ k < 16, UInt8.ofNat k ||| 0xE0 = UInt8.ofNat (0xE0 + k) := by decide
  rw [UInt32.toUInt8_or, toUInt8_eq_ofNat]
  exact h n.toNat hn

/-- The first byte of four. -/
theorem mark_four {n : UInt32} (hn : n.toNat < 8) :
    (n ||| 0xF0).toUInt8 = UInt8.ofNat (0xF0 + n.toNat) := by
  have h : ∀ k < 8, UInt8.ofNat k ||| 0xF0 = UInt8.ofNat (0xF0 + k) := by decide
  rw [UInt32.toUInt8_or, toUInt8_eq_ofNat]
  exact h n.toNat hn

/-- **The bytes of a code point are its UTF-8 form.** -/
theorem utf8EncodeValue_eq {nVal : UInt32} (h : nVal.toNat < 0x200000) :
    utf8EncodeValue nVal = utf8Bytes nVal.toNat := by
  have h6 : (nVal >>> 6).toNat = nVal.toNat / 64 := toNat_shiftRight_eq nVal (k := 6) (by omega)
  have h12 : (nVal >>> 12).toNat = nVal.toNat / 4096 :=
    toNat_shiftRight_eq nVal (k := 12) (by omega)
  have h18 : (nVal >>> 18).toNat = nVal.toNat / 262144 :=
    toNat_shiftRight_eq nVal (k := 18) (by omega)
  simp only [utf8EncodeValue, utf8Bytes, UInt32.lt_iff_toNat_lt, UInt32.reduceToNat, trail_eq,
    h6, h12]
  by_cases h1 : nVal.toNat < 0x80
  · rw [if_pos h1, if_pos h1, toUInt8_eq_ofNat]
  rw [if_neg h1, if_neg h1]
  by_cases h2 : nVal.toNat < 0x800
  · rw [if_pos h2, if_pos h2, mark_two (by omega), h6]
  rw [if_neg h2, if_neg h2]
  by_cases h3 : nVal.toNat < 0x10000
  · rw [if_pos h3, if_pos h3, mark_three (by omega), h12]
  rw [if_neg h3, if_neg h3, mark_four (by omega), h18]

/-! ### Encoding a string -/

theorem utf8EncodeChar_single (u : WChar) : utf8EncodeChar u 0 = some (utf8Bytes u.toNat) := by
  have h : u.toUInt32.toNat = u.toNat := UInt16.toNat_toUInt32 u
  have hlt : u.toNat < 65536 := u.toNat_lt
  have hval : utf8EncodeValue u.toUInt32 = utf8Bytes u.toNat := by
    rw [utf8EncodeValue_eq (by omega), h]
  rw [utf8EncodeChar, if_neg (by simp), hval]

theorem utf8EncodeChar_pair {u v : WChar} (hu : isHighSurrogate u = true)
    (hv : isLowSurrogate v = true) :
    utf8EncodeChar u v = some (utf8Bytes (pairValue u v)) := by
  have hu' := (isHighSurrogate_iff u).mp hu
  have hv' := (isLowSurrogate_iff v).mp hv
  have hne : v ≠ 0 := by
    rintro rfl
    simp at hv'
  have hhigh : (0xD800 ≤ u && u ≤ 0xDBFF && v != 0) = true := by
    rw [Bool.and_eq_true]
    exact ⟨hu, bne_iff_ne.mpr hne⟩
  have hlow : ¬ (v < 0xDC00 || v > 0xDFFF) = true := by
    simp [UInt16.lt_iff_toNat_lt, hv'.1, hv'.2]
  have hval : (((u - 0xD800).toUInt32 <<< 10) + 0x10000 + (v - 0xDC00).toUInt32).toNat
      = pairValue u v := by
    have hx : (u - 0xD800).toNat = u.toNat - 0xD800 :=
      UInt16.toNat_sub_of_le _ _ (by simpa [UInt16.le_iff_toNat_le] using hu'.1)
    have hy : (v - 0xDC00).toNat = v.toNat - 0xDC00 :=
      UInt16.toNat_sub_of_le _ _ (by simpa [UInt16.le_iff_toNat_le] using hv'.1)
    rw [UInt32.toNat_add, UInt32.toNat_add, UInt32.toNat_shiftLeft, UInt16.toNat_toUInt32,
      UInt16.toNat_toUInt32, hx, hy, Nat.shiftLeft_eq, pairValue]
    simp only [UInt32.reduceToNat, Nat.reduceMod, Nat.reducePow]
    omega
  rw [utf8EncodeChar, if_pos hhigh, if_neg hlow, utf8EncodeValue_eq, hval]
  rw [hval, pairValue]
  omega

theorem utf8Encode_single {u : WChar} (hu : isHighSurrogate u = false) (s : List WChar) :
    utf8Encode (u :: s) = (utf8Encode s).map (utf8Bytes u.toNat ++ ·) := by
  have hu' : ¬ (0xD800 ≤ u && u ≤ 0xDBFF) = true := by
    rw [Bool.not_eq_true]
    exact hu
  cases s with
  | nil => simp [utf8Encode, hu', utf8EncodeChar_single, Except.map]
  | cons v s => rw [utf8Encode, if_neg hu', utf8EncodeChar_single]

theorem utf8Encode_pair {u v : WChar} (hu : isHighSurrogate u = true)
    (hv : isLowSurrogate v = true) (s : List WChar) :
    utf8Encode (u :: v :: s) = (utf8Encode s).map (utf8Bytes (pairValue u v) ++ ·) := by
  have hu' : (0xD800 ≤ u && u ≤ 0xDBFF) = true := hu
  have hv' := (isLowSurrogate_iff v).mp hv
  have hlow : ¬ (v < 0xDC00 || v > 0xDFFF) = true := by
    simp [UInt16.lt_iff_toNat_lt, hv'.1, hv'.2]
  rw [utf8Encode, if_pos hu', if_neg hlow, utf8EncodeChar_pair hu hv]

/-- The encoder gives the UTF-8 form of a well-formed string. -/
theorem utf8Encode_eq_utf8Text {s : List WChar} (h : isWellFormed s = true) :
    utf8Encode s = .ok (utf8Text s) := by
  refine isWellFormed_induct ?nil ?single ?pair h
  case nil => rfl
  case single =>
    intro u s hu _ _ ih
    rw [utf8Encode_single hu, ih, utf8Text_single hu]
    rfl
  case pair =>
    intro u v s hu hv _ ih
    rw [utf8Encode_pair hu hv, ih, utf8Text_pair hu]
    rfl

/-! ### Decoding a character -/

/-- A byte that is the first one of a form of three, for the decoder. -/
def isLead3 (ch : Byte) : Bool := 0xE0 ≤ ch && ch ≤ 0xF8 && ch != 0xED

theorem isContinuation_iff (ch : Byte) :
    isContinuation ch = true ↔ 0x80 ≤ ch.toNat ∧ ch.toNat < 0xC0 := by
  have h : ∀ ch : Byte, isContinuation ch = decide (0x80 ≤ ch.toNat ∧ ch.toNat < 0xC0) :=
    forall_byte (by decide)
  rw [h, decide_eq_true_iff]

theorem signedChar_le (ch : Byte) : signedChar ch ≤ 0xEF := by
  have h : ∀ ch : Byte, decide (signedChar ch ≤ 0xEF) = true := forall_byte (by decide)
  exact of_decide_eq_true (h ch)

theorem not_ascii_of_le {ch : Byte} (h : 0x80 ≤ ch.toNat) : ¬ ch < 0x80 := by
  simp only [UInt8.lt_iff_toNat_lt, UInt8.reduceToNat]
  omega

theorem isLead_of_le {ch : Byte} (hlo : 0xC2 ≤ ch.toNat) (hhi : ch.toNat ≤ 0xF8) :
    ¬ (ch < 0xC2 || ch > 0xF8) = true := by
  simp only [gt_iff_lt, Bool.or_eq_true, decide_eq_true_eq, UInt8.lt_iff_toNat_lt,
    UInt8.reduceToNat]
  omega

/-- A byte above `0x7F` that is no lead byte: no form of the decoder begins with it. -/
theorem utf8DecodeChar_none {sA : List Byte}
    (h : (0x80 ≤ (charAt sA 0).toNat ∧ (charAt sA 0).toNat < 0xC2) ∨ 0xF8 < (charAt sA 0).toNat) :
    utf8DecodeChar sA = none := by
  have h2 : (charAt sA 0 < 0xC2 || charAt sA 0 > 0xF8) = true := by
    simp only [gt_iff_lt, Bool.or_eq_true, decide_eq_true_eq, UInt8.lt_iff_toNat_lt,
      UInt8.reduceToNat]
    omega
  simp only [utf8DecodeChar]
  rw [if_neg (not_ascii_of_le (by omega)), if_pos h2]
  exact ite_self _

theorem ne_nil_of_lead {sA : List Byte} (h : 0x80 ≤ (charAt sA 0).toNat) :
    ¬ (sA.length == 0) = true := by
  cases sA with
  | nil => simp at h
  | cons ch sA => simp

theorem utf8DecodeChar_two {sA : List Byte} (hlo : 0xC2 ≤ (charAt sA 0).toNat)
    (hhi : (charAt sA 0).toNat ≤ 0xDF) :
    utf8DecodeChar sA =
      if 2 ≤ sA.length ∧ isContinuation (charAt sA 1) = true then
        some (.ofNat ((charAt sA 0).toNat % 32 * 64 + (charAt sA 1).toNat % 64), 0, 2)
      else none := by
  have h3 : charAt sA 0 ≤ 0xDF := by
    simpa only [UInt8.le_iff_toNat_le, UInt8.reduceToNat] using hhi
  simp only [utf8DecodeChar]
  rw [if_neg (ne_nil_of_lead (by omega)), if_neg (not_ascii_of_le (by omega)),
    if_neg (isLead_of_le hlo (by omega)), if_pos h3]
  by_cases hform : 2 ≤ sA.length ∧ isContinuation (charAt sA 1) = true
  · obtain ⟨hlen, hc⟩ := hform
    have hc' := (isContinuation_iff _).mp hc
    have hval : (((charAt sA 0).toUInt32 <<< 6) + (charAt sA 1).toUInt32 - 0x3080).toUInt16
        = .ofNat ((charAt sA 0).toNat % 32 * 64 + (charAt sA 1).toNat % 64) := by
      apply UInt16.toNat_inj.mp
      simp only [UInt32.toNat_toUInt16, UInt32.toNat_sub, UInt32.toNat_add,
        UInt32.toNat_shiftLeft, UInt8.toNat_toUInt32, UInt32.reduceToNat, Nat.shiftLeft_eq,
        UInt16.toNat_ofNat', Nat.reduceMod, Nat.reducePow]
      omega
    have hguard : ¬ (sA.length < 2 || !isContinuation (charAt sA 1)) = true := by
      rw [hc, Bool.not_true, Bool.or_false, decide_eq_true_iff]
      omega
    rw [if_neg hguard, if_pos ⟨hlen, hc⟩, hval]
  · have hguard : (sA.length < 2 || !isContinuation (charAt sA 1)) = true := by
      by_cases hlen : 2 ≤ sA.length
      · simp [show ¬ isContinuation (charAt sA 1) = true from fun hc => hform ⟨hlen, hc⟩]
      · rw [Bool.or_eq_true, decide_eq_true_iff]
        exact .inl (Nat.lt_of_not_le hlen)
    rw [if_pos hguard, if_neg hform]

theorem utf8DecodeChar_three {sA : List Byte} (hlo : 0xE0 ≤ (charAt sA 0).toNat)
    (hhi : (charAt sA 0).toNat ≤ 0xF8) :
    utf8DecodeChar sA =
      if 3 ≤ sA.length ∧ charAt sA 0 ≠ 0xED ∧ isContinuation (charAt sA 1) = true ∧
          isContinuation (charAt sA 2) = true then
        some (.ofNat ((charAt sA 0).toNat % 16 * 4096 + (charAt sA 1).toNat % 64 * 64 +
          (charAt sA 2).toNat % 64), 0, 3)
      else none := by
  have h3 : ¬ charAt sA 0 ≤ 0xDF := by
    simp only [UInt8.le_iff_toNat_le, UInt8.reduceToNat]
    omega
  have h4 : ¬ charAt sA 0 < 0xA0 := by
    simp only [UInt8.lt_iff_toNat_lt, UInt8.reduceToNat]
    omega
  simp only [utf8DecodeChar]
  rw [if_neg (ne_nil_of_lead (by omega)), if_neg (not_ascii_of_le (by omega)),
    if_neg (isLead_of_le (by omega) hhi), if_neg h3, if_pos (signedChar_le _)]
  by_cases hform : 3 ≤ sA.length ∧ charAt sA 0 ≠ 0xED ∧ isContinuation (charAt sA 1) = true ∧
      isContinuation (charAt sA 2) = true
  · rw [if_pos hform]
    obtain ⟨hlen, hed, hc, hd⟩ := hform
    have hc' := (isContinuation_iff _).mp hc
    have hd' := (isContinuation_iff _).mp hd
    have hval : (((charAt sA 0).toUInt32 <<< 12) + ((charAt sA 1).toUInt32 <<< 6) +
        (charAt sA 2).toUInt32 - 0xE2080).toUInt16 =
          .ofNat ((charAt sA 0).toNat % 16 * 4096 + (charAt sA 1).toNat % 64 * 64 +
            (charAt sA 2).toNat % 64) := by
      apply UInt16.toNat_inj.mp
      simp only [UInt32.toNat_toUInt16, UInt32.toNat_sub, UInt32.toNat_add,
        UInt32.toNat_shiftLeft, UInt8.toNat_toUInt32, UInt32.reduceToNat, Nat.shiftLeft_eq,
        UInt16.toNat_ofNat', Nat.reduceMod, Nat.reducePow]
      omega
    rw [if_neg (by simp [hc, hd, hed, h4, hlen]), hval]
  · rw [if_neg hform, if_pos]
    by_cases hlen : 3 ≤ sA.length
    · by_cases hed : charAt sA 0 = 0xED
      · simp [hed]
      · by_cases hc : isContinuation (charAt sA 1) = true
        · have hd : ¬ isContinuation (charAt sA 2) = true :=
            fun hd => hform ⟨hlen, hed, hc, hd⟩
          simp [hd]
        · simp [hc]
    · simp [Nat.lt_of_not_le hlen]

/-! ### Decoding a string -/

theorem utf8DecodeChar_pos {sA : List Byte} {ch0 ch1 : WChar} {res : Nat}
    (h : utf8DecodeChar sA = some (ch0, ch1, res)) : 0 < res := by
  by_cases h0 : (charAt sA 0).toNat < 0x80
  · have hascii : charAt sA 0 < 0x80 := by
      simpa only [UInt8.lt_iff_toNat_lt, UInt8.reduceToNat] using h0
    cases sA with
    | nil => simp [utf8DecodeChar] at h
    | cons ch rest =>
      rw [charAt_cons_zero] at hascii
      rw [utf8DecodeChar_ascii hascii, Option.some.injEq, Prod.mk.injEq, Prod.mk.injEq] at h
      omega
  by_cases h1 : (charAt sA 0).toNat < 0xC2 ∨ 0xF8 < (charAt sA 0).toNat
  · rw [utf8DecodeChar_none (by omega)] at h
    cases h
  by_cases h2 : (charAt sA 0).toNat ≤ 0xDF
  · rw [utf8DecodeChar_two (by omega) h2] at h
    split at h
    · rw [Option.some.injEq, Prod.mk.injEq, Prod.mk.injEq] at h
      omega
    · cases h
  · rw [utf8DecodeChar_three (by omega) (by omega)] at h
    split at h
    · rw [Option.some.injEq, Prod.mk.injEq, Prod.mk.injEq] at h
      omega
    · cases h

theorem utf8DecodeFrom_append (fuel : Nat) (szSrcA : List Byte) (cStrDestW : List WChar) :
    utf8DecodeFrom fuel szSrcA cStrDestW
      = (utf8DecodeFrom fuel szSrcA []).map (cStrDestW ++ ·) := by
  induction fuel generalizing szSrcA cStrDestW with
  | zero => simp [utf8DecodeFrom, Except.map]
  | succ fuel ih =>
    cases szSrcA with
    | nil => simp [utf8DecodeFrom, Except.map]
    | cons ch rest =>
      rw [utf8DecodeFrom, utf8DecodeFrom]
      cases utf8DecodeChar (ch :: rest) with
      | none => rfl
      | some r =>
        obtain ⟨ch0, ch1, res⟩ := r
        simp only [List.nil_append]
        rw [ih, ih _ (if ch1 == 0 then [ch0] else [ch0, ch1])]
        cases utf8DecodeFrom fuel ((ch :: rest).drop res) [] with
        | error e => rfl
        | ok w => simp [Except.map]

theorem utf8DecodeFrom_fuel {fuel : Nat} {szSrcA : List Byte} (h : szSrcA.length ≤ fuel) :
    utf8DecodeFrom fuel szSrcA [] = utf8Decode szSrcA := by
  unfold utf8Decode
  induction fuel using Nat.strongRecOn generalizing szSrcA with
  | ind fuel ih =>
    cases szSrcA with
    | nil => cases fuel <;> rfl
    | cons ch rest =>
      obtain ⟨fuel, rfl⟩ : ∃ k, fuel = k + 1 := ⟨fuel - 1, by rw [List.length_cons] at h; omega⟩
      rw [List.length_cons] at h
      rw [List.length_cons, utf8DecodeFrom, utf8DecodeFrom]
      cases hch : utf8DecodeChar (ch :: rest) with
      | none => rfl
      | some r =>
        obtain ⟨ch0, ch1, res⟩ := r
        have hres := utf8DecodeChar_pos hch
        have hlen : ((ch :: rest).drop res).length ≤ rest.length := by
          rw [List.length_drop, List.length_cons]
          omega
        simp only [List.nil_append]
        rw [utf8DecodeFrom_append fuel, utf8DecodeFrom_append rest.length,
          ih fuel (by omega) (by omega), ih rest.length (by omega) hlen]

/-- **One character is decoded, and then the rest.** -/
theorem utf8Decode_of_char {sA : List Byte} {ch0 : WChar} {res : Nat}
    (h : utf8DecodeChar sA = some (ch0, 0, res)) :
    utf8Decode sA = (utf8Decode (sA.drop res)).map (ch0 :: ·) := by
  cases sA with
  | nil => simp [utf8DecodeChar] at h
  | cons ch rest =>
    have hres := utf8DecodeChar_pos h
    have hlen : ((ch :: rest).drop res).length ≤ rest.length := by
      rw [List.length_drop, List.length_cons]
      omega
    have hstep : utf8Decode (ch :: rest) = utf8DecodeFrom rest.length ((ch :: rest).drop res) [ch0] := by
      rw [utf8Decode, List.length_cons, utf8DecodeFrom, h]
      rfl
    rw [hstep, utf8DecodeFrom_append, utf8DecodeFrom_fuel hlen]
    rfl

theorem utf8Decode_of_none {sA : List Byte} (hne : sA ≠ []) (h : utf8DecodeChar sA = none) :
    utf8Decode sA = .error .mxInvalidData := by
  cases sA with
  | nil => exact absurd rfl hne
  | cons ch rest => rw [utf8Decode, List.length_cons, utf8DecodeFrom, h]

theorem utf8DecodeChar_cons_one {a : Byte} (h : a.toNat < 0x80) (rest : List Byte) :
    utf8DecodeChar (a :: rest) = some (.ofNat a.toNat, 0, 1) := by
  have hascii : a < 0x80 := by
    rw [UInt8.lt_iff_toNat_lt]
    exact h
  have hval : a.toUInt16 = .ofNat a.toNat := by
    rw [← UInt16.toNat_inj, UInt8.toNat_toUInt16, UInt16.toNat_ofNat']
    omega
  rw [utf8DecodeChar_ascii hascii, hval]

theorem utf8DecodeChar_cons_two {a : Byte} (hlo : 0xC2 ≤ a.toNat) (hhi : a.toNat ≤ 0xDF) (c : Byte)
    (rest : List Byte) :
    utf8DecodeChar (a :: c :: rest) = if isContinuation c then
      some (.ofNat (a.toNat % 32 * 64 + c.toNat % 64), 0, 2) else none := by
  rw [@utf8DecodeChar_two (a :: c :: rest) hlo hhi]
  simp [charAt]

theorem utf8DecodeChar_cons_three {a : Byte} (hlo : 0xE0 ≤ a.toNat) (hhi : a.toNat ≤ 0xF8)
    (c d : Byte) (rest : List Byte) :
    utf8DecodeChar (a :: c :: d :: rest) =
      if a ≠ 0xED ∧ isContinuation c = true ∧ isContinuation d = true then
        some (.ofNat (a.toNat % 16 * 4096 + c.toNat % 64 * 64 + d.toNat % 64), 0, 3)
      else none := by
  rw [@utf8DecodeChar_three (a :: c :: d :: rest) hlo hhi]
  simp [charAt]

theorem utf8Decode_one {a : Byte} (h : a.toNat < 0x80) (rest : List Byte) :
    utf8Decode (a :: rest) = (utf8Decode rest).map (.ofNat a.toNat :: ·) := by
  rw [utf8Decode_of_char (utf8DecodeChar_cons_one h rest)]
  rfl

theorem utf8Decode_two {a : Byte} (hlo : 0xC2 ≤ a.toNat) (hhi : a.toNat ≤ 0xDF) (c : Byte)
    (rest : List Byte) :
    utf8Decode (a :: c :: rest) =
      if isContinuation c then
        (utf8Decode rest).map (.ofNat (a.toNat % 32 * 64 + c.toNat % 64) :: ·)
      else .error .mxInvalidData := by
  have hchar := utf8DecodeChar_cons_two hlo hhi c rest
  by_cases hc : isContinuation c = true
  · rw [if_pos hc] at hchar
    rw [if_pos hc, utf8Decode_of_char hchar]
    rfl
  · rw [if_neg hc] at hchar
    rw [if_neg hc, utf8Decode_of_none (List.cons_ne_nil _ _) hchar]

theorem utf8Decode_three {a : Byte} (hlo : 0xE0 ≤ a.toNat) (hhi : a.toNat ≤ 0xF8) (c d : Byte)
    (rest : List Byte) :
    utf8Decode (a :: c :: d :: rest) =
      if a ≠ 0xED ∧ isContinuation c = true ∧ isContinuation d = true then
        (utf8Decode rest).map
          (.ofNat (a.toNat % 16 * 4096 + c.toNat % 64 * 64 + d.toNat % 64) :: ·)
      else .error .mxInvalidData := by
  have hchar := utf8DecodeChar_cons_three hlo hhi c d rest
  by_cases hform : a ≠ 0xED ∧ isContinuation c = true ∧ isContinuation d = true
  · rw [if_pos hform] at hchar
    rw [if_pos hform, utf8Decode_of_char hchar]
    rfl
  · rw [if_neg hform] at hchar
    rw [if_neg hform, utf8Decode_of_none (List.cons_ne_nil _ _) hchar]

/-- Text below `0x80` is decoded byte by byte. -/
theorem utf8Decode_ascii {l : List Byte} (h : ∀ b ∈ l, b.toNat < 0x80) :
    utf8Decode l = .ok (l.map UInt8.toUInt16) := by
  induction l with
  | nil => rfl
  | cons b l ih =>
    obtain ⟨hb, hl⟩ := List.forall_mem_cons.mp h
    have hval : UInt16.ofNat b.toNat = b.toUInt16 := by
      rw [← UInt16.toNat_inj, UInt8.toNat_toUInt16, UInt16.toNat_ofNat']
      omega
    rw [utf8Decode_one hb, ih hl, hval]
    rfl

/-- Units below `0x80` are encoded one by one. -/
theorem utf8Encode_ascii {s : List WChar} (h : ∀ u ∈ s, u.toNat < 0x80) :
    utf8Encode s = .ok (s.map UInt16.toUInt8) := by
  induction s with
  | nil => rfl
  | cons u s ih =>
    obtain ⟨hu, hs⟩ := List.forall_mem_cons.mp h
    have hsingle : isHighSurrogate u = false := by
      rw [← Bool.not_eq_true, isHighSurrogate_iff]
      omega
    have hval : UInt8.ofNat u.toNat = u.toUInt8 := by
      rw [← UInt8.toNat_inj, UInt16.toNat_toUInt8, UInt8.toNat_ofNat']
    rw [utf8Encode_single hsingle, ih hs, utf8Bytes, if_pos hu, hval]
    rfl

/-! ### Decoding the form of a code point -/

/-- The units that the decoder reads back. -/
def isKept (u : WChar) : Bool := u < 0xD000 || 0xE000 ≤ u

theorem isKept_iff (u : WChar) : isKept u = true ↔ u.toNat < 0xD000 ∨ 0xE000 ≤ u.toNat := by
  simp [isKept, UInt16.lt_iff_toNat_lt, UInt16.le_iff_toNat_le]

theorem toNat_ofNat_byte {n : Nat} (h : n < 256) : (UInt8.ofNat n).toNat = n := by
  rw [UInt8.toNat_ofNat']
  omega

theorem isContinuation_trail (n : Nat) : isContinuation (.ofNat (0x80 + n % 64)) = true := by
  rw [isContinuation_iff, toNat_ofNat_byte (by omega)]
  omega

/-- **The form of a unit**: the decoder refuses the lead byte `0xED`. -/
theorem utf8DecodeChar_single (u : WChar) (rest : List Byte) :
    utf8DecodeChar (utf8Bytes u.toNat ++ rest) =
      if isKept u then some (u, 0, (utf8Bytes u.toNat).length) else none := by
  have hu : u.toNat < 65536 := u.toNat_lt
  have hd : (UInt8.ofNat (0x80 + u.toNat % 64)).toNat = 0x80 + u.toNat % 64 :=
    toNat_ofNat_byte (by omega)
  have hcont := isContinuation_trail u.toNat
  have hofNat {n : Nat} (h : n = u.toNat) : UInt16.ofNat n = u := by
    rw [h, UInt16.ofNat_toNat]
  by_cases h1 : u.toNat < 0x80
  · have hk : isKept u = true := (isKept_iff u).mpr (by omega)
    have hlead : (UInt8.ofNat u.toNat).toNat = u.toNat := toNat_ofNat_byte (by omega)
    rw [utf8Bytes, if_pos h1, if_pos hk, List.singleton_append, utf8DecodeChar_cons_one (by omega),
      hlead, hofNat rfl]
    rfl
  by_cases h2 : u.toNat < 0x800
  · have hk : isKept u = true := (isKept_iff u).mpr (by omega)
    have hlead : (UInt8.ofNat (0xC0 + u.toNat / 64)).toNat = 0xC0 + u.toNat / 64 :=
      toNat_ofNat_byte (by omega)
    rw [utf8Bytes, if_neg h1, if_pos h2, if_pos hk, List.cons_append, List.singleton_append,
      utf8DecodeChar_cons_two (by omega) (by omega), if_pos hcont, hlead, hd, hofNat (by omega)]
    rfl
  · have hlead : (UInt8.ofNat (0xE0 + u.toNat / 4096)).toNat = 0xE0 + u.toNat / 4096 :=
      toNat_ofNat_byte (by omega)
    have hc : (UInt8.ofNat (0x80 + u.toNat / 64 % 64)).toNat = 0x80 + u.toNat / 64 % 64 :=
      toNat_ofNat_byte (by omega)
    have hed : UInt8.ofNat (0xE0 + u.toNat / 4096) = 0xED ↔ u.toNat / 4096 = 13 := by
      rw [← UInt8.toNat_inj, hlead]
      simp only [UInt8.reduceToNat]
      omega
    rw [utf8Bytes, if_neg h1, if_neg h2, if_pos hu, List.cons_append, List.cons_append,
      List.singleton_append, utf8DecodeChar_cons_three (by omega) (by omega), hlead, hc, hd]
    by_cases hk : isKept u = true
    · have hk' := (isKept_iff u).mp hk
      rw [if_pos ⟨by rw [Ne, hed]; omega, isContinuation_trail _, hcont⟩, if_pos hk,
        hofNat (by omega)]
      rfl
    · have hk' := (isKept_iff u).not.mp hk
      rw [if_neg hk, if_neg]
      rintro ⟨hne, -⟩
      rw [Ne, hed] at hne
      omega

theorem utf8Bytes_ne_nil (c : Nat) : utf8Bytes c ≠ [] := by
  unfold utf8Bytes
  split
  · exact List.cons_ne_nil _ _
  split
  · exact List.cons_ne_nil _ _
  split
  · exact List.cons_ne_nil _ _
  · exact List.cons_ne_nil _ _

/-- The bytes of a code point that is not ASCII are not ASCII either. -/
theorem le_of_mem_utf8Bytes {c : Nat} (hlo : 0x80 ≤ c) (hhi : c < 0x110000) :
    ∀ ch ∈ utf8Bytes c, 0x80 ≤ ch.toNat := by
  intro ch hch
  by_cases h2 : c < 0x800
  · rw [utf8Bytes, if_neg (by omega), if_pos h2, List.mem_pair] at hch
    rcases hch with rfl | rfl
    · rw [toNat_ofNat_byte (by omega)]
      omega
    · rw [toNat_ofNat_byte (by omega)]
      omega
  by_cases h3 : c < 0x10000
  · rw [utf8Bytes, if_neg (by omega), if_neg h2, if_pos h3, List.mem_cons, List.mem_pair] at hch
    rcases hch with rfl | rfl | rfl
    · rw [toNat_ofNat_byte (by omega)]
      omega
    · rw [toNat_ofNat_byte (by omega)]
      omega
    · rw [toNat_ofNat_byte (by omega)]
      omega
  · rw [utf8Bytes, if_neg (by omega), if_neg h2, if_neg h3, List.mem_cons, List.mem_cons,
      List.mem_pair] at hch
    rcases hch with rfl | rfl | rfl | rfl
    · rw [toNat_ofNat_byte (by omega)]
      omega
    · rw [toNat_ofNat_byte (by omega)]
      omega
    · rw [toNat_ofNat_byte (by omega)]
      omega
    · rw [toNat_ofNat_byte (by omega)]
      omega

/-- A byte of a text is an ASCII unit of it, or above `0x7F`. -/
theorem mem_utf8Text {s : List WChar} (hs : isWellFormed s = true) :
    ∀ ch ∈ utf8Text s, (∃ u ∈ s, u.toNat < 0x80 ∧ ch = .ofNat u.toNat) ∨ 0x80 ≤ ch.toNat := by
  refine isWellFormed_induct ?nil ?single ?pair hs
  case nil => exact fun _ h => absurd h List.not_mem_nil
  case single =>
    intro u s hu _ _ ih ch hch
    rw [utf8Text_single hu, List.mem_append] at hch
    rcases hch with hch | hch
    · by_cases hlt : u.toNat < 0x80
      · rw [utf8Bytes, if_pos hlt, List.mem_singleton] at hch
        exact Or.inl ⟨u, List.mem_cons_self, hlt, hch⟩
      · have := u.toNat_lt
        exact Or.inr (le_of_mem_utf8Bytes (by omega) (by omega) ch hch)
    · rcases ih ch hch with ⟨v, hv, hlt, heq⟩ | hle
      · exact Or.inl ⟨v, List.mem_cons_of_mem _ hv, hlt, heq⟩
      · exact Or.inr hle
  case pair =>
    intro u v s hu hv _ ih ch hch
    rw [utf8Text_pair hu, List.mem_append] at hch
    rcases hch with hch | hch
    · have hu' := (isHighSurrogate_iff u).mp hu
      have hv' := (isLowSurrogate_iff v).mp hv
      refine Or.inr (le_of_mem_utf8Bytes ?_ ?_ ch hch)
      · rw [pairValue]
        omega
      · rw [pairValue]
        omega
    · rcases ih ch hch with ⟨x, hx, hlt, heq⟩ | hle
      · exact Or.inl ⟨x, List.mem_cons_of_mem _ (List.mem_cons_of_mem _ hx), hlt, heq⟩
      · exact Or.inr hle

theorem utf8Decode_single (u : WChar) (rest : List Byte) :
    utf8Decode (utf8Bytes u.toNat ++ rest) =
      if isKept u then (utf8Decode rest).map (u :: ·) else .error .mxInvalidData := by
  have hchar := utf8DecodeChar_single u rest
  by_cases hk : isKept u = true
  · rw [if_pos hk] at hchar
    rw [if_pos hk, utf8Decode_of_char hchar, List.drop_left]
  · rw [if_neg hk] at hchar
    rw [if_neg hk, utf8Decode_of_none _ hchar]
    exact List.append_ne_nil_of_left_ne_nil (utf8Bytes_ne_nil _) _

/-- **No form of four bytes is read**: its last byte is no lead byte. -/
theorem utf8Decode_four {c : Nat} (hlo : 0x10000 ≤ c) (hhi : c < 0x110000) (rest : List Byte) :
    utf8Decode (utf8Bytes c ++ rest) = .error .mxInvalidData := by
  have hlead : (UInt8.ofNat (0xF0 + c / 262144)).toNat = 0xF0 + c / 262144 :=
    toNat_ofNat_byte (by omega)
  have hlast : utf8Decode (.ofNat (0x80 + c % 64) :: rest) = .error .mxInvalidData := by
    refine utf8Decode_of_none (List.cons_ne_nil _ _) (utf8DecodeChar_none (.inl ?_))
    rw [charAt_cons_zero, toNat_ofNat_byte (by omega)]
    omega
  have hed : UInt8.ofNat (0xF0 + c / 262144) ≠ 0xED := by
    rw [Ne, ← UInt8.toNat_inj, hlead]
    simp only [UInt8.reduceToNat]
    omega
  rw [utf8Bytes, if_neg (by omega), if_neg (by omega), if_neg (by omega), List.cons_append,
    List.cons_append, List.cons_append, List.singleton_append,
    utf8Decode_three (by omega) (by omega),
    if_pos ⟨hed, isContinuation_trail _, isContinuation_trail _⟩, hlast]
  rfl

/-! ### The round trip -/

theorem utf8_roundTrip {s : List WChar} (h : isWellFormed s = true) :
    ∃ b, utf8Encode s = .ok b ∧
      utf8Decode b = if s.all isKept then .ok s else .error .mxInvalidData := by
  refine isWellFormed_induct ?nil ?single ?pair h
  case nil => exact ⟨[], rfl, rfl⟩
  case single =>
    intro u s hu hl hs ih
    obtain ⟨b, henc, hdec⟩ := ih
    refine ⟨utf8Bytes u.toNat ++ b, ?_, ?_⟩
    · rw [utf8Encode_single hu, henc]
      rfl
    · rw [utf8Decode_single, hdec, List.all_cons]
      by_cases hk : isKept u = true
      · rw [if_pos hk, hk, Bool.true_and]
        split <;> rfl
      · have hk' : isKept u = false := by simpa using hk
        rw [if_neg hk, hk']
        rfl
  case pair =>
    intro u v s hu hv hs ih
    obtain ⟨b, henc, hdec⟩ := ih
    have hu' := (isHighSurrogate_iff u).mp hu
    have hv' := (isLowSurrogate_iff v).mp hv
    have hk : isKept u = false := by
      rw [← Bool.not_eq_true, isKept_iff]
      omega
    refine ⟨utf8Bytes (pairValue u v) ++ b, ?_, ?_⟩
    · rw [utf8Encode_pair hu hv, henc]
      rfl
    · rw [utf8Decode_four (by rw [pairValue]; omega) (by rw [pairValue]; omega), List.all_cons, hk,
        Bool.false_and]
      rfl

/-- **When a well-formed string comes back**: it has no unit from `U+D000` to `U+DFFF`,
and so no pair of surrogates. -/
theorem utf8_roundTrip_iff {s : List WChar} (h : isWellFormed s = true) :
    ∃ b, utf8Encode s = .ok b ∧ (utf8Decode b = .ok s ↔ ∀ u ∈ s, u < 0xD000 ∨ 0xE000 ≤ u) := by
  obtain ⟨b, henc, hdec⟩ := utf8_roundTrip h
  refine ⟨b, henc, ?_⟩
  have hall : s.all isKept = true ↔ ∀ u ∈ s, u < 0xD000 ∨ 0xE000 ≤ u := by
    simp [isKept]
  rw [hdec, ← hall]
  by_cases hk : s.all isKept = true
  · simp [hk]
  · simp [hk]

theorem utf8_roundTrip_letters : isWellFormed [0x41, 0xE9, 0x20AC] = true ∧
    ∃ b, utf8Encode [0x41, 0xE9, 0x20AC] = .ok b ∧ (utf8Decode b = .ok [0x41, 0xE9, 0x20AC] ↔
      ∀ u ∈ ([0x41, 0xE9, 0x20AC] : List WChar), u < 0xD000 ∨ 0xE000 ≤ u) :=
  ⟨by decide, utf8_roundTrip_iff (by decide)⟩

/-- A pair of surrogates is encoded in four bytes, which are then refused. -/
theorem utf8_roundTrip_lost : isWellFormed [0xD83D, 0xDE00] = true ∧
    utf8Encode [0xD83D, 0xDE00] = .ok [0xF0, 0x9F, 0x98, 0x80] ∧
    utf8Decode [0xF0, 0x9F, 0x98, 0x80] = .error .mxInvalidData := by
  decide

/-! ### What is decoded -/

/-- The byte strings that the decoder reads: its forms of one, two and three bytes. -/
inductive IsLoose : List Byte → Prop
  | nil : IsLoose []
  | one {a : Byte} {rest : List Byte} : a.toNat < 0x80 → IsLoose rest → IsLoose (a :: rest)
  | two {a c : Byte} {rest : List Byte} : 0xC2 ≤ a.toNat → a.toNat ≤ 0xDF →
      isContinuation c = true → IsLoose rest → IsLoose (a :: c :: rest)
  | three {a c d : Byte} {rest : List Byte} : 0xE0 ≤ a.toNat → a.toNat ≤ 0xF8 → a ≠ 0xED →
      isContinuation c = true → isContinuation d = true → IsLoose rest → IsLoose (a :: c :: d :: rest)

/-- No lead byte of four, and no `0xE0` before a byte below `0xA0`. -/
def IsStrict (b : List Byte) : Prop :=
  (∀ ch ∈ b, ch < 0xF0) ∧ b.IsChain fun ch next => ch = 0xE0 → 0xA0 ≤ next

theorem isLoose_of_utf8Decode {b : List Byte} {w : List WChar} (h : utf8Decode b = .ok w) :
    IsLoose b := by
  induction hlen : b.length using Nat.strongRecOn generalizing b w with
  | ind n ih =>
    cases b with
    | nil => exact .nil
    | cons a rest =>
      rw [List.length_cons] at hlen
      by_cases h1 : a.toNat < 0x80
      · rw [utf8Decode_one h1] at h
        obtain ⟨w', hw, -⟩ := exists_of_map_ok h
        exact .one h1 (ih rest.length (by omega) hw rfl)
      by_cases hbad : a.toNat < 0xC2 ∨ 0xF8 < a.toNat
      · have hnone : utf8DecodeChar (a :: rest) = none :=
          utf8DecodeChar_none (by rw [charAt_cons_zero]; omega)
        rw [utf8Decode_of_none (List.cons_ne_nil _ _) hnone] at h
        cases h
      by_cases h2 : a.toNat ≤ 0xDF
      · cases rest with
        | nil =>
          have hnone : utf8DecodeChar [a] = none := by
            rw [@utf8DecodeChar_two [a] (by rw [charAt_cons_zero]; omega) h2, if_neg (by simp)]
          rw [utf8Decode_of_none (List.cons_ne_nil _ _) hnone] at h
          cases h
        | cons c rest =>
          rw [utf8Decode_two (by omega) h2] at h
          split at h
          next hc =>
            obtain ⟨w', hw, -⟩ := exists_of_map_ok h
            rw [List.length_cons] at hlen
            exact .two (by omega) h2 hc (ih rest.length (by omega) hw rfl)
          next => cases h
      · rcases rest with _ | ⟨c, _ | ⟨d, rest⟩⟩
        · have hnone : utf8DecodeChar [a] = none := by
            rw [@utf8DecodeChar_three [a] (by rw [charAt_cons_zero]; omega)
              (by rw [charAt_cons_zero]; omega), if_neg (by simp)]
          rw [utf8Decode_of_none (List.cons_ne_nil _ _) hnone] at h
          cases h
        · have hnone : utf8DecodeChar [a, c] = none := by
            rw [@utf8DecodeChar_three [a, c] (by rw [charAt_cons_zero]; omega)
              (by rw [charAt_cons_zero]; omega), if_neg (by simp)]
          rw [utf8Decode_of_none (List.cons_ne_nil _ _) hnone] at h
          cases h
        · rw [utf8Decode_three (by omega) (by omega)] at h
          split at h
          next hform =>
            obtain ⟨hed, hc, hd⟩ := hform
            obtain ⟨w', hw, -⟩ := exists_of_map_ok h
            rw [List.length_cons, List.length_cons] at hlen
            exact .three (by omega) (by omega) hed hc hd (ih rest.length (by omega) hw rfl)
          next => cases h

/-- **A character of one byte splits what is decoded.** -/
theorem utf8Decode_split {ch : Byte} (hch : ch.toNat < 0x80) {a b : List Byte} {w : List WChar}
    (h : utf8Decode (a ++ ch :: b) = .ok w) :
    ∃ u v, utf8Decode a = .ok u ∧ utf8Decode b = .ok v ∧ w = u ++ ch.toUInt16 :: v := by
  have hcont : ¬ isContinuation ch = true := by
    rw [isContinuation_iff]
    omega
  have hloose := isLoose_of_utf8Decode h
  generalize htext : a ++ ch :: b = text at h hloose
  induction hloose generalizing a w with
  | nil => exact absurd htext (by simp)
  | @one c rest hc _ ih =>
    rw [utf8Decode_one hc] at h
    obtain ⟨w', hw, rfl⟩ := exists_of_map_ok h
    cases a with
    | nil =>
      obtain ⟨rfl, rfl⟩ := List.cons.inj htext
      refine ⟨[], w', rfl, hw, ?_⟩
      have hval : UInt16.ofNat ch.toNat = ch.toUInt16 := by
        rw [← UInt16.toNat_inj, UInt8.toNat_toUInt16, UInt16.toNat_ofNat']
        omega
      rw [hval, List.nil_append]
    | cons c' a =>
      obtain ⟨rfl, htail⟩ := List.cons.inj htext
      obtain ⟨u, v, hu, hv, rfl⟩ := ih htail hw
      exact ⟨_, v, by rw [utf8Decode_one hc, hu]; rfl, hv, rfl⟩
  | @two c d rest hlo hhi hd _ ih =>
    rw [utf8Decode_two hlo hhi, if_pos hd] at h
    obtain ⟨w', hw, rfl⟩ := exists_of_map_ok h
    rcases a with _ | ⟨c', _ | ⟨d', a⟩⟩ <;>
      simp only [List.nil_append, List.cons_append, List.cons.injEq] at htext
    · obtain ⟨rfl, -⟩ := htext
      omega
    · obtain ⟨-, rfl, -⟩ := htext
      exact absurd hd hcont
    · obtain ⟨rfl, rfl, htext⟩ := htext
      obtain ⟨u, v, hu, hv, rfl⟩ := ih htext hw
      exact ⟨_, v, by rw [utf8Decode_two hlo hhi, if_pos hd, hu]; rfl, hv, rfl⟩
  | @three c d e rest hlo hhi hed hd he _ ih =>
    rw [utf8Decode_three hlo hhi, if_pos ⟨hed, hd, he⟩] at h
    obtain ⟨w', hw, rfl⟩ := exists_of_map_ok h
    rcases a with _ | ⟨c', _ | ⟨d', _ | ⟨e', a⟩⟩⟩ <;>
      simp only [List.nil_append, List.cons_append, List.cons.injEq] at htext
    · obtain ⟨rfl, -⟩ := htext
      omega
    · obtain ⟨-, rfl, -⟩ := htext
      exact absurd hd hcont
    · obtain ⟨-, -, rfl, -⟩ := htext
      exact absurd he hcont
    · obtain ⟨rfl, rfl, rfl, htext⟩ := htext
      obtain ⟨u, v, hu, hv, rfl⟩ := ih htext hw
      exact ⟨_, v, by rw [utf8Decode_three hlo hhi, if_pos ⟨hed, hd, he⟩, hu]; rfl, hv, rfl⟩

/-! ### What is encoded again -/

theorem not_isHighSurrogate {u : WChar} (h : u.toNat < 0xD800 ∨ 0xDBFF < u.toNat) :
    isHighSurrogate u = false := by
  rw [← Bool.not_eq_true, isHighSurrogate_iff]
  omega

/-- The first byte of a code point below `0x10000`. -/
theorem head_utf8Bytes {n : Nat} (hn : n < 0x10000) {a : Byte} {rest l : List Byte}
    (h : utf8Bytes n ++ l = a :: rest) : a.toNat < 0xF0 ∧ (n < 0x800 → a.toNat < 0xE0) := by
  unfold utf8Bytes at h
  by_cases h1 : n < 0x80
  · rw [if_pos h1, List.singleton_append, List.cons.injEq] at h
    rw [← h.1, toNat_ofNat_byte (by omega)]
    omega
  by_cases h2 : n < 0x800
  · rw [if_neg h1, if_pos h2, List.cons_append, List.cons.injEq] at h
    rw [← h.1, toNat_ofNat_byte (by omega)]
    omega
  · rw [if_neg h1, if_neg h2, if_pos hn, List.cons_append, List.cons.injEq] at h
    rw [← h.1, toNat_ofNat_byte (by omega)]
    omega

theorem ofNat_trail {c : Byte} (hc : isContinuation c = true) {n : Nat} (h : n % 64 = c.toNat % 64) :
    UInt8.ofNat (0x80 + n % 64) = c := by
  have hc' := (isContinuation_iff c).mp hc
  rw [← UInt8.toNat_inj, toNat_ofNat_byte (by omega)]
  omega

/-- The form of three bytes, for a lead byte and a second byte that UTF-8 has. -/
theorem utf8Bytes_three {a c d : Byte} (hlo : 0xE0 ≤ a.toNat) (hc : isContinuation c = true)
    (hd : isContinuation d = true) (h : a.toNat < 0xF0 ∧ (a.toNat = 0xE0 → 0xA0 ≤ c.toNat)) :
    utf8Bytes (a.toNat % 16 * 4096 + c.toNat % 64 * 64 + d.toNat % 64) = [a, c, d] := by
  have hc' := (isContinuation_iff c).mp hc
  have hlead : UInt8.ofNat (0xE0 + (a.toNat % 16 * 4096 + c.toNat % 64 * 64 + d.toNat % 64) / 4096)
      = a := by
    rw [← UInt8.toNat_inj, toNat_ofNat_byte (by omega)]
    omega
  rw [utf8Bytes, if_neg (by omega), if_neg (by omega), if_pos (by omega), hlead,
    ofNat_trail hc (by omega), ofNat_trail hd (by omega)]

theorem isStrict_cons {a : Byte} (ha : a.toNat < 0xE0) (rest : List Byte) :
    IsStrict (a :: rest) ↔ IsStrict rest := by
  have hlt : a < 0xF0 := by
    simp only [UInt8.lt_iff_toNat_lt, UInt8.reduceToNat]
    omega
  have hne : a ≠ 0xE0 := by
    rintro rfl
    simp at ha
  cases rest with
  | nil => simp [IsStrict, hlt]
  | cons b rest => simp [IsStrict, hlt, hne]

theorem isStrict_three {a c d : Byte} (hc : isContinuation c = true) (hd : isContinuation d = true)
    (rest : List Byte) :
    IsStrict (a :: c :: d :: rest) ↔ (a < 0xF0 ∧ (a = 0xE0 → 0xA0 ≤ c)) ∧ IsStrict rest := by
  have hc' := (isContinuation_iff c).mp hc
  have hd' := (isContinuation_iff d).mp hd
  have hrest : IsStrict (c :: d :: rest) ↔ IsStrict rest := by
    rw [isStrict_cons (by omega), isStrict_cons (by omega)]
  rw [← hrest]
  simp only [IsStrict, List.mem_cons, forall_eq_or_imp, List.isChain_cons_cons]
  tauto

/-- **The bytes that a decoded string is encoded in.** -/
theorem utf8Encode_utf8Decode {b : List Byte} (h : IsLoose b) :
    ∃ w, utf8Decode b = .ok w ∧ ∃ b', utf8Encode w = .ok b' ∧ (b' = b ↔ IsStrict b) := by
  induction h with
  | nil => exact ⟨[], rfl, [], rfl, by simp [IsStrict]⟩
  | @one a rest ha hrest ih =>
    obtain ⟨w, hw, b', hb', hiff⟩ := ih
    have hu : (UInt16.ofNat a.toNat).toNat = a.toNat := by
      rw [UInt16.toNat_ofNat']
      omega
    have henc := utf8Encode_single (u := .ofNat a.toNat) (not_isHighSurrogate (by omega)) w
    refine ⟨.ofNat a.toNat :: w, by rw [utf8Decode_one ha, hw]; rfl, a :: b', ?_, ?_⟩
    · rw [henc, hb', hu, utf8Bytes, if_pos ha, UInt8.ofNat_toNat]
      rfl
    · rw [List.cons_inj_right, hiff, isStrict_cons (by omega)]
  | @two a c rest hlo hhi hc hrest ih =>
    obtain ⟨w, hw, b', hb', hiff⟩ := ih
    have hc' := (isContinuation_iff c).mp hc
    have hu : (UInt16.ofNat (a.toNat % 32 * 64 + c.toNat % 64)).toNat
        = a.toNat % 32 * 64 + c.toNat % 64 := by
      rw [UInt16.toNat_ofNat']
      omega
    have henc := utf8Encode_single (u := .ofNat (a.toNat % 32 * 64 + c.toNat % 64))
      (not_isHighSurrogate (by omega)) w
    have hlead : UInt8.ofNat (0xC0 + (a.toNat % 32 * 64 + c.toNat % 64) / 64) = a := by
      rw [← UInt8.toNat_inj, toNat_ofNat_byte (by omega)]
      omega
    refine ⟨.ofNat (a.toNat % 32 * 64 + c.toNat % 64) :: w,
      by rw [utf8Decode_two hlo hhi, if_pos hc, hw]; rfl, a :: c :: b', ?_, ?_⟩
    · rw [henc, hb', hu, utf8Bytes, if_neg (by omega), if_pos (by omega), hlead,
        ofNat_trail hc (by omega)]
      rfl
    · rw [List.cons_inj_right, List.cons_inj_right, hiff, isStrict_cons (by omega),
        isStrict_cons (by omega)]
  | @three a c d rest hlo hhi hed hc hd hrest ih =>
    obtain ⟨w, hw, b', hb', hiff⟩ := ih
    have hc' := (isContinuation_iff c).mp hc
    have hval : (UInt16.ofNat (a.toNat % 16 * 4096 + c.toNat % 64 * 64 + d.toNat % 64)).toNat
        = a.toNat % 16 * 4096 + c.toNat % 64 * 64 + d.toNat % 64 := by
      rw [UInt16.toNat_ofNat']
      omega
    have hed' : a.toNat ≠ 0xED := fun h => hed (UInt8.toNat_inj.mp h)
    -- The lead bytes up to `0xF8` leave at most 15, and 13 only for `0xED`.
    have henc := utf8Encode_single
      (u := .ofNat (a.toNat % 16 * 4096 + c.toNat % 64 * 64 + d.toNat % 64))
      (not_isHighSurrogate (by omega)) w
    rw [hval, hb'] at henc
    refine ⟨.ofNat (a.toNat % 16 * 4096 + c.toNat % 64 * 64 + d.toNat % 64) :: w,
      by rw [utf8Decode_three hlo hhi, if_pos ⟨hed, hc, hd⟩, hw]; rfl, _, henc, ?_⟩
    rw [isStrict_three hc hd, UInt8.lt_iff_toNat_lt, UInt8.le_iff_toNat_le, ← UInt8.toNat_inj]
    simp only [UInt8.reduceToNat]
    constructor
    · intro h
      have hhead := head_utf8Bytes (by omega) h
      have hform : a.toNat < 0xF0 ∧ (a.toNat = 0xE0 → 0xA0 ≤ c.toNat) := by omega
      refine ⟨hform, hiff.mp ?_⟩
      rw [utf8Bytes_three hlo hc hd hform] at h
      simpa using h
    · rintro ⟨hform, hstrict⟩
      rw [utf8Bytes_three hlo hc hd hform, hiff.mpr hstrict]
      rfl

/-- **When a string that is decoded is the form of its text**: it has no lead byte above
`0xEF`, and no `0xE0` before a byte below `0xA0`. -/
theorem utf8Decode_strict_iff (b : List Byte) :
    (∀ w, utf8Decode b = .ok w → utf8Encode w = .ok b) ↔ (IsLoose b → IsStrict b) := by
  constructor
  · intro h hloose
    obtain ⟨w, hw, b', hb', hiff⟩ := utf8Encode_utf8Decode hloose
    have henc := h w hw
    rw [hb', Except.ok.injEq] at henc
    exact hiff.mp henc
  · intro h w hw
    have hloose := isLoose_of_utf8Decode hw
    obtain ⟨w', hw', b', hb', hiff⟩ := utf8Encode_utf8Decode hloose
    rw [hw, Except.ok.injEq] at hw'
    rw [hw', hb', hiff.mpr (h hloose)]

/-- A form of three bytes for `/` is read. -/
theorem utf8Decode_overlong : utf8Decode [0xE0, 0x80, 0xAF] = .ok [0x2F] ∧
    utf8Encode [0x2F] ≠ .ok [0xE0, 0x80, 0xAF] := by
  decide

end MxLib
