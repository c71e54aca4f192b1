import MxLib.Http.PunycodeEncoding

/-!
# Generalized variable-length integers

`encode_var_int` takes a number apart into digits, by thresholds that depend on the bias, and the
loop of `Punycode_Decode` puts digits together with the weights that belong to these thresholds.
The digits from 26 on are read as smaller ones, which may also end the number before its last
digit: so a number comes back if and only if its digits are letters.
-/

namespace MxLib.Http.Punycode

open MxLib.Library

/-- The digits that `encode_var_int` hands to `encode_digit`. -/
theorem encodeVarInt_eq_map (bias delta : Nat) :
    encodeVarInt bias delta = (Rfc3492.digits bias base delta).map encodeDigit := by
  rw [encodeVarInt, ← number_eq (Nat.le_refl delta), Rfc3492.number_eq_map]
  exact List.map_congr_left fun d _ => digit_eq d

variable {bias k w i : Nat} {ds : List Nat}

/-- The loop of the decoder on the characters of a numeral: what it makes of them is never more than
they are worth, and it is that, with nothing left over, if the digits are letters. -/
theorem decodeVarInt_numeral (hds : Rfc3492.Numeral bias k ds) (rest : List Byte) :
    ∀ {w i : Nat}, 0 < w →
      decodeVarInt bias (ds.map encodeDigit ++ rest) k w i = .error .mxArithmeticOverflow ∨
      ∃ i' rest', decodeVarInt bias (ds.map encodeDigit ++ rest) k w i = .ok (i', rest') ∧
        i' ≤ i + Rfc3492.value bias k w ds ∧
        (i' = i + Rfc3492.value bias k w ds ∧ rest' = rest ↔ ∀ d ∈ ds, d ≤ 25) := by
  induction hds with
  | @last k d h =>
      intro w i hw
      have hle := Rfc3492.threshold_le bias k
      have hread : readDigit d = d := (readDigit_eq_iff d).mpr (by omega)
      rw [List.map_singleton, List.singleton_append, decodeVarInt,
        decodeDigit_encodeDigit (by omega), hread]
      simp only
      by_cases hover : d > (sizeTMax - i) / w
      · exact .inl (if_pos hover)
      · refine .inr ⟨i + d * w, rest, ?_, Nat.le_refl _, ?_⟩
        · rw [if_neg hover]
          exact if_pos h
        · simp [Rfc3492.value]
          omega
  | @next k d ds hge hlt hrest ih =>
      intro w i hw
      have hle := Rfc3492.threshold_le bias k
      have hread := readDigit_le d
      have hiff := readDigit_eq_iff d
      have hprod : readDigit d * w ≤ d * w := Nat.mul_le_mul_right w hread
      rw [List.map_cons, List.cons_append, decodeVarInt, decodeDigit_encodeDigit hlt]
      simp only [Rfc3492.value, List.forall_mem_cons]
      by_cases hover : readDigit d > (sizeTMax - i) / w
      · exact .inl (if_pos hover)
      rw [if_neg hover]
      by_cases hend : readDigit d < threshold bias k
      · -- the digit is read as a smaller one and ends the number, with digits behind it
        refine .inr ⟨i + readDigit d * w, ds.map encodeDigit ++ rest, if_pos hend, by omega, ?_⟩
        constructor
        · rintro ⟨-, hsame⟩
          have hnil : ds.map encodeDigit = [] := List.append_left_eq_self.mp hsame
          exact absurd (List.map_eq_nil_iff.mp hnil) hrest.ne_nil
        · rintro ⟨hd, -⟩
          rw [hiff.mpr hd] at hend
          exact absurd hge (Nat.not_le.mpr hend)
      rw [if_neg hend]
      by_cases hweight : w > sizeTMax / (base - threshold bias k)
      · exact .inl (if_pos hweight)
      rw [if_neg hweight]
      have hw' : 0 < w * (36 - Rfc3492.threshold bias k) := Nat.mul_pos hw (by omega)
      rcases ih hw' (i := i + readDigit d * w) with hover' | ⟨i', rest', hrun, hmost, hback⟩
      · exact .inl hover'
      · refine .inr ⟨i', rest', hrun, by omega, ?_⟩
        by_cases hd : d ≤ 25
        · rw [hiff.mpr hd] at hback
          rw [← Nat.add_assoc, hback]
          exact (and_iff_right hd).symm
        · have hless : readDigit d * w < d * w :=
            Nat.mul_lt_mul_of_pos_right (by omega) hw
          constructor
          · rintro ⟨heq, -⟩
            omega
          · rintro ⟨hd', -⟩
            exact absurd hd' hd

/-! ### The loop of `adapt_bias` -/

/-- The loop ends with at most 455. -/
theorem adaptBiasFrom_le {fuel : Nat} : ∀ {delta k : Nat}, delta ≤ fuel →
    (adaptBiasFrom fuel delta k).1 ≤ (base - tMin) * tMax / 2 := by
  induction fuel with
  | zero =>
      intro delta k h
      exact Nat.le_trans h (Nat.zero_le _)
  | succ fuel ih =>
      intro delta k h
      rw [adaptBiasFrom]
      split
      · have hdiv : delta / (base - tMin) < delta := Nat.div_lt_self (by omega) (by decide)
        exact ih (by omega)
      · omega

/-- As many turns as `delta` says are enough. -/
theorem adaptBiasFrom_eq {fuel : Nat} : ∀ {delta k fuel' : Nat}, delta ≤ fuel → delta ≤ fuel' →
    adaptBiasFrom fuel delta k = adaptBiasFrom fuel' delta k := by
  have hzero : ∀ n k, adaptBiasFrom n 0 k = (0, k) := by
    intro n k
    cases n with
    | zero => rfl
    | succ n => exact if_neg (by decide)
  induction fuel with
  | zero =>
      intro delta k fuel' h _
      obtain rfl := Nat.le_zero.mp h
      rw [hzero, hzero]
  | succ fuel ih =>
      intro delta k fuel' h h'
      cases fuel' with
      | zero =>
          obtain rfl := Nat.le_zero.mp h'
          rw [hzero, hzero]
      | succ fuel' =>
          rw [adaptBiasFrom, adaptBiasFrom]
          split
          · have hdiv : delta / (base - tMin) < delta := Nat.div_lt_self (by omega) (by decide)
            exact ih (by omega) (by omega)
          · rfl

/-! ### Numbers that come back -/

/-- The digits are digits, the decoder takes the characters of `delta` and adds `delta`, and then
`adapt_bias`, whose loop comes to an end, gives both sides the same bias. -/
structure ReadsBack (bias delta i₀ : Nat) (rest : List Byte) : Prop where
  written : encodeVarInt bias delta = (Rfc3492.digits bias base delta).map encodeDigit
  below : ∀ d ∈ Rfc3492.digits bias base delta, d < 36
  read : decodeVarInt bias (encodeVarInt bias delta ++ rest) base 1 i₀ = .ok (i₀ + delta, rest)
  settles : ∀ d k, ∃ turns, (adaptBiasFrom turns d k).1 ≤ (base - tMin) * tMax / 2 ∧
    ∀ fuel ≥ turns, adaptBiasFrom fuel d k = adaptBiasFrom turns d k
  adapted : ∀ i rest',
    decodeVarInt bias (encodeVarInt bias delta ++ rest) base 1 i₀ = .ok (i, rest') →
      ∀ nPoints isFirst, adaptBias (i - i₀) nPoints isFirst = adaptBias delta nPoints isFirst

/-- **A number comes back if and only if its digits are letters.** -/
theorem readsBack_iff {bias delta i₀ : Nat} {rest : List Byte}
    (hover : decodeVarInt bias (encodeVarInt bias delta ++ rest) base 1 i₀ ≠
      .error .mxArithmeticOverflow) :
    ReadsBack bias delta i₀ rest ↔ ∀ d ∈ Rfc3492.digits bias base delta, d ≤ 25 := by
  have hwritten := encodeVarInt_eq_map bias delta
  have hnumeral := Rfc3492.numeral_digits bias base delta
  have hvalue : Rfc3492.value bias base 1 (Rfc3492.digits bias base delta) = delta := by
    rw [Rfc3492.value_digits, Nat.mul_one]
  rcases decodeVarInt_numeral hnumeral rest (i := i₀) Nat.one_pos with
    herror | ⟨i, rest', hrun, -, hback⟩
  · rw [hwritten] at hover
    exact absurd herror hover
  rw [← hwritten] at hrun
  rw [hvalue] at hback
  constructor
  · intro h
    have hread := h.read
    rw [hrun] at hread
    exact hback.mp (Prod.mk.inj (Except.ok.inj hread))
  · intro hletters
    obtain ⟨rfl, rfl⟩ := hback.mpr hletters
    constructor
    case written => exact hwritten
    case below => exact hnumeral.lt
    case read => exact hrun
    case settles =>
      intro d k
      exact ⟨d, adaptBiasFrom_le (Nat.le_refl d), fun fuel hfuel =>
        adaptBiasFrom_eq hfuel (Nat.le_refl d)⟩
    case adapted =>
      intro i rest'' hrun' nPoints isFirst
      rw [hrun] at hrun'
      obtain ⟨rfl, -⟩ := Prod.mk.inj (Except.ok.inj hrun')
      rw [Nat.add_sub_cancel_left]

/-- The digits of 25 with the bias 72 are 25 and 0. -/
theorem readsBack_letters : ReadsBack 72 25 7 [0x62] :=
  (readsBack_iff (by decide)).mpr (by simp [Rfc3492.digits, Rfc3492.threshold, base])

/-- The digit 26 is read as 22. -/
theorem not_readsBack_figure :
    decodeVarInt 72 (encodeVarInt 72 26 ++ []) base 1 0 ≠ .error .mxArithmeticOverflow ∧
      ¬ ReadsBack 72 26 0 [] := by
  have hrun : decodeVarInt 72 (encodeVarInt 72 26 ++ []) base 1 0 = .ok (22, []) := by rfl
  refine ⟨by rw [hrun]; exact nofun, fun h => ?_⟩
  have hread := h.read
  rw [hrun] at hread
  exact absurd (Prod.mk.inj (Except.ok.inj hread)).1 (by decide)

end MxLib.Http.Punycode
