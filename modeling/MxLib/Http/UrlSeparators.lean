import Mathlib.Data.List.Infix
import MxLib.Http.UrlEncoding
import MxLib.Http.UrlTraversal

/-!
# Separators that escapes spell

`SetPath` looks for six texts before it decodes a path, so that no escape becomes a
slash, a backslash or the end of a string.  `Decode` reads digits of both cases, and
`Utf8_Decode` takes forms of three bytes for characters that need one.  The characters
that come out are counted: they are those that were there, and one for each place of
the path where an escape or such a form spells the character.
-/

namespace MxLib.Http

open MxLib.Library.Unicode

/-! ### Places of a text -/

/-- The characters that no escape may become. -/
def barredChars : List Byte := [0, 0x2F, 0x5C]

/-- `DecodePct` or `DecodePctU` reads the character here. -/
def escapeAt (ch : Byte) (l : List Byte) : Bool :=
  ch != 0 && (decodePct l == ch || decodePctU l == ch.toUInt16)

/-- Three escapes give a lead byte without bits, then the bits of `ch`. -/
def overlongAt (ch : Byte) (l : List Byte) : Bool :=
  (decodePct l == 0xE0 || decodePct l == 0xF0) && decodePct (l.drop 3) == 0x80 + ch / 64 &&
    decodePct (l.drop 6) == 0x80 + ch % 64

/-- The text has a NUL, or spells one of the three characters somewhere. -/
def SpellsSeparator (szPathA : List Byte) : Prop :=
  0 ∈ szPathA ∨
    ∃ ch ∈ barredChars, ∃ l, l <:+ szPathA ∧ (escapeAt ch l || overlongAt ch l) = true

/-- The separators of the decoded text are those that the path has as they are. -/
def SeparatorsLiteral (szPathA : List Byte) : Prop :=
  ∀ cStrTempW, decodeText szPathA = .ok cStrTempW →
    cStrTempW.count slashW = szPathA.count 0x2F ∧
      cStrTempW.count backslashW = szPathA.count 0x5C ∧ 0 ∉ cStrTempW

/-! ### Digits -/

theorem digit_of_isHexaDigit {d : Byte} (h : isHexaDigit d ≠ none) :
    d ≠ 0x25 ∧ d ∉ barredChars := by
  have hall : ∀ d : Byte, ((isHexaDigit d).isNone ||
      (d != 0x25 && !barredChars.contains d)) = true := forall_byte (by decide)
  have hd := hall d
  rw [Option.isNone_eq_false_iff.mpr (Option.isSome_iff_ne_none.mpr h)] at hd
  simpa using hd

theorem decodePct_of_ne {x : Byte} (hx : x ≠ 0x25) (l : List Byte) : decodePct (x :: l) = 0 := by
  rw [decodePct, charAt_cons_zero, if_pos (by simpa using hx)]

theorem decodePctU_of_ne {x : Byte} (hx : x ≠ 0x25) (l : List Byte) : decodePctU (x :: l) = 0 := by
  rw [decodePctU, charAt_cons_zero, if_pos (by simp [hx])]

theorem exists_of_decodePct {l : List Byte} (h : decodePct l ≠ 0) :
    ∃ d0 d1 p, l = 0x25 :: d0 :: d1 :: p ∧ isHexaDigit d0 ≠ none ∧ isHexaDigit d1 ≠ none := by
  have hpct : charAt l 0 = 0x25 := by
    by_contra hne
    exact h (by rw [decodePct, if_pos (by simpa using hne)])
  have h1 : isHexaDigit (charAt l 1) ≠ none := by
    intro hd
    exact h (by simp [decodePct, hd])
  have h2 : isHexaDigit (charAt l 2) ≠ none := by
    intro hd
    exact h (by simp [decodePct, hd])
  rcases l with _ | ⟨x, _ | ⟨d0, _ | ⟨d1, p⟩⟩⟩
  · exact absurd rfl h1
  · exact absurd rfl h1
  · exact absurd rfl h2
  · obtain rfl : x = 0x25 := hpct
    exact ⟨d0, d1, p, rfl, h1, h2⟩

theorem exists_of_decodePctU {l : List Byte} (h : decodePctU l ≠ 0) :
    ∃ v d0 d1 d2 d3 p, l = 0x25 :: v :: d0 :: d1 :: d2 :: d3 :: p ∧ (v = 0x75 ∨ v = 0x55) ∧
      ∀ d ∈ [d0, d1, d2, d3], isHexaDigit d ≠ none := by
  have hpct : charAt l 0 = 0x25 ∧ (charAt l 1 = 0x75 ∨ charAt l 1 = 0x55) := by
    by_contra hne
    apply h
    rw [decodePctU, if_pos]
    rw [not_and_or, not_or] at hne
    simpa using hne
  have h2 : isHexaDigit (charAt l 2) ≠ none := by
    intro hd
    exact h (by simp [decodePctU, hd])
  have h3 : isHexaDigit (charAt l 3) ≠ none := by
    intro hd
    exact h (by simp [decodePctU, hd])
  have h4 : isHexaDigit (charAt l 4) ≠ none := by
    intro hd
    exact h (by simp [decodePctU, hd])
  have h5 : isHexaDigit (charAt l 5) ≠ none := by
    intro hd
    exact h (by simp [decodePctU, hd])
  rcases l with _ | ⟨x, _ | ⟨v, _ | ⟨d0, _ | ⟨d1, _ | ⟨d2, _ | ⟨d3, p⟩⟩⟩⟩⟩⟩
  · exact absurd rfl h2
  · exact absurd rfl h2
  · exact absurd rfl h2
  · exact absurd rfl h3
  · exact absurd rfl h4
  · exact absurd rfl h5
  · obtain ⟨hx, hv⟩ := hpct
    obtain rfl : x = 0x25 := hx
    refine ⟨v, d0, d1, d2, d3, p, rfl, hv, ?_⟩
    simp only [List.forall_mem_cons, List.not_mem_nil, IsEmpty.forall_iff, implies_true, and_true]
    exact ⟨h2, h3, h4, h5⟩

/-! ### Reading a text -/

/-- What `Decode` makes of a text: one rule for each of its branches. -/
inductive Reads : List Byte → List Byte → Prop
  | nil : Reads [] []
  | plus {p b : List Byte} : Reads p b → Reads (0x2B :: p) (0x20 :: b)
  | pct {d0 d1 : Byte} {p b : List Byte} : isHexaDigit d0 ≠ none → isHexaDigit d1 ≠ none →
      decodePct [0x25, d0, d1] ≠ 0 → Reads p b →
      Reads (0x25 :: d0 :: d1 :: p) (decodePct [0x25, d0, d1] :: b)
  | pctU {v d0 d1 d2 d3 : Byte} {p b : List Byte} : (v = 0x75 ∨ v = 0x55) →
      (∀ d ∈ [d0, d1, d2, d3], isHexaDigit d ≠ none) →
      decodePctU [0x25, v, d0, d1, d2, d3] ≠ 0 → Reads p b →
      Reads (0x25 :: v :: d0 :: d1 :: d2 :: d3 :: p)
        (utf8Bytes (decodePctU [0x25, v, d0, d1, d2, d3]).toNat ++ b)
  | percent {p b : List Byte} : decodePct (0x25 :: p) = 0 → decodePctU (0x25 :: p) = 0 →
      Reads p b → Reads (0x25 :: p) (0x25 :: b)
  | plain {ch : Byte} {p b : List Byte} : ch ≠ 0x25 → ch.toNat < 0x80 → Reads p b →
      Reads (ch :: p) (ch :: b)

theorem utf8Encode_singleton {u : WChar} {bs : List Byte} (h : utf8Encode [u] = .ok bs) :
    bs = utf8Bytes u.toNat := by
  rw [utf8Encode, utf8EncodeChar_single] at h
  split at h
  · cases h
  · exact (Except.ok.inj h).symm

theorem reads_of_decodeFrom {fuel : Nat} {szUrlA cStrDestA b : List Byte}
    (hfuel : szUrlA.length ≤ fuel) (h : decodeFrom fuel szUrlA cStrDestA = .ok b) :
    ∃ b', b = cStrDestA ++ b' ∧ Reads szUrlA b' := by
  induction fuel generalizing szUrlA cStrDestA with
  | zero =>
    obtain rfl := List.length_eq_zero_iff.mp (Nat.le_zero.mp hfuel)
    obtain rfl := Except.ok.inj h
    exact ⟨[], (List.append_nil _).symm, .nil⟩
  | succ fuel ih =>
    -- one turn, which takes `p` from the text and adds `bs`
    have hturn : ∀ {p bs : List Byte}, p.length ≤ fuel →
        decodeFrom fuel p (cStrDestA ++ bs) = .ok b →
        ∃ b', b = cStrDestA ++ (bs ++ b') ∧ Reads p b' := by
      intro p bs hp hdec
      obtain ⟨b', hb, hreads⟩ := ih hp hdec
      exact ⟨b', by rw [hb, List.append_assoc], hreads⟩
    cases szUrlA with
    | nil =>
      obtain rfl := Except.ok.inj h
      exact ⟨[], (List.append_nil _).symm, .nil⟩
    | cons ch p =>
      rw [List.length_cons] at hfuel
      rw [decodeFrom] at h
      split at h
      · rename_i hplus
        obtain rfl := beq_iff_eq.mp hplus
        obtain ⟨b', hb, hreads⟩ := hturn (by omega) h
        exact ⟨_, hb, .plus hreads⟩
      split at h
      · rename_i hpercent
        obtain rfl := beq_iff_eq.mp hpercent
        split at h
        · rename_i hpct
          rw [Bool.and_eq_true, bne_iff_ne] at hpct
          obtain ⟨d0, d1, p', heq, hd0, hd1⟩ := exists_of_decodePct hpct.2
          obtain ⟨-, rfl⟩ := List.cons.inj heq
          simp only [List.length_cons] at hfuel
          obtain ⟨b', hb, hreads⟩ := hturn (p := p') (by omega) h
          exact ⟨_, hb, .pct hd0 hd1 hpct.2 hreads⟩
        split at h
        · rename_i hpct hpctU
          rw [Bool.and_eq_true, bne_iff_ne] at hpctU
          obtain ⟨v, d0, d1, d2, d3, p', heq, hv, hd⟩ := exists_of_decodePctU hpctU.2
          obtain ⟨-, rfl⟩ := List.cons.inj heq
          have hu : decodePctU (0x25 :: v :: d0 :: d1 :: d2 :: d3 :: p') =
            decodePctU [0x25, v, d0, d1, d2, d3] := rfl
          rw [hu] at h hpctU
          split at h
          · cases h
          · rename_i bs hbs
            obtain rfl := utf8Encode_singleton hbs
            rw [szStr_of_ne_zero fun ch hch => ne_zero_of_mem_utf8Bytes hpctU.2 hch] at h
            simp only [List.length_cons] at hfuel
            obtain ⟨b', hb, hreads⟩ := hturn (p := p') (by omega) h
            exact ⟨_, hb, .pctU hv hd hpctU.2 hreads⟩
        · rename_i hpct hpctU
          have hzero : decodePct (0x25 :: p) = 0 := by
            by_contra hne
            obtain ⟨d0, d1, p', heq, -, -⟩ := exists_of_decodePct hne
            refine hpct ?_
            rw [Bool.and_eq_true, bne_iff_ne]
            exact ⟨by rw [heq]; simp, hne⟩
          have hzeroU : decodePctU (0x25 :: p) = 0 := by
            by_contra hne
            obtain ⟨v, d0, d1, d2, d3, p', heq, -, -⟩ := exists_of_decodePctU hne
            refine hpctU ?_
            rw [Bool.and_eq_true, bne_iff_ne]
            exact ⟨by rw [heq]; simp, hne⟩
          obtain ⟨b', hb, hreads⟩ := hturn (by omega) h
          exact ⟨_, hb, .percent hzero hzeroU hreads⟩
      split at h
      · cases h
      · rename_i hplus hpercent hhigh
        have hlt : ch.toNat < 0x80 := (and_80_eq_zero_iff ch).mp (by simpa using hhigh)
        obtain ⟨b', hb, hreads⟩ := hturn (by omega) h
        exact ⟨_, hb, .plain (by simpa using hpercent) hlt hreads⟩

/-! ### Counting places -/

theorem escapeAt_of_zero {ch : Byte} {l : List Byte} (h : decodePct l = 0)
    (hU : decodePctU l = 0) : escapeAt ch l = false := by
  rw [escapeAt, h, hU]
  by_cases hch : ch = 0
  · simp [hch]
  · have hch16 : (0 : WChar) ≠ ch.toUInt16 := fun h => hch (toUInt16_inj.mp h.symm)
    simp [Ne.symm hch, hch16]

theorem escapeAt_of_ne {ch x : Byte} (hx : x ≠ 0x25) (l : List Byte) :
    escapeAt ch (x :: l) = false :=
  escapeAt_of_zero (decodePct_of_ne hx l) (decodePctU_of_ne hx l)

/-- No text is an escape of both kinds. -/
theorem decodePct_eq_zero {l : List Byte} (h : decodePctU l ≠ 0) : decodePct l = 0 := by
  by_contra hne
  obtain ⟨d0, d1, p, rfl, hd0, -⟩ := exists_of_decodePct hne
  obtain ⟨v, _, _, _, _, _, heq, hv, -⟩ := exists_of_decodePctU h
  obtain ⟨rfl, -⟩ := List.cons.inj (List.cons.inj heq).2
  rcases hv with rfl | rfl <;> exact hd0 (by decide)

theorem escapeAt_of_pct {ch : Byte} {l : List Byte} (h : decodePct l ≠ 0) :
    escapeAt ch l = (decodePct l == ch) := by
  have hU : decodePctU l = 0 := by
    by_contra hne
    exact h (decodePct_eq_zero hne)
  rw [escapeAt, hU]
  by_cases hch : ch = 0
  · subst hch
    exact (beq_eq_false_iff_ne.mpr h).symm
  · have hch16 : (0 : WChar) ≠ ch.toUInt16 := fun h => hch (toUInt16_inj.mp h.symm)
    rw [bne_iff_ne.mpr hch, beq_eq_false_iff_ne.mpr hch16, Bool.true_and, Bool.or_false]

theorem escapeAt_of_pctU {ch : Byte} {l : List Byte} (h : decodePctU l ≠ 0) :
    escapeAt ch l = (decodePctU l == ch.toUInt16) := by
  rw [escapeAt, decodePct_eq_zero h]
  by_cases hch : ch = 0
  · subst hch
    exact (beq_eq_false_iff_ne.mpr h).symm
  · rw [bne_iff_ne.mpr hch, beq_eq_false_iff_ne.mpr (Ne.symm hch), Bool.true_and, Bool.false_or]

theorem overlongAt_of_ne {ch x : Byte} (hx : x ≠ 0x25) (l : List Byte) :
    overlongAt ch (x :: l) = false := by
  rw [overlongAt, decodePct_of_ne hx]
  rfl

/-- A place that is passed over, when it does not start with a percent sign. -/
theorem countP_tails_of_ne {at_ : List Byte → Bool} {x : Byte} {l : List Byte}
    (h : at_ (x :: l) = false) : (x :: l).tails.countP at_ = l.tails.countP at_ := by
  rw [List.tails_cons, List.countP_cons_of_neg (by simp [h])]

theorem countP_tails_pct {at_ : List Byte → Bool}
    (hat : ∀ {x : Byte}, x ≠ 0x25 → ∀ l, at_ (x :: l) = false) {d0 d1 : Byte}
    (hd0 : isHexaDigit d0 ≠ none) (hd1 : isHexaDigit d1 ≠ none) (p : List Byte) :
    (0x25 :: d0 :: d1 :: p).tails.countP at_ =
      p.tails.countP at_ + if at_ (0x25 :: d0 :: d1 :: p) then 1 else 0 := by
  rw [List.tails_cons, List.countP_cons,
    countP_tails_of_ne (hat (digit_of_isHexaDigit hd0).1 _),
    countP_tails_of_ne (hat (digit_of_isHexaDigit hd1).1 _)]

theorem countP_tails_pctU {at_ : List Byte → Bool}
    (hat : ∀ {x : Byte}, x ≠ 0x25 → ∀ l, at_ (x :: l) = false) {v d0 d1 d2 d3 : Byte}
    (hv : v = 0x75 ∨ v = 0x55) (hd : ∀ d ∈ [d0, d1, d2, d3], isHexaDigit d ≠ none)
    (p : List Byte) :
    (0x25 :: v :: d0 :: d1 :: d2 :: d3 :: p).tails.countP at_ =
      p.tails.countP at_ + if at_ (0x25 :: v :: d0 :: d1 :: d2 :: d3 :: p) then 1 else 0 := by
  have hv' : v ≠ 0x25 := by rcases hv with rfl | rfl <;> decide
  have hd' : ∀ d ∈ [d0, d1, d2, d3], d ≠ 0x25 := fun d h => (digit_of_isHexaDigit (hd d h)).1
  rw [List.tails_cons, List.countP_cons, countP_tails_of_ne (hat hv' _),
    countP_tails_of_ne (hat (hd' d0 (by simp)) _), countP_tails_of_ne (hat (hd' d1 (by simp)) _),
    countP_tails_of_ne (hat (hd' d2 (by simp)) _), countP_tails_of_ne (hat (hd' d3 (by simp)) _)]

/-! ### The bytes -/

theorem toNat_lt_of_barred {ch : Byte} (hch : ch ∈ barredChars) : ch.toNat < 0x80 := by
  simp only [barredChars, List.mem_cons, List.not_mem_nil, or_false] at hch
  rcases hch with rfl | rfl | rfl <;> decide

/-- A character below `0x80` in the bytes of another one. -/
theorem count_utf8Bytes {ch : Byte} (hch : ch.toNat < 0x80) (u : WChar) :
    (utf8Bytes u.toNat).count ch = if u = ch.toUInt16 then 1 else 0 := by
  by_cases hlt : u.toNat < 0x80
  · have hiff : UInt8.ofNat u.toNat = ch ↔ u = ch.toUInt16 := by
      rw [← UInt8.toNat_inj, toNat_ofNat_byte (by omega), ← UInt16.toNat_inj, UInt8.toNat_toUInt16]
    rw [utf8Bytes, if_pos hlt, List.count_singleton]
    simp only [beq_iff_eq, hiff]
  · have hne : u ≠ ch.toUInt16 := by
      rintro rfl
      exact hlt (by rwa [UInt8.toNat_toUInt16])
    rw [if_neg hne, List.count_eq_zero]
    intro hin
    have hle := le_of_mem_utf8Bytes (by omega) (Nat.lt_trans u.toNat_lt (by decide)) ch hin
    omega

/-- **The bytes that `Decode` makes** have one of the characters for each one in the text, and
one for each escape that spells it. -/
theorem count_of_reads {p b : List Byte} (h : Reads p b) {ch : Byte} (hch : ch ∈ barredChars) :
    b.count ch = p.count ch + p.tails.countP (escapeAt ch) := by
  have hdigit : ∀ {d : Byte}, isHexaDigit d ≠ none → d ≠ ch := fun hd h =>
    (digit_of_isHexaDigit hd).2 (h ▸ hch)
  have hother : ∀ {x : Byte}, x ∉ barredChars → x ≠ ch := fun hx h => hx (h ▸ hch)
  have hpercent : (0x25 : Byte) ≠ ch := hother (by decide)
  induction h with
  | nil =>
    have hat : escapeAt ch [] = false := escapeAt_of_zero rfl rfl
    simp [hat]
  | plus _ ih =>
    rw [countP_tails_of_ne (escapeAt_of_ne (by decide) _),
      List.count_cons_of_ne (hother (by decide)), List.count_cons_of_ne (hother (by decide)), ih]
  | @pct d0 d1 p b hd0 hd1 hne _ ih =>
    have hat : escapeAt ch (0x25 :: d0 :: d1 :: p) = (decodePct [0x25, d0, d1] == ch) :=
      escapeAt_of_pct hne
    rw [countP_tails_pct escapeAt_of_ne hd0 hd1, List.count_cons_of_ne hpercent,
      List.count_cons_of_ne (hdigit hd0), List.count_cons_of_ne (hdigit hd1), List.count_cons, ih, hat]
    omega
  | @pctU v d0 d1 d2 d3 p b hv hd hne _ ih =>
    have hat : escapeAt ch (0x25 :: v :: d0 :: d1 :: d2 :: d3 :: p) =
        (decodePctU [0x25, v, d0, d1, d2, d3] == ch.toUInt16) := escapeAt_of_pctU hne
    have hv' : v ≠ ch := by
      rcases hv with rfl | rfl
      · exact hother (by decide)
      · exact hother (by decide)
    have hd' : ∀ d ∈ [d0, d1, d2, d3], d ≠ ch := fun d h => hdigit (hd d h)
    rw [countP_tails_pctU escapeAt_of_ne hv hd, List.count_cons_of_ne hpercent,
      List.count_cons_of_ne hv', List.count_cons_of_ne (hd' d0 (by simp)),
      List.count_cons_of_ne (hd' d1 (by simp)), List.count_cons_of_ne (hd' d2 (by simp)),
      List.count_cons_of_ne (hd' d3 (by simp)), List.count_append,
      count_utf8Bytes (toNat_lt_of_barred hch), ih, hat]
    simp only [beq_iff_eq]
    omega
  | @percent p b hzero hzeroU _ ih =>
    have hat : escapeAt ch (0x25 :: p) = false := escapeAt_of_zero hzero hzeroU
    rw [countP_tails_of_ne hat, List.count_cons_of_ne hpercent, List.count_cons_of_ne hpercent, ih]
  | plain hne _ _ ih =>
    rw [countP_tails_of_ne (escapeAt_of_ne hne _), List.count_cons, List.count_cons, ih]
    omega

/-! ### Forms that are too long -/

/-- The same form, in the bytes. -/
def overlongBytesAt (ch : Byte) (l : List Byte) : Bool :=
  (charAt l 0 == 0xE0 || charAt l 0 == 0xF0) && charAt l 1 == 0x80 + ch / 64 &&
    charAt l 2 == 0x80 + ch % 64

theorem overlongBytesAt_of_lt {ch x : Byte} (hx : x.toNat < 0xE0) (l : List Byte) :
    overlongBytesAt ch (x :: l) = false := by
  have hne : x ≠ 0xE0 ∧ x ≠ 0xF0 := by
    constructor <;> rintro rfl <;> exact absurd hx (by decide)
  rw [overlongBytesAt, charAt_cons_zero, beq_eq_false_iff_ne.mpr hne.1,
    beq_eq_false_iff_ne.mpr hne.2]
  rfl

theorem toNat_trails {ch : Byte} (hch : ch ∈ barredChars) :
    (0x80 + ch / 64).toNat = 0x80 + ch.toNat / 64 ∧ (0x80 + ch % 64).toNat = 0x80 + ch.toNat % 64 ∧
      (0x80 + ch / 64).toNat < 0xA0 := by
  simp only [barredChars, List.mem_cons, List.not_mem_nil, or_false] at hch
  rcases hch with rfl | rfl | rfl <;> decide

/-- **The characters that `Utf8_Decode` makes** are those among the bytes, and one for each form
that is too long. -/
theorem count_of_utf8Decode {b : List Byte} {w : List WChar} (h : utf8Decode b = .ok w)
    {ch : Byte} (hch : ch ∈ barredChars) :
    w.count ch.toUInt16 = b.count ch + b.tails.countP (overlongBytesAt ch) := by
  have hlt := toNat_lt_of_barred hch
  have hcont : ∀ {c : Byte}, isContinuation c = true → c.toNat < 0xE0 ∧ c ≠ ch := by
    intro c hc
    have hc' := (isContinuation_iff c).mp hc
    exact ⟨by omega, by rintro rfl; omega⟩
  induction isLoose_of_utf8Decode h generalizing w with
  | nil =>
    obtain rfl := Except.ok.inj h
    rfl
  | @one a rest ha _ ih =>
    rw [utf8Decode_one ha] at h
    obtain ⟨w', hw, rfl⟩ := exists_of_map_ok h
    have hiff : UInt16.ofNat a.toNat = ch.toUInt16 ↔ a = ch := by
      rw [← UInt16.toNat_inj, UInt8.toNat_toUInt16, UInt16.toNat_ofNat', ← UInt8.toNat_inj]
      omega
    rw [countP_tails_of_ne (overlongBytesAt_of_lt (by omega) _), List.count_cons, List.count_cons,
      ih hw]
    simp only [beq_iff_eq, hiff]
    omega
  | @two a c rest hlo hhi hc _ ih =>
    rw [utf8Decode_two hlo hhi, if_pos hc] at h
    obtain ⟨w', hw, rfl⟩ := exists_of_map_ok h
    have hc' := (isContinuation_iff c).mp hc
    have ha : a ≠ ch := by rintro rfl; omega
    have hu : UInt16.ofNat (a.toNat % 32 * 64 + c.toNat % 64) ≠ ch.toUInt16 := by
      rw [ne_eq, ← UInt16.toNat_inj, UInt8.toNat_toUInt16, UInt16.toNat_ofNat']
      omega
    rw [countP_tails_of_ne (overlongBytesAt_of_lt (by omega) _),
      countP_tails_of_ne (overlongBytesAt_of_lt (hcont hc).1 _), List.count_cons_of_ne ha,
      List.count_cons_of_ne (hcont hc).2, List.count_cons_of_ne hu, ih hw]
  | @three a c d rest hlo hhi hed hc hd _ ih =>
    rw [utf8Decode_three hlo hhi, if_pos ⟨hed, hc, hd⟩] at h
    obtain ⟨w', hw, rfl⟩ := exists_of_map_ok h
    have ha : a ≠ ch := by rintro rfl; omega
    have hat : overlongBytesAt ch (a :: c :: d :: rest) =
        (UInt16.ofNat (a.toNat % 16 * 4096 + c.toNat % 64 * 64 + d.toNat % 64) == ch.toUInt16) := by
      obtain ⟨htrail, htrail', -⟩ := toNat_trails hch
      have hc' := (isContinuation_iff c).mp hc
      have hd' := (isContinuation_iff d).mp hd
      rw [Bool.eq_iff_iff, overlongBytesAt, Bool.and_eq_true, Bool.and_eq_true, Bool.or_eq_true,
        beq_iff_eq, beq_iff_eq, beq_iff_eq, beq_iff_eq, beq_iff_eq, charAt_cons_zero,
        charAt_cons_succ, charAt_cons_zero, charAt_cons_succ, charAt_cons_succ, charAt_cons_zero,
        ← UInt8.toNat_inj, ← UInt8.toNat_inj, ← UInt8.toNat_inj, ← UInt8.toNat_inj,
        ← UInt16.toNat_inj, UInt8.toNat_toUInt16, UInt16.toNat_ofNat', htrail, htrail']
      simp only [UInt8.reduceToNat]
      omega
    rw [List.tails_cons, List.countP_cons,
      countP_tails_of_ne (overlongBytesAt_of_lt (hcont hc).1 _),
      countP_tails_of_ne (overlongBytesAt_of_lt (hcont hd).1 _), List.count_cons,
      List.count_cons_of_ne ha, List.count_cons_of_ne (hcont hc).2,
      List.count_cons_of_ne (hcont hd).2, ih hw, hat]
    omega

theorem overlongBytesAt_utf8 {ch : Byte} (hch : ch ∈ barredChars) {n : Nat} (hn : n < 0x10000)
    (b : List Byte) :
    (utf8Bytes n ++ b).tails.countP (overlongBytesAt ch) = b.tails.countP (overlongBytesAt ch) := by
  have hbyte : ∀ {m : Nat}, m < 0xE0 → ∀ l, overlongBytesAt ch (UInt8.ofNat m :: l) = false :=
    fun hm l => overlongBytesAt_of_lt (by rw [toNat_ofNat_byte (by omega)]; exact hm) l
  rw [utf8Bytes]
  split
  · exact countP_tails_of_ne (hbyte (by omega) _)
  split
  · exact (countP_tails_of_ne (hbyte (by omega) _)).trans (countP_tails_of_ne (hbyte (by omega) _))
  · refine (countP_tails_of_ne ?_).trans ((countP_tails_of_ne (hbyte (by omega) _)).trans
      (countP_tails_of_ne (hbyte (by omega) _)))
    -- a lead byte without bits comes before a byte from `0xA0` on
    rw [Bool.eq_false_iff]
    intro hat
    obtain ⟨-, -, htrail⟩ := toNat_trails hch
    rw [overlongBytesAt, Bool.and_eq_true, Bool.and_eq_true, Bool.or_eq_true, beq_iff_eq,
      beq_iff_eq, beq_iff_eq] at hat
    have hlead : UInt8.ofNat (0xE0 + n / 4096) = 0xE0 ∨ UInt8.ofNat (0xE0 + n / 4096) = 0xF0 :=
      hat.1.1
    have hsecond : UInt8.ofNat (0x80 + n / 64 % 64) = 0x80 + ch / 64 := hat.1.2
    have hsecond' := congrArg UInt8.toNat hsecond
    rw [← UInt8.toNat_inj, ← UInt8.toNat_inj, toNat_ofNat_byte (by omega)] at hlead
    rw [toNat_ofNat_byte (by omega)] at hsecond'
    simp only [UInt8.reduceToNat] at hlead
    omega

/-- What an escape of a byte from `0x80` on is read as. -/
theorem reads_of_decodePct {p b : List Byte} (h : Reads p b) (hne : decodePct p ≠ 0) :
    charAt b 0 = decodePct p ∧ Reads (p.drop 3) (b.drop 1) := by
  cases h with
  | nil => exact absurd rfl hne
  | plus _ => exact absurd rfl hne
  | pct hd0 hd1 _ h => exact ⟨rfl, h⟩
  | pctU _ _ hU h => exact absurd (decodePct_eq_zero hU) hne
  | percent hzero _ _ => exact absurd hzero hne
  | plain hch _ _ => exact absurd (decodePct_of_ne hch _) hne

theorem head_utf8Bytes_append {n : Nat} (hn : n < 0x10000) (b : List Byte) :
    ¬ (0x80 ≤ (charAt (utf8Bytes n ++ b) 0).toNat ∧ (charAt (utf8Bytes n ++ b) 0).toNat < 0xC0) := by
  have hbyte : ∀ {m : Nat} (l : List Byte), m < 0x80 ∨ 0xC0 ≤ m → m < 0x100 →
      ¬ (0x80 ≤ (charAt (UInt8.ofNat m :: l) 0).toNat ∧
        (charAt (UInt8.ofNat m :: l) 0).toNat < 0xC0) := by
    intro m l hm hlt
    rw [charAt_cons_zero, toNat_ofNat_byte hlt]
    omega
  rw [utf8Bytes]
  split
  · exact hbyte _ (by omega) (by omega)
  split
  · exact hbyte _ (by omega) (by omega)
  · exact hbyte _ (by omega) (by omega)

/-- Only an escape is read as a byte that no character starts with. -/
theorem decodePct_of_isContinuation {p b : List Byte} (h : Reads p b)
    (hc : isContinuation (charAt b 0) = true) : decodePct p = charAt b 0 := by
  rw [isContinuation_iff] at hc
  cases h with
  | nil => exact absurd hc (by decide)
  | plus _ => exact absurd hc.1 (by decide : ¬ 0x80 ≤ (0x20 : Byte).toNat)
  | pct hd0 hd1 _ h => rfl
  | @pctU v d0 d1 d2 d3 p b hv hd hU h =>
    exact absurd hc (head_utf8Bytes_append (UInt16.toNat_lt _) b)
  | percent hzero _ _ => exact absurd hc.1 (by decide : ¬ 0x80 ≤ (0x25 : Byte).toNat)
  | plain hch hlt _ =>
    rw [charAt_cons_zero] at hc
    omega

theorem trails_iff {p b : List Byte} (h : Reads p b) {ch : Byte} (hch : ch ∈ barredChars) :
    (charAt b 0 == 0x80 + ch / 64 && charAt b 1 == 0x80 + ch % 64) = true ↔
      (decodePct p == 0x80 + ch / 64 && decodePct (p.drop 3) == 0x80 + ch % 64) = true := by
  obtain ⟨htrail, htrail', -⟩ := toNat_trails hch
  have hlt := toNat_lt_of_barred hch
  have hc : isContinuation (0x80 + ch / 64) = true := by
    rw [isContinuation_iff]
    omega
  have hc' : isContinuation (0x80 + ch % 64) = true := by
    rw [isContinuation_iff]
    omega
  have hne : ∀ {c : Byte}, isContinuation c = true → c ≠ 0 := by
    rintro c hc rfl
    exact absurd hc (by decide)
  have hdrop : charAt (b.drop 1) 0 = charAt b 1 := by
    cases b <;> rfl
  simp only [Bool.and_eq_true, beq_iff_eq]
  constructor
  · rintro ⟨h0, h1⟩
    have hp := (decodePct_of_isContinuation h (h0 ▸ hc)).trans h0
    obtain ⟨-, hrest⟩ := reads_of_decodePct h (hp ▸ hne hc)
    have hp' := decodePct_of_isContinuation hrest (by rw [hdrop, h1]; exact hc')
    exact ⟨hp, by rw [hp', hdrop, h1]⟩
  · rintro ⟨h0, h1⟩
    obtain ⟨hb, hrest⟩ := reads_of_decodePct h (h0 ▸ hne hc)
    obtain ⟨hb', -⟩ := reads_of_decodePct hrest (h1 ▸ hne hc')
    exact ⟨hb.trans h0, by rw [← hdrop, hb', h1]⟩

/-- The forms that are too long in the bytes are those that escapes spell. -/
theorem countP_overlong {p b : List Byte} (h : Reads p b) {ch : Byte} (hch : ch ∈ barredChars) :
    b.tails.countP (overlongBytesAt ch) = p.tails.countP (overlongAt ch) := by
  induction h with
  | nil => rfl
  | plus _ ih =>
    rw [countP_tails_of_ne (overlongBytesAt_of_lt (by decide) _),
      countP_tails_of_ne (overlongAt_of_ne (by decide) _), ih]
  | @pct d0 d1 p b hd0 hd1 hne hreads ih =>
    have hat : overlongBytesAt ch (decodePct [0x25, d0, d1] :: b) =
        overlongAt ch (0x25 :: d0 :: d1 :: p) := by
      have hcons : decodePct (0x25 :: d0 :: d1 :: p) = decodePct [0x25, d0, d1] := rfl
      have htrails := Bool.eq_iff_iff.mpr (trails_iff hreads hch)
      rw [overlongBytesAt, overlongAt, hcons, charAt_cons_zero, charAt_cons_succ, charAt_cons_succ,
        Bool.and_assoc, htrails, ← Bool.and_assoc]
      rfl
    rw [countP_tails_pct overlongAt_of_ne hd0 hd1, List.tails_cons, List.countP_cons, ih, hat]
  | @pctU v d0 d1 d2 d3 p b hv hd hne _ ih =>
    have hat : overlongAt ch (0x25 :: v :: d0 :: d1 :: d2 :: d3 :: p) = false := by
      rw [overlongAt, show decodePct (0x25 :: v :: d0 :: d1 :: d2 :: d3 :: p) = 0 from
        decodePct_eq_zero (l := [0x25, v, d0, d1, d2, d3]) hne]
      rfl
    rw [countP_tails_pctU overlongAt_of_ne hv hd, overlongBytesAt_utf8 hch (UInt16.toNat_lt _), ih,
      hat]
    rfl
  | @percent p b hzero hzeroU _ ih =>
    have hat : overlongAt ch (0x25 :: p) = false := by
      rw [overlongAt, hzero]
      rfl
    rw [countP_tails_of_ne hat, countP_tails_of_ne (overlongBytesAt_of_lt (by decide) _), ih]
  | plain hne hlt _ ih =>
    rw [countP_tails_of_ne (overlongAt_of_ne hne _),
      countP_tails_of_ne (overlongBytesAt_of_lt (by omega) _), ih]

/-! ### Paths -/

/-- Each character is there as often as it was, and once for each place that spells it. -/
theorem count_of_decodeText {szTextA : List Byte} {w : List WChar} (h : decodeText szTextA = .ok w)
    {ch : Byte} (hch : ch ∈ barredChars) :
    w.count ch.toUInt16 = szTextA.count ch + szTextA.tails.countP (escapeAt ch) +
      szTextA.tails.countP (overlongAt ch) := by
  rw [decodeText] at h
  split at h
  · cases h
  · rename_i cStrTempA hdec
    obtain ⟨b, rfl, hreads⟩ := reads_of_decodeFrom (Nat.le_refl _) hdec
    rw [count_of_utf8Decode h hch, count_of_reads hreads hch,
      countP_overlong hreads hch]

theorem spells_iff {szPathA : List Byte} :
    SpellsSeparator szPathA ↔ 0 ∈ szPathA ∨ ∃ ch ∈ barredChars,
      0 < szPathA.tails.countP (escapeAt ch) + szPathA.tails.countP (overlongAt ch) := by
  rw [SpellsSeparator]
  refine or_congr Iff.rfl (exists_congr fun ch => and_congr_right fun _ => ?_)
  rw [Nat.add_pos_iff_pos_or_pos, List.countP_pos_iff, List.countP_pos_iff, ← exists_or]
  refine exists_congr fun l => ?_
  rw [List.mem_tails, Bool.or_eq_true, and_or_left]

/-- **No separator enters a path** that is accepted, exactly when no place of it spells one. -/
theorem separatorsLiteral_iff {szPathA : List Byte} {szSchemeW cStrPathW : List WChar}
    (h : setPath szPathA szSchemeW = .ok cStrPathW) :
    SeparatorsLiteral szPathA ↔ ¬ SpellsSeparator szPathA := by
  obtain ⟨w, hdec, -⟩ := setPath_ok h
  have hcount := @count_of_decodeText _ _ hdec
  have h0 := hcount (show (0 : Byte) ∈ barredChars by decide)
  have h1 := hcount (show (0x2F : Byte) ∈ barredChars by decide)
  have h2 := hcount (show (0x5C : Byte) ∈ barredChars by decide)
  have hliteral : SeparatorsLiteral szPathA ↔ w.count slashW = szPathA.count 0x2F ∧
      w.count backslashW = szPathA.count 0x5C ∧ w.count 0 = 0 := by
    rw [SeparatorsLiteral, hdec]
    simp only [Except.ok.injEq, forall_eq', List.count_eq_zero]
  have hspells : SpellsSeparator szPathA ↔ 0 < szPathA.count 0 ∨
      ∃ ch ∈ barredChars,
        0 < szPathA.tails.countP (escapeAt ch) + szPathA.tails.countP (overlongAt ch) := by
    rw [spells_iff, List.count_pos_iff]
  rw [hliteral, hspells]
  simp only [barredChars, List.mem_cons, List.not_mem_nil, or_false, exists_eq_or_imp,
    exists_eq_left]
  rw [show (0 : Byte).toUInt16 = 0 from rfl] at h0
  rw [show (0x2F : Byte).toUInt16 = slashW from rfl] at h1
  rw [show (0x5C : Byte).toUInt16 = backslashW from rfl] at h2
  omega

theorem separatorsLiteral_space : setPath (ascii "/a%20b") (wide "http") = .ok (wide "/a b") ∧
    (SeparatorsLiteral (ascii "/a%20b") ↔ ¬ SpellsSeparator (ascii "/a%20b")) := by
  have hset : setPath (ascii "/a%20b") (wide "http") = .ok (wide "/a b") := by decide
  exact ⟨hset, separatorsLiteral_iff hset⟩

/-- The texts that are looked for have capital digits. -/
theorem separators_small : ¬ ∀ (szPathA : List Byte) (szSchemeW cStrPathW : List WChar),
    setPath szPathA szSchemeW = .ok cStrPathW → SeparatorsLiteral szPathA := by
  intro h
  have hliteral := h (ascii "/a%2fb") (wide "http") (wide "/a/b") (by decide) (wide "/a/b")
    (by decide)
  exact absurd hliteral.1 (by decide)

end MxLib.Http
