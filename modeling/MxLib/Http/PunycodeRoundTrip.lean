import Mathlib.Data.List.Chain
import Mathlib.Tactic.IntervalCases
import MxLib.Http.Punycode
import MxLib.Library.Unicode

/-!
# Which texts Punycode gives back

`Punycode_Encode` counts code points in one place and units in another, so it fails on
every short text with a surrogate pair; at a zero it stops.  `Punycode_Decode` loses a
part of what it reads: the index of its last loop is moved twice, the position is not
moved behind an inserted code point, and the digits from 26 on are read as four less.  So
a single unit comes back if its number is written in letters, and a longer text can only
come back if its encoding is at least twice as long (`roundTrips_of_isLetters`).
-/

namespace MxLib.Http.Punycode

open MxLib.Library.Unicode

/-! ### The code points of a text -/

theorem getWideChar_single {u : WChar} (hu : isHighSurrogate u = false) (s : List WChar) :
    getWideChar (u :: s) = u.toNat := by
  have hguard : (u < 0xD800 || u > 0xDBFF) = true := by
    rw [isHighSurrogate, Bool.and_eq_false_iff, decide_eq_false_iff_not, decide_eq_false_iff_not,
      UInt16.not_le, UInt16.not_le] at hu
    rw [Bool.or_eq_true, decide_eq_true_iff, decide_eq_true_iff]
    exact hu
  rw [getWideChar, charAt_cons_zero, if_pos hguard]

theorem getWideChar_pair {u v : WChar} (hu : isHighSurrogate u = true)
    (hv : isLowSurrogate v = true) (s : List WChar) :
    getWideChar (u :: v :: s) = pairValue u v := by
  rw [isHighSurrogate, Bool.and_eq_true, decide_eq_true_iff, decide_eq_true_iff] at hu
  rw [isLowSurrogate, Bool.and_eq_true, decide_eq_true_iff, decide_eq_true_iff] at hv
  have hguard : ¬ (u < 0xD800 || u > 0xDBFF) = true := by
    rw [Bool.or_eq_true, decide_eq_true_iff, decide_eq_true_iff, not_or, UInt16.not_lt,
      gt_iff_lt, UInt16.not_lt]
    exact hu
  have hguard' : ¬ (v < 0xDC00 || v > 0xDFFF) = true := by
    rw [Bool.or_eq_true, decide_eq_true_iff, decide_eq_true_iff, not_or, UInt16.not_lt,
      gt_iff_lt, UInt16.not_lt]
    exact hv
  have hlow : 0xDC00 ≤ v.toNat := UInt16.le_iff_toNat_le.mp hv.1
  have hone : charAt (u :: v :: s) 1 = v := rfl
  rw [getWideChar, charAt_cons_zero, hone, if_neg hguard, if_neg hguard', pairValue]
  omega

theorem wideChars_single {u : WChar} (hu : isHighSurrogate u = false) (s : List WChar) :
    wideChars (u :: s) = u.toNat :: wideChars s := by
  have hlt := u.toNat_lt
  cases s with
  | nil =>
    rw [wideChars.eq_def]
    simp only [getWideChar_single hu, wideChars]
  | cons v s => rw [wideChars, getWideChar_single hu, if_neg (by omega)]

theorem wideChars_pair {u v : WChar} (hu : isHighSurrogate u = true)
    (hv : isLowSurrogate v = true) (s : List WChar) :
    wideChars (u :: v :: s) = pairValue u v :: wideChars s := by
  have hge : pairValue u v ≥ 0x10000 := Nat.le_add_left _ _
  rw [wideChars, getWideChar_pair hu hv, if_pos hge]

theorem pairValue_lt {u v : WChar} (hu : isHighSurrogate u = true) (hv : isLowSurrogate v = true) :
    pairValue u v < 0x110000 := by
  have hu' := (isHighSurrogate_iff u).mp hu
  have hv' := (isLowSurrogate_iff v).mp hv
  rw [pairValue]
  omega

/-- A unit that is no surrogate. -/
def isSurrogate (u : WChar) : Bool := isHighSurrogate u || isLowSurrogate u

/-- What the code points of a well-formed text are. -/
theorem wideChars_spec {s : List WChar} (h : isWellFormed s = true) :
    (∀ c ∈ wideChars s, c < 0x110000) ∧ (0 ∈ wideChars s ↔ 0 ∈ s) ∧
      (wideChars s).countP (· < 128) = s.countP (· < 128) ∧
      (wideChars s).length ≤ s.length ∧
      (s.any isSurrogate = true → (wideChars s).length < s.length) := by
  refine isWellFormed_induct ?nil ?single ?pair h
  case nil =>
    exact ⟨nofun, ⟨fun h => absurd h List.not_mem_nil, fun h => absurd h List.not_mem_nil⟩, rfl,
      Nat.le_refl _, nofun⟩
  case single =>
    intro u s hu hu' _ ih
    obtain ⟨hlt, hzero, hcount, hlen, hsurr⟩ := ih
    rw [wideChars_single hu]
    refine ⟨?_, ?_, ?_, ?_, ?_⟩
    · intro c hc
      rcases List.mem_cons.mp hc with rfl | hc
      · have := u.toNat_lt
        omega
      · exact hlt c hc
    · rw [List.mem_cons, List.mem_cons, hzero, ← UInt16.toNat_inj]
      rfl
    · rw [List.countP_cons, List.countP_cons, hcount]
      rfl
    · rw [List.length_cons, List.length_cons]
      omega
    · intro hany
      rw [List.any_cons, isSurrogate, hu, hu', Bool.or_self, Bool.false_or] at hany
      exact Nat.succ_lt_succ (hsurr hany)
  case pair =>
    intro u v s hu hv _ ih
    obtain ⟨hlt, hzero, hcount, hlen, -⟩ := ih
    have hu' := (isHighSurrogate_iff u).mp hu
    have hv' := (isLowSurrogate_iff v).mp hv
    have hge : 0x10000 ≤ pairValue u v := Nat.le_add_left _ _
    rw [wideChars_pair hu hv]
    refine ⟨?_, ?_, ?_, ?_, ?_⟩
    · intro c hc
      rcases List.mem_cons.mp hc with rfl | hc
      · exact pairValue_lt hu hv
      · exact hlt c hc
    · have hu0 : (0 : WChar) ≠ u := by
        rintro rfl
        exact absurd hu'.1 (by decide)
      have hv0 : (0 : WChar) ≠ v := by
        rintro rfl
        exact absurd hv'.1 (by decide)
      rw [List.mem_cons, List.mem_cons, List.mem_cons, hzero]
      constructor
      · rintro (h | h)
        · omega
        · exact .inr (.inr h)
      · rintro (h | h | h)
        · exact absurd h hu0
        · exact absurd h hv0
        · exact .inr h
    · have hul : ¬ u < 128 := by
        simp only [UInt16.lt_iff_toNat_lt, UInt16.reduceToNat]
        omega
      have hvl : ¬ v < 128 := by
        simp only [UInt16.lt_iff_toNat_lt, UInt16.reduceToNat]
        omega
      rw [List.countP_cons, List.countP_cons, List.countP_cons, hcount, if_neg, if_neg, if_neg]
      · rwa [decide_eq_true_iff]
      · rwa [decide_eq_true_iff]
      · rw [decide_eq_true_iff]
        omega
    · rw [List.length_cons, List.length_cons, List.length_cons]
      omega
    · intro _
      rw [List.length_cons, List.length_cons, List.length_cons]
      omega

/-- Without surrogates the code points are the units. -/
theorem wideChars_eq_map {s : List WChar} (h : s.any isSurrogate = false) :
    wideChars s = s.map UInt16.toNat := by
  induction s with
  | nil => rfl
  | cons u s ih =>
    rw [List.any_cons, Bool.or_eq_false_iff, isSurrogate, Bool.or_eq_false_iff] at h
    rw [wideChars_single h.1.1, ih h.2, List.map_cons]

/-! ### The next code point -/

/-- `nextCodePoint` is the least code point from `n` on. -/
theorem nextCodePoint_spec {n : Nat} {chars : List Nat} (hlt : ∀ c ∈ chars, c < sizeTMax) :
    (nextCodePoint n chars = sizeTMax ∧ ∀ c ∈ chars, c < n) ∨
      (nextCodePoint n chars ∈ chars ∧ n ≤ nextCodePoint n chars ∧
        ∀ c ∈ chars, n ≤ c → nextCodePoint n chars ≤ c) := by
  have hfold : ∀ (l : List Nat) (m : Nat),
      let r := l.foldl (fun m chW => if chW ≥ n ∧ chW < m then chW else m) m
      r ≤ m ∧ (r = m ∨ (r ∈ l ∧ n ≤ r)) ∧ ∀ c ∈ l, n ≤ c → r ≤ c := by
    intro l
    induction l with
    | nil => exact fun m => ⟨Nat.le_refl _, .inl rfl, nofun⟩
    | cons c l ih =>
      intro m
      rw [List.foldl_cons]
      split
      case isTrue hc =>
        obtain ⟨hle, hmem, hmin⟩ := ih c
        refine ⟨by omega, .inr ?_, ?_⟩
        · rcases hmem with heq | ⟨hmem, hn⟩
          · rw [heq]
            exact ⟨List.mem_cons_self, hc.1⟩
          · exact ⟨List.mem_cons_of_mem _ hmem, hn⟩
        · intro d hd hnd
          rcases List.mem_cons.mp hd with rfl | hd
          · exact hle
          · exact hmin d hd hnd
      case isFalse hc =>
        obtain ⟨hle, hmem, hmin⟩ := ih m
        refine ⟨hle, ?_, ?_⟩
        · rcases hmem with heq | ⟨hmem, hn⟩
          · exact .inl heq
          · exact .inr ⟨List.mem_cons_of_mem _ hmem, hn⟩
        · intro d hd hnd
          rcases List.mem_cons.mp hd with rfl | hd
          · omega
          · exact hmin d hd hnd
  obtain ⟨-, hmem, hmin⟩ := hfold chars sizeTMax
  rw [nextCodePoint]
  rcases hmem with heq | hmem
  · refine .inl ⟨heq, fun c hc => ?_⟩
    by_contra hnc
    have hle := hmin c hc (by omega)
    have hc' := hlt c hc
    omega
  · exact .inr ⟨hmem.1, hmem.2, hmin⟩

/-! ### The loops of the encoder -/

/-- A byte that `encode_digit` can give. -/
def IsDigitByte (ch : Byte) : Prop := ∃ d < 36, ch = encodeDigit d

theorem threshold_bounds (bias k : Nat) : 1 ≤ threshold bias k ∧ threshold bias k ≤ 26 := by
  unfold threshold tMin tMax
  split
  · omega
  split
  · omega
  · omega

theorem encodeVarIntFrom_digits {bias fuel k q : Nat} (hfuel : q ≤ fuel) :
    ∀ ch ∈ encodeVarIntFrom bias fuel k q, IsDigitByte ch := by
  induction fuel generalizing k q with
  | zero =>
    intro ch hch
    exact ⟨q, by omega, List.mem_singleton.mp hch⟩
  | succ fuel ih =>
    obtain ⟨hlo, hhi⟩ := threshold_bounds bias k
    intro ch hch
    rw [encodeVarIntFrom] at hch
    simp only [base] at hch
    split at hch
    · exact ⟨q, by omega, List.mem_singleton.mp hch⟩
    · have hmod : (q - threshold bias k) % (36 - threshold bias k) < 36 - threshold bias k :=
        Nat.mod_lt _ (by omega)
      rcases List.mem_cons.mp hch with rfl | hch
      · exact ⟨_, by omega, rfl⟩
      · have hdiv : (q - threshold bias k) / (36 - threshold bias k) ≤ q - threshold bias k :=
          Nat.div_le_self _ _
        exact ih (by omega) ch hch

theorem encodeVarInt_ne_nil (bias delta : Nat) : encodeVarInt bias delta ≠ [] := by
  rw [encodeVarInt]
  cases delta with
  | zero => exact List.cons_ne_nil _ _
  | succ delta =>
    rw [encodeVarIntFrom]
    split
    · exact List.cons_ne_nil _ _
    · exact List.cons_ne_nil _ _

/-- **What one scan of the text does**: every `n` is written, and the counter is at most
the number of code points since the last one. -/
theorem encodeScan_spec {n b : Nat} {chars : List Nat} {st st' : EncodeState}
    (h : encodeScan n b chars st = .ok st') :
    st'.h = st.h + chars.count n ∧
      (∃ ext, st'.cStrDestA = st.cStrDestA ++ ext ∧ (∀ ch ∈ ext, IsDigitByte ch) ∧
        (n ∈ chars → ext ≠ [])) ∧
      (st'.delta ≤ chars.length ∨ (n ∉ chars ∧ st'.delta ≤ st.delta + chars.length)) := by
  induction chars generalizing st with
  | nil =>
    obtain rfl := Except.ok.inj h
    exact ⟨rfl, ⟨[], (List.append_nil _).symm, nofun, nofun⟩, .inr ⟨List.not_mem_nil, Nat.le_refl _⟩⟩
  | cons c rest ih =>
    rw [encodeScan] at h
    split at h
    case isTrue hlt =>
      split at h
      case isTrue => cases h
      case isFalse =>
        obtain ⟨hh, ⟨ext, hdest, hdigits, hne⟩, hdelta⟩ := ih h
        have hcn : c ≠ n := by omega
        refine ⟨?_, ⟨ext, hdest, hdigits, ?_⟩, ?_⟩
        · rw [hh, List.count_cons_of_ne hcn]
        · intro hmem
          exact hne ((List.mem_cons.mp hmem).resolve_left (Ne.symm hcn))
        · rw [List.length_cons, List.mem_cons, not_or]
          rcases hdelta with hdelta | ⟨hmem, hdelta⟩
          · exact .inl (by omega)
          · exact .inr ⟨⟨Ne.symm hcn, hmem⟩, by simp only at hdelta; omega⟩
    case isFalse hge =>
      split at h
      case isTrue heq =>
        obtain ⟨hh, ⟨ext, hdest, hdigits, -⟩, hdelta⟩ := ih h
        subst heq
        refine ⟨?_, ⟨encodeVarInt st.bias st.delta ++ ext, ?_, ?_, ?_⟩, ?_⟩
        · rw [hh, List.count_cons_self]
          simp only
          omega
        · rw [hdest, List.append_assoc]
        · intro ch hch
          rcases List.mem_append.mp hch with hch | hch
          · exact encodeVarIntFrom_digits (Nat.le_refl _) ch hch
          · exact hdigits ch hch
        · intro _
          exact List.append_ne_nil_of_left_ne_nil (encodeVarInt_ne_nil _ _) _
        · rw [List.length_cons]
          rcases hdelta with hdelta | ⟨-, hdelta⟩
          · exact .inl (by omega)
          · exact .inl (by simp only at hdelta; omega)
      case isFalse hne' =>
        obtain ⟨hh, ⟨ext, hdest, hdigits, hne⟩, hdelta⟩ := ih h
        refine ⟨?_, ⟨ext, hdest, hdigits, ?_⟩, ?_⟩
        · rw [hh, List.count_cons_of_ne hne']
        · intro hmem
          exact hne ((List.mem_cons.mp hmem).resolve_left (Ne.symm hne'))
        · rw [List.length_cons, List.mem_cons, not_or]
          rcases hdelta with hdelta | ⟨hmem, hdelta⟩
          · exact .inl (by omega)
          · exact .inr ⟨⟨Ne.symm hne', hmem⟩, by omega⟩

/-- The counter does not overflow in a scan that it has room for. -/
theorem encodeScan_ok {n b : Nat} {chars : List Nat} {st : EncodeState}
    (h : st.delta + chars.length < 2 ^ 64) : ∃ st', encodeScan n b chars st = .ok st' := by
  induction chars generalizing st with
  | nil => exact ⟨st, rfl⟩
  | cons c rest ih =>
    rw [List.length_cons] at h
    rw [encodeScan]
    split
    · rw [if_neg (by omega)]
      exact ih (by simp only; omega)
    split
    · exact ih (by simp only; omega)
    · exact ih (by omega)

/-- How many code points were written when `n` is the next one to look for. -/
def written (chars : List Nat) (n : Nat) : Nat := chars.countP (· < n)

theorem written_succ (chars : List Nat) (n : Nat) :
    written chars (n + 1) = written chars n + chars.count n := by
  unfold written
  induction chars with
  | nil => rfl
  | cons c rest ih =>
    rw [List.countP_cons, List.countP_cons, List.count_cons, ih]
    rcases Nat.lt_trichotomy c n with hlt | heq | hgt
    · rw [if_pos (by simpa using Nat.lt_succ_of_lt hlt), if_pos (by simpa using hlt),
        if_neg (by simpa using Nat.ne_of_lt hlt)]
      omega
    · rw [if_pos (by simpa using Nat.lt_succ_of_le (Nat.le_of_eq heq)),
        if_neg (by simpa using Nat.le_of_eq heq.symm), if_pos (by simpa using heq)]
      omega
    · rw [if_neg (by simpa using Nat.succ_le_of_lt hgt), if_neg (by simpa using Nat.le_of_lt hgt),
        if_neg (by simpa using Nat.ne_of_gt hgt)]
      omega

theorem written_eq_of_forall {chars : List Nat} {n m : Nat} (hnm : n ≤ m)
    (h : ∀ c ∈ chars, n ≤ c → m ≤ c) : written chars m = written chars n := by
  refine List.countP_congr fun c hc => ?_
  have hc' := h c hc
  rw [decide_eq_true_iff, decide_eq_true_iff]
  omega

/-- A scan writes all there is of the next code point. -/
theorem written_scan {chars : List Nat} {n : Nat} {st st' : EncodeState} {b : Nat}
    (hh : st.h = written chars n) (hmem : nextCodePoint n chars ∈ chars)
    (hn : n ≤ nextCodePoint n chars) (hmin : ∀ c ∈ chars, n ≤ c → nextCodePoint n chars ≤ c)
    {delta : Nat} (h : encodeScan (nextCodePoint n chars) b chars { st with delta } = .ok st') :
    st'.h = written chars (nextCodePoint n chars + 1) ∧ st.h < st'.h := by
  obtain ⟨hh', -, -⟩ := encodeScan_spec h
  have hpos := List.count_pos_iff.mpr hmem
  have heq := written_eq_of_forall hn hmin
  rw [written_succ, heq]
  simp only at hh'
  omega

/-- **What the encoder does when it does not fail**: it has written as many code points
as the text has units, and added their positions to the text. -/
theorem encodeFrom_spec {chars : List Nat} (hne : chars ≠ []) (hlt : ∀ c ∈ chars, c < 0x110000)
    {nSrcLen b fuel n : Nat} {st st' : EncodeState} (hn : n ≤ 0x110000)
    (hh : st.h = written chars n) (hfuel : nSrcLen ≤ st.h + fuel)
    (h : encodeFrom chars nSrcLen b fuel n st = .ok st') :
    nSrcLen ≤ st'.h ∧ st'.h ≤ chars.length ∧
      ∃ ext, st'.cStrDestA = st.cStrDestA ++ ext ∧ (∀ ch ∈ ext, IsDigitByte ch) ∧
        (st.h < nSrcLen → ext ≠ []) := by
  have hle : written chars n ≤ chars.length := List.countP_le_length
  induction fuel generalizing n st with
  | zero =>
    obtain rfl := Except.ok.inj h
    exact ⟨hfuel, by omega, [], (List.append_nil _).symm, nofun, fun hlt => by omega⟩
  | succ fuel ih =>
    rw [encodeFrom] at h
    split at h
    case isFalse hge =>
      obtain rfl := Except.ok.inj h
      exact ⟨by omega, by omega, [], (List.append_nil _).symm, nofun, fun hlt => by omega⟩
    case isTrue hlt' =>
      simp only at h
      split at h
      case isTrue => cases h
      case isFalse hcheck =>
        obtain ⟨st₁, hscan, hrest⟩ := exists_of_bind_ok h
        have hsize : ∀ c ∈ chars, c < sizeTMax := by
          intro c hc
          have hc' := hlt c hc
          unfold sizeTMax
          omega
        rcases nextCodePoint_spec (n := n) hsize with ⟨hmax, hall⟩ | ⟨hmem, hnm, hmin⟩
        · -- no code point is left, and the check fails
          exfalso
          have hlen : st.h = chars.length := by
            rw [hh]
            exact List.countP_eq_length.mpr fun c hc => decide_eq_true (hall c hc)
          have hpos := List.length_pos_iff.mpr hne
          have hdiv : (sizeTMax - st.delta) / (st.h + 1) ≤ sizeTMax / 2 :=
            Nat.le_trans (Nat.div_le_div_right (Nat.sub_le _ _))
              (Nat.div_le_div_left (by omega) (by omega))
          rw [hmax] at hcheck
          unfold sizeTMax at hcheck hdiv
          omega
        · have hm := hlt _ hmem
          obtain ⟨hh₁, hgrow⟩ := written_scan hh hmem hnm hmin hscan
          obtain ⟨-, ⟨ext₁, hdest₁, hdigits₁, hne₁⟩, -⟩ := encodeScan_spec hscan
          rw [Nat.mod_eq_of_lt (by omega : nextCodePoint n chars + 1 < 2 ^ 64)] at hrest
          obtain ⟨hlow, hhigh, ext, hdest, hdigits, -⟩ :=
            @ih (nextCodePoint n chars + 1) { st₁ with delta := (st₁.delta + 1) % 2 ^ 64 }
              (by omega) hh₁ (by simp only; omega) hrest List.countP_le_length
          refine ⟨hlow, hhigh, ext₁ ++ ext, ?_, ?_, ?_⟩
          · rw [hdest]
            simp only
            rw [hdest₁, List.append_assoc]
          · intro ch hch
            rcases List.mem_append.mp hch with hch | hch
            · exact hdigits₁ ch hch
            · exact hdigits ch hch
          · intro _
            exact List.append_ne_nil_of_left_ne_nil (hne₁ hmem) _

/-- **The encoder does not fail** on a text without surrogates that is short enough. -/
theorem encodeFrom_ok {chars : List Nat} (hlt : ∀ c ∈ chars, c < 0x10000)
    (hshort : 0x110000 * (chars.length + 1) < 2 ^ 64) {b fuel n : Nat} {st : EncodeState}
    (hn : n ≤ 0x10000) (hh : st.h = written chars n) (hdelta : st.delta ≤ chars.length + 1) :
    ∃ st', encodeFrom chars chars.length b fuel n st = .ok st' := by
  induction fuel generalizing n st with
  | zero => exact ⟨st, rfl⟩
  | succ fuel ih =>
    rw [encodeFrom]
    split
    case isFalse => exact ⟨st, rfl⟩
    case isTrue hlt' =>
      have hsize : ∀ c ∈ chars, c < sizeTMax := by
        intro c hc
        have hc' := hlt c hc
        unfold sizeTMax
        omega
      rcases nextCodePoint_spec (n := n) hsize with ⟨-, hall⟩ | ⟨hmem, hnm, hmin⟩
      · have hlen : st.h = chars.length := by
          rw [hh]
          exact List.countP_eq_length.mpr fun c hc => decide_eq_true (hall c hc)
        omega
      · have hm := hlt _ hmem
        have hmul : (nextCodePoint n chars - n) * (st.h + 1) ≤ 0x10000 * chars.length :=
          Nat.mul_le_mul (by omega) (by omega)
        have hcheck : ¬ nextCodePoint n chars - n > (sizeTMax - st.delta) / (st.h + 1) := by
          rw [gt_iff_lt, Nat.not_lt, Nat.le_div_iff_mul_le (by omega)]
          unfold sizeTMax
          omega
        simp only
        rw [if_neg hcheck]
        obtain ⟨st₁, hscan⟩ := @encodeScan_ok (nextCodePoint n chars) b chars
          { st with delta := st.delta + (nextCodePoint n chars - n) * (st.h + 1) }
          (by simp only; omega)
        obtain ⟨hh₁, -⟩ := written_scan hh hmem hnm hmin hscan
        obtain ⟨-, -, hdelta₁⟩ := encodeScan_spec hscan
        have hdelta₁' : st₁.delta ≤ chars.length :=
          hdelta₁.resolve_right fun hnot => hnot.1 hmem
        rw [hscan]
        have hstep := @ih (nextCodePoint n chars + 1)
          { st₁ with delta := (st₁.delta + 1) % 2 ^ 64 } (by omega) hh₁ (by simp only; omega)
        rwa [← Nat.mod_eq_of_lt (by omega : nextCodePoint n chars + 1 < 2 ^ 64)] at hstep

/-! ### What the encoder gives -/

theorem length_basicChars (chars : List Nat) : (basicChars chars).length = written chars 128 := by
  rw [basicChars, List.length_map, ← List.countP_eq_length_filter]
  rfl

/-- Text with a code point that is not ASCII. -/
def HasNonAscii (s : List WChar) : Prop := ∃ u ∈ s, 0x80 ≤ u

theorem written_lt {s : List WChar} (hwf : isWellFormed s = true) (hnon : HasNonAscii s) :
    written (wideChars s) 128 < s.length := by
  obtain ⟨-, -, hcount, -⟩ := wideChars_spec hwf
  obtain ⟨u, hu, hge⟩ := hnon
  rw [written, hcount]
  refine Nat.lt_of_le_of_ne List.countP_le_length fun heq => ?_
  have hlt := of_decide_eq_true (List.countP_eq_length.mp heq u hu)
  exact absurd hge (UInt16.not_le.mpr hlt)

theorem contains_zero {s : List WChar} (hwf : isWellFormed s = true) :
    (wideChars s).contains 0 = true ↔ 0 ∈ s := by
  rw [List.contains_iff_mem]
  exact (wideChars_spec hwf).2.1

/-- **What the encoder gives**: only a text without surrogates is encoded, as its ASCII
characters, a hyphen and digits. -/
theorem encode_spec {s : List WChar} (hwf : isWellFormed s = true) (hzero : 0 ∉ s)
    (hnon : HasNonAscii s) {cStrDestA : List Byte} (h : encode s = .ok cStrDestA) :
    s.any isSurrogate = false ∧ ∃ ext, cStrDestA = basicChars (wideChars s) ++ 0x2D :: ext ∧
      ∀ ch ∈ ext, IsDigitByte ch := by
  obtain ⟨hlt, -, -, -, hsurr⟩ := wideChars_spec hwf
  have hwritten := written_lt hwf hnon
  have hne : wideChars s ≠ [] := by
    intro hnil
    obtain ⟨u, hu, -⟩ := hnon
    cases s with
    | nil => cases hu
    | cons u s =>
      have hlen := congrArg List.length hnil
      cases s with
      | nil =>
        rw [wideChars.eq_def] at hlen
        cases hlen
      | cons v s =>
        rw [wideChars] at hlen
        cases hlen
  simp only [encode] at h
  rw [if_neg ((contains_zero hwf).not.mpr hzero)] at h
  obtain ⟨st, hfrom, hout⟩ := exists_of_bind_ok h
  obtain ⟨hlow, hhigh, ext, hdest, hdigits, hext⟩ :=
    encodeFrom_spec hne hlt (by decide) (length_basicChars _) (by simp only; omega) hfrom
  simp only at hdest hext
  rw [length_basicChars] at hext
  refine ⟨?_, ext, ?_, hdigits⟩
  · rw [← Bool.not_eq_true]
    intro hany
    have hlen := hsurr hany
    omega
  · have hpos := List.length_pos_iff.mpr (hext hwritten)
    have hguard : st.cStrDestA.length > (basicChars (wideChars s)).length := by
      rw [hdest, List.length_append]
      omega
    rw [if_pos hguard, Except.ok.injEq] at hout
    rw [← hout, hdest, insertStr, List.take_left, List.drop_left, List.append_assoc]
    rfl

/-- Text that is short enough for the counters: a position in it times a code point is
below `2 ^ 64`. -/
def IsShort (s : List WChar) : Prop := 0x110000 * (s.length + 1) < 2 ^ 64

/-- **The encoder does not fail** on a short text without surrogates. -/
theorem encode_ok {s : List WChar} (hsurr : s.any isSurrogate = false) (hshort : IsShort s) :
    ∃ cStrDestA, encode s = .ok cStrDestA := by
  have hchars := wideChars_eq_map hsurr
  have hlen : (wideChars s).length = s.length := by
    rw [hchars, List.length_map]
  have hlt : ∀ c ∈ wideChars s, c < 0x10000 := by
    intro c hc
    rw [hchars] at hc
    obtain ⟨u, -, rfl⟩ := List.mem_map.mp hc
    exact u.toNat_lt
  simp only [encode]
  split
  · exact ⟨_, rfl⟩
  · rw [IsShort, ← hlen] at hshort
    obtain ⟨st, hst⟩ := @encodeFrom_ok (wideChars s) hlt hshort (basicChars (wideChars s)).length
      (s.length + 1) initialN
      { h := (basicChars (wideChars s)).length, delta := 0, bias := initialBias,
        cStrDestA := basicChars (wideChars s) }
      (by decide) (length_basicChars _) (Nat.zero_le _)
    rw [hlen] at hst
    rw [hst]
    exact ⟨_, rfl⟩

/-! ### What the decoder gives -/

theorem strNRChrA_append {basic ext : List Byte} (h : ∀ ch ∈ ext, ch ≠ 0 ∧ ch ≠ 0x2D) :
    strNRChrA (basic ++ 0x2D :: ext) 0x2D = some (basic, ext) := by
  have hall : ∀ ch ∈ ext.reverse, (ch != 0 && ch != 0x2D) = true := by
    intro ch hch
    rw [Bool.and_eq_true, bne_iff_ne, bne_iff_ne]
    exact h ch (List.mem_reverse.mp hch)
  have htake : (0x2D :: basic.reverse).takeWhile (fun ch => ch != 0 && ch != 0x2D) = [] := by simp
  have hdrop : (0x2D :: basic.reverse).dropWhile (fun ch => ch != 0 && ch != 0x2D) =
      0x2D :: basic.reverse := by simp
  rw [strNRChrA, List.reverse_append, List.reverse_cons, List.append_assoc, List.singleton_append,
    List.span_eq_takeWhile_dropWhile, List.takeWhile_append_of_pos hall,
    List.dropWhile_append_of_pos hall, htake, hdrop, List.append_nil]
  simp only
  rw [if_pos (beq_self_eq_true _), List.reverse_reverse, List.reverse_reverse]

theorem encodeDigit_bounds {d : Nat} (hd : d < 36) :
    (0x30 ≤ (encodeDigit d).toNat ∧ (encodeDigit d).toNat ≤ 0x7A) := by
  have hall : ∀ d < 36, 0x30 ≤ (encodeDigit d).toNat ∧ (encodeDigit d).toNat ≤ 0x7A := by decide
  exact hall d hd

theorem IsDigitByte.ne {ch : Byte} (h : IsDigitByte ch) : ch ≠ 0 ∧ ch ≠ 0x2D := by
  obtain ⟨d, hd, rfl⟩ := h
  have hbounds := encodeDigit_bounds hd
  constructor
  · intro heq
    rw [heq] at hbounds
    exact absurd hbounds (by decide)
  · intro heq
    rw [heq] at hbounds
    exact absurd hbounds (by decide)

/-- A number takes at least one byte. -/
theorem decodeVarInt_length {bias k w i i' : Nat} {szSrcA rest : List Byte}
    (h : decodeVarInt bias szSrcA k w i = .ok (i', rest)) : rest.length < szSrcA.length := by
  induction szSrcA generalizing k w i with
  | nil => cases h
  | cons v szSrcA ih =>
    rw [decodeVarInt] at h
    split at h
    · cases h
    split at h
    · cases h
    simp only at h
    split at h
    · rw [Except.ok.injEq, Prod.mk.injEq] at h
      rw [← h.2]
      exact Nat.lt_succ_self _
    split at h
    · cases h
    · exact Nat.lt_succ_of_lt (ih h)

/-- There is one code point for each number. -/
theorem decodeFrom_length {fuel n i bias : Nat} {szSrcA : List Byte} {aCodepoints r : List Nat}
    (h : decodeFrom fuel szSrcA n i bias aCodepoints = .ok r) :
    r.length ≤ aCodepoints.length + szSrcA.length := by
  induction fuel generalizing szSrcA n i bias aCodepoints with
  | zero =>
    obtain rfl := Except.ok.inj h
    exact Nat.le_add_right _ _
  | succ fuel ih =>
    cases szSrcA with
    | nil =>
      obtain rfl := Except.ok.inj h
      exact Nat.le_refl _
    | cons v szSrcA =>
      rw [decodeFrom] at h
      obtain ⟨⟨i', rest⟩, hint, h⟩ := exists_of_bind_ok h
      have hlen := decodeVarInt_length hint
      simp only at h
      split at h
      · cases h
      · have hle := ih h
        rw [List.length_insertIdx_of_le_length] at hle
        · omega
        · exact Nat.le_of_lt_succ (Nat.mod_lt _ (Nat.succ_pos _))

/-- **Half of the code points are skipped**: a text without surrogates is about half as
long as the list it comes from. -/
theorem length_decodeUnits {aCodepoints : List Nat}
    (h : (decodeUnits aCodepoints).any isSurrogate = false) :
    2 * (decodeUnits aCodepoints).length ≤ aCodepoints.length + 1 := by
  have hlow : ∀ x, isSurrogate (.ofNat (x % 1024 + 0xDC00)) = true := by
    intro x
    have hlow' : isLowSurrogate (.ofNat (x % 1024 + 0xDC00)) = true := by
      rw [isLowSurrogate_iff, UInt16.toNat_ofNat']
      omega
    rw [isSurrogate, hlow', Bool.or_true]
  induction aCodepoints using decodeUnits.induct with
  | case1 => exact Nat.zero_le _
  | case2 n hn =>
    rw [decodeUnits, if_pos hn]
    exact Nat.le_refl _
  | case3 n hn =>
    rw [decodeUnits, if_neg hn, List.any_cons, List.any_cons, hlow, Bool.true_or, Bool.or_true] at h
    cases h
  | case4 n n' rest hn ih =>
    rw [decodeUnits, if_pos hn, List.any_cons, Bool.or_eq_false_iff] at h
    have hlen := ih h.2
    rw [decodeUnits, if_pos hn, List.length_cons, List.length_cons, List.length_cons]
    omega
  | case5 n n' rest hn =>
    rw [decodeUnits, if_neg hn, List.any_cons, List.any_cons, hlow, Bool.true_or, Bool.or_true] at h
    cases h

/-- **A text that comes back has an encoding at least twice as long.** -/
theorem le_of_decode_encode {s : List WChar} (hwf : isWellFormed s = true) (hzero : 0 ∉ s)
    (hnon : HasNonAscii s) {cStrDestA : List Byte} (henc : encode s = .ok cStrDestA)
    (hdec : decode cStrDestA = .ok s) : 2 * s.length ≤ cStrDestA.length := by
  obtain ⟨hsurr, ext, rfl, hdigits⟩ := encode_spec hwf hzero hnon henc
  rw [decode] at hdec
  split at hdec
  · cases hdec
  · rw [strNRChrA_append fun ch hch => (hdigits ch hch).ne] at hdec
    obtain ⟨r, hfrom, hunits⟩ := exists_of_bind_ok hdec
    obtain rfl := Except.ok.inj hunits
    have hlen := decodeFrom_length hfrom
    have hhalf := length_decodeUnits hsurr
    rw [List.length_map] at hlen
    rw [List.length_append, List.length_cons]
    omega

/-! ### Text with a zero -/

/-- A low surrogate has a high one before it. -/
def Paired (u v : WChar) : Prop := isLowSurrogate v = true → isHighSurrogate u = true

theorem isChain_paired {s : List WChar} (hwf : isWellFormed s = true) :
    (∀ u ∈ s.head?, isLowSurrogate u = false) ∧ s.IsChain Paired := by
  refine isWellFormed_induct ?nil ?single ?pair hwf
  case nil => exact ⟨nofun, .nil⟩
  case single =>
    intro u s hu hu' _ ih
    refine ⟨fun v hv => ?_, ?_⟩
    · rwa [← Option.some.inj hv]
    · rw [List.isChain_cons]
      refine ⟨fun v hv hlow => ?_, ih.2⟩
      rw [ih.1 v hv] at hlow
      cases hlow
  case pair =>
    intro u v s hu hv _ ih
    have hhead : isLowSurrogate u = false := by
      have hu' := (isHighSurrogate_iff u).mp hu
      rw [← Bool.not_eq_true, isLowSurrogate_iff]
      omega
    refine ⟨fun w hw => ?_, ?_⟩
    · rwa [← Option.some.inj hw]
    · rw [List.isChain_cons_cons, List.isChain_cons]
      refine ⟨fun _ => hu, fun w hw hlow => ?_, ih.2⟩
      rw [ih.1 w hw] at hlow
      cases hlow

/-- Every ASCII unit of a well-formed text comes from a code point of its own. -/
theorem countP_decodeUnits {aCodepoints : List Nat}
    (h : (decodeUnits aCodepoints).IsChain Paired) :
    (decodeUnits aCodepoints).countP (· < 128) ≤ aCodepoints.length := by
  have hsurr : ∀ {u : WChar}, 0xD800 ≤ u.toNat → ∀ l : List WChar,
      (u :: l).countP (· < 128) = l.countP (· < 128) := by
    intro u hu l
    refine List.countP_cons_of_neg ?_
    rw [decide_eq_true_iff, UInt16.lt_iff_toNat_lt]
    simp only [UInt16.reduceToNat]
    omega
  -- the two units of a code point above U+FFFF
  have hpair : ∀ x (l : List WChar),
      (UInt16.ofNat (x / 1024 + 0xD800) :: .ofNat (x % 1024 + 0xDC00) :: l).IsChain Paired →
      (UInt16.ofNat (x / 1024 + 0xD800) :: .ofNat (x % 1024 + 0xDC00) :: l).countP (· < 128) =
        l.countP (· < 128) := by
    intro x l hchain
    have hvalue : (UInt16.ofNat (x % 1024 + 0xDC00)).toNat = x % 1024 + 0xDC00 := by
      rw [UInt16.toNat_ofNat']
      omega
    rw [List.isChain_cons_cons] at hchain
    have hhigh := (isHighSurrogate_iff _).mp (hchain.1 ((isLowSurrogate_iff _).mpr (by omega)))
    rw [hsurr hhigh.1, hsurr (by omega)]
  induction aCodepoints using decodeUnits.induct with
  | case1 => exact Nat.le_refl _
  | case2 n hn => exact List.countP_le_length.trans (Nat.le_of_eq (by rw [decodeUnits, if_pos hn]; rfl))
  | case3 n hn =>
    rw [decodeUnits, if_neg hn] at h ⊢
    rw [hpair _ _ h]
    exact Nat.zero_le _
  | case4 n n' rest hn ih =>
    rw [decodeUnits, if_pos hn] at h ⊢
    rw [List.isChain_cons] at h
    have hle := ih h.2
    rw [List.countP_cons, List.length_cons, List.length_cons]
    split
    · omega
    · omega
  | case5 n n' rest hn ih =>
    rw [decodeUnits, if_neg hn] at h ⊢
    rw [hpair _ _ h]
    rw [List.isChain_cons_cons, List.isChain_cons] at h
    exact Nat.le_succ_of_le (ih h.2.2)

theorem length_strNRChrA {szSrcA basic ext : List Byte} {chA : Byte}
    (h : strNRChrA szSrcA chA = some (basic, ext)) : basic.length + ext.length + 1 = szSrcA.length := by
  rw [strNRChrA, List.span_eq_takeWhile_dropWhile] at h
  have hlen := congrArg List.length
    (List.takeWhile_append_dropWhile (p := fun ch => ch != 0 && ch != chA) (l := szSrcA.reverse))
  cases hdrop : szSrcA.reverse.dropWhile fun ch => ch != 0 && ch != chA with
  | nil =>
    rw [hdrop] at h
    cases h
  | cons ch before =>
    rw [hdrop] at h
    rw [hdrop, List.length_append, List.length_cons, List.length_reverse] at hlen
    simp only at h
    split at h
    · rw [Option.some.injEq, Prod.mk.injEq] at h
      rw [← h.1, ← h.2, List.length_reverse, List.length_reverse]
      omega
    · cases h

/-- A well-formed text has no more ASCII units than its encoding has bytes. -/
theorem countP_decode {szSrcA : List Byte} {s : List WChar} (hwf : isWellFormed s = true)
    (h : decode szSrcA = .ok s) : s.countP (· < 128) ≤ szSrcA.length := by
  rw [decode] at h
  split at h
  · cases h
  split at h
  · obtain rfl := Except.ok.inj h
    exact List.countP_le_length.trans (Nat.le_of_eq (List.length_map _))
  · next basic ext hsplit =>
    obtain ⟨r, hfrom, hunits⟩ := exists_of_bind_ok h
    obtain rfl := Except.ok.inj hunits
    have hlen := decodeFrom_length hfrom
    have hcount := countP_decodeUnits (isChain_paired hwf).2
    have hsum := length_strNRChrA hsplit
    rw [List.length_map] at hlen
    omega

/-- **Text with a zero**: the encoder stops at the zero and does not fail, and what it
gives is too short. -/
theorem encode_of_zero {s : List WChar} (hwf : isWellFormed s = true) (hzero : 0 ∈ s) :
    ∃ cStrDestA, encode s = .ok cStrDestA ∧ decode cStrDestA ≠ .ok s := by
  have hcontains := (contains_zero hwf).mpr hzero
  refine ⟨basicChars ((wideChars s).takeWhile (· != 0)), ?_, fun hdec => ?_⟩
  · simp only [encode]
    rw [if_pos hcontains]
  · have hle := countP_decode hwf hdec
    obtain ⟨-, -, hcount, -⟩ := wideChars_spec hwf
    rw [List.contains_iff_mem] at hcontains
    obtain ⟨pre, post, hsplit, hpre⟩ := List.eq_append_cons_of_mem hcontains
    have hall : ∀ c ∈ pre, (c != 0) = true := by
      intro c hc
      rw [bne_iff_ne]
      rintro rfl
      exact hpre hc
    have hstop : (0 :: post).takeWhile (fun c : Nat => c != 0) = [] := by simp
    rw [hsplit, List.countP_append, List.countP_cons_of_pos (by decide)] at hcount
    rw [length_basicChars, hsplit, List.takeWhile_append_of_pos hall, hstop, List.append_nil,
      written] at hle
    omega

/-! ### A single unit -/

/-- What `decode_digit` makes of a digit: those from 26 on are read as four less. -/
def readDigit (d : Nat) : Nat := if d > 25 then d - 4 else d

theorem decodeDigit_encodeDigit {d : Nat} (hd : d < 36) :
    decodeDigit (encodeDigit d) = some (readDigit d) := by
  have hall : ∀ d < 36, decodeDigit (encodeDigit d) = some (readDigit d) := by decide
  exact hall d hd

theorem readDigit_le (d : Nat) : readDigit d ≤ d := by
  unfold readDigit
  split
  · omega
  · omega

theorem readDigit_pos {d : Nat} (hd : 1 ≤ d) : 1 ≤ readDigit d := by
  unfold readDigit
  split
  · omega
  · omega

theorem readDigit_eq_iff (d : Nat) : readDigit d = d ↔ d ≤ 25 := by
  unfold readDigit
  split
  · omega
  · omega

theorem encodeVarIntFrom_last {bias k q : Nat} (h : q < threshold bias k) (fuel : Nat) :
    encodeVarIntFrom bias fuel k q = [encodeDigit q] := by
  cases fuel with
  | zero => rfl
  | succ fuel => rw [encodeVarIntFrom, if_pos h]

theorem encodeVarIntFrom_next {bias k q t : Nat} (ht : threshold bias k = t) (h : t ≤ q)
    {fuel : Nat} (hfuel : q ≤ fuel) :
    encodeVarIntFrom bias fuel k q = encodeDigit (t + (q - t) % (36 - t)) ::
      encodeVarIntFrom bias (fuel - 1) (k + 36) ((q - t) / (36 - t)) := by
  subst ht
  have hpos := threshold_bounds bias k
  cases fuel with
  | zero => omega
  | succ fuel =>
    rw [encodeVarIntFrom]
    exact if_neg (Nat.not_lt.mpr h)

/-- The last digit of a number. -/
theorem decodeVarInt_last {bias k w i d : Nat} (hd : d < 36) (hw : 0 < w)
    (hroom : i + readDigit d * w ≤ sizeTMax) (h : readDigit d < threshold bias k) (l : List Byte) :
    decodeVarInt bias (encodeDigit d :: l) k w i = .ok (i + readDigit d * w, l) := by
  have hcheck : ¬ readDigit d > (sizeTMax - i) / w := by
    rw [gt_iff_lt, Nat.not_lt, Nat.le_div_iff_mul_le hw]
    omega
  rw [decodeVarInt, decodeDigit_encodeDigit hd]
  simp only
  rw [if_neg hcheck, if_pos h]

/-- A digit that is not the last one. -/
theorem decodeVarInt_next {bias k w i d t : Nat} (ht : threshold bias k = t) (hd : d < 36)
    (hw : 0 < w) (hroom : i + readDigit d * w ≤ sizeTMax) (h : t ≤ readDigit d)
    (hw' : w ≤ sizeTMax / (36 - t)) (l : List Byte) :
    decodeVarInt bias (encodeDigit d :: l) k w i =
      decodeVarInt bias l (k + 36) (w * (36 - t)) (i + readDigit d * w) := by
  subst ht
  have hcheck : ¬ readDigit d > (sizeTMax - i) / w := by
    rw [gt_iff_lt, Nat.not_lt, Nat.le_div_iff_mul_le hw]
    omega
  rw [decodeVarInt, decodeDigit_encodeDigit hd]
  simp only
  rw [if_neg hcheck, if_neg (Nat.not_lt.mpr h)]
  exact if_neg (Nat.not_lt.mpr hw')

theorem encode_single {u : WChar} (hge : 0x80 ≤ u.toNat) (hu : isSurrogate u = false) :
    encode [u] = .ok (0x2D :: encodeVarInt 72 (u.toNat - 128)) := by
  have hlt := u.toNat_lt
  rw [isSurrogate, Bool.or_eq_false_iff] at hu
  have hchars : wideChars [u] = [u.toNat] := wideChars_single hu.1 []
  have hzero : ¬ [u.toNat].contains 0 = true := by
    rw [List.contains_iff_mem, List.mem_singleton]
    omega
  have hbasic : basicChars [u.toNat] = [] := by
    rw [basicChars, List.filter_cons_of_neg]
    · rfl
    · rw [decide_eq_true_iff]
      omega
  have hnext : nextCodePoint initialN [u.toNat] = u.toNat := by
    rw [nextCodePoint, List.foldl_cons, List.foldl_nil, if_pos]
    unfold initialN sizeTMax
    omega
  have hcheck : ¬ u.toNat - initialN > (sizeTMax - 0) / (0 + 1) := by
    unfold sizeTMax
    omega
  simp only [encode, hchars]
  rw [if_neg hzero, hbasic]
  simp only [List.length_nil, List.length_singleton]
  rw [encodeFrom, if_pos Nat.zero_lt_one]
  simp only
  rw [hnext, if_neg hcheck, encodeScan, if_neg (Nat.lt_irrefl _), if_pos rfl, encodeScan]
  have hdelta : 0 + (u.toNat - initialN) * (0 + 1) = u.toNat - 128 := by
    rw [Nat.zero_add, Nat.mul_one]
    rfl
  have hpos : (encodeVarInt initialBias (u.toNat - 128)).length > 0 :=
    List.length_pos_iff.mpr (encodeVarInt_ne_nil _ _)
  simp only [hdelta, List.nil_append, bind, Except.bind, encodeFrom]
  rw [if_neg (Nat.lt_irrefl _)]
  have hhyphen : ascii "-" = [0x2D] := rfl
  have hbias : initialBias = 72 := rfl
  simp only
  rw [if_pos hpos, insertStr, List.take_zero, List.drop_zero, hhyphen, List.nil_append,
    List.singleton_append, hbias]

/-- A number with bias 72 is given back if its digits are letters, that is below 26; the
first two count from one. -/
def IsLetters (q : Nat) : Prop :=
  q = 0 ∨ (q - 1) % 35 < 25 ∧
    (q ≤ 35 ∨ ((q - 1) / 35 - 1) % 35 < 25 ∧ ((q - 1) / 35 - 1) / 35 < 26)

instance (q : Nat) : Decidable (IsLetters q) :=
  inferInstanceAs (Decidable (_ ∨ _ ∧ (_ ∨ _ ∧ _)))

/-- The first digits of a number with bias 72 count from one. -/
theorem exists_digit {k q : Nat} (hk : threshold 72 k = 1) (hq : 0 < q) :
    ∃ g q', 1 ≤ g ∧ g ≤ 35 ∧ q = g + 35 * q' ∧ ∀ fuel, q ≤ fuel →
      encodeVarIntFrom 72 fuel k q = encodeDigit g :: encodeVarIntFrom 72 (fuel - 1) (k + 36) q' := by
  refine ⟨1 + (q - 1) % 35, (q - 1) / 35, ?_, ?_, ?_, ?_⟩
  · omega
  · omega
  · omega
  · intro fuel hfuel
    exact encodeVarIntFrom_next hk hq hfuel

theorem isLetters_digit {g q : Nat} (hg : 1 ≤ g) (hg' : g ≤ 35) :
    IsLetters (g + 35 * q) ↔ g ≤ 25 ∧ (q = 0 ∨ (q - 1) % 35 < 25 ∧ (q - 1) / 35 < 26) := by
  have hmod : (g + 35 * q - 1) % 35 = g - 1 := by omega
  have hdiv : (g + 35 * q - 1) / 35 = q := by omega
  rw [IsLetters, hmod, hdiv]
  constructor
  · rintro (h | ⟨h, h' | h'⟩)
    · omega
    · exact ⟨by omega, .inl (by omega)⟩
    · exact ⟨by omega, .inr h'⟩
  · rintro ⟨h, rfl | h'⟩
    · exact .inr ⟨by omega, .inl (by omega)⟩
    · exact .inr ⟨by omega, .inr h'⟩

theorem isLetters_two_digits {g g' q : Nat} (hg : 1 ≤ g) (hg' : g ≤ 35) (hg₁ : 1 ≤ g')
    (hg₁' : g' ≤ 35) :
    IsLetters (g + 35 * (g' + 35 * q)) ↔ g ≤ 25 ∧ g' ≤ 25 ∧ q < 26 := by
  have hmod : (g' + 35 * q - 1) % 35 = g' - 1 := by omega
  have hdiv : (g' + 35 * q - 1) / 35 = q := by omega
  rw [isLetters_digit hg hg', hmod, hdiv]
  omega

theorem decode_hyphen {ext : List Byte} (h : ∀ ch ∈ ext, IsDigitByte ch) :
    decode (0x2D :: ext) =
      (decodeFrom ext.length ext 128 0 72 []).map decodeUnits := by
  have hascii : ¬ (0x2D :: ext).any (· ≥ 0x80) = true := by
    rw [List.any_eq_true]
    rintro ⟨ch, hch, hge⟩
    have hge' : (0x80 : Byte).toNat ≤ ch.toNat := UInt8.le_iff_toNat_le.mp (of_decide_eq_true hge)
    rcases List.mem_cons.mp hch with rfl | hch
    · exact absurd hge' (by decide)
    · obtain ⟨d, hd, rfl⟩ := h ch hch
      have hbounds := encodeDigit_bounds hd
      simp only [UInt8.reduceToNat] at hge'
      omega
  rw [decode, if_neg hascii]
  have hsplit : strNRChrA (0x2D :: ext) 0x2D = some ([], ext) :=
    @strNRChrA_append [] ext fun ch hch => (h ch hch).ne
  rw [hsplit]
  rfl

/-- The first number of a text without ASCII characters. -/
theorem decodeFrom_first {ext rest : List Byte} {i : Nat} (hi : i < 0x10000)
    (h : decodeVarInt 72 ext 36 1 0 = .ok (i, rest)) :
    decodeFrom ext.length ext 128 0 72 [] =
      decodeFrom (ext.length - 1) rest (128 + i) 0 (adaptBias i 1 true) [128 + i] := by
  cases ext with
  | nil => cases h
  | cons v ext =>
    have hcheck : ¬ i / (0 + 1) > sizeTMax - 128 := by
      unfold sizeTMax
      omega
    have hmod : i % (0 + 1) = 0 := Nat.mod_one i
    have hvalue : (128 + i / (0 + 1)) % 2 ^ 32 = 128 + i := by omega
    have hdiv : 128 + i / (0 + 1) = 128 + i := by omega
    rw [List.length_cons, decodeFrom, show base = 36 from rfl, h]
    simp only [bind, Except.bind, List.length_nil]
    rw [if_neg hcheck, hmod, hvalue, hdiv]
    rfl

theorem decode_number {ext : List Byte} (hdigits : ∀ ch ∈ ext, IsDigitByte ch) {i : Nat}
    (hi : i < 0xFF80) (h : decodeVarInt 72 ext 36 1 0 = .ok (i, [])) :
    decode (0x2D :: ext) = .ok [.ofNat (128 + i)] := by
  have hlt : 128 + i < 0x10000 := by omega
  rw [decode_hyphen hdigits, decodeFrom_first (by omega) h]
  cases ext.length - 1 with
  | zero =>
    rw [decodeFrom, Except.map, decodeUnits, if_pos hlt]
  | succ fuel =>
    rw [decodeFrom, Except.map, decodeUnits, if_pos hlt]

/-- A second number that is read by mistake moves the first code point by at most one. -/
theorem decode_two_numbers {ext : List Byte} (hdigits : ∀ ch ∈ ext, IsDigitByte ch) {i d : Nat}
    (hd : d ≤ 2) (hi : i < 0xFF00) (h : decodeVarInt 72 ext 36 1 0 = .ok (i, [encodeDigit d]))
    {u : WChar} (hu : 128 + i + 1 < u.toNat) : decode (0x2D :: ext) ≠ .ok [u] := by
  have hne : ∀ n ≤ 128 + i + 1, ∀ l, decodeUnits (n :: l) ≠ [u] := by
    intro n hn l heq
    have hhead : decodeUnits (n :: l) = .ofNat n :: decodeUnits l.tail := by
      cases l with
      | nil => rw [decodeUnits, if_pos (by omega), List.tail_nil, decodeUnits]
      | cons n' l => rw [decodeUnits, if_pos (by omega), List.tail_cons]
    rw [hhead, List.cons.injEq] at heq
    rw [← heq.1, UInt16.toNat_ofNat'] at hu
    omega
  rw [decode_hyphen hdigits, decodeFrom_first (by omega) h]
  cases ext.length - 1 with
  | zero =>
    intro heq
    exact hne (128 + i) (by omega) [] (Except.ok.inj heq)
  | succ fuel =>
    rw [decodeFrom, show base = 36 from rfl]
    generalize adaptBias i 1 true = bias
    have hread : readDigit d = d := (readDigit_eq_iff d).mpr (by omega)
    have hroom : 0 + readDigit d * 1 ≤ sizeTMax := by
      unfold sizeTMax
      omega
    by_cases hlt : readDigit d < threshold bias 36
    · rw [decodeVarInt_last (by omega) Nat.zero_lt_one hroom hlt, hread]
      have hcheck : ¬ (0 + d * 1) / (0 + 1 + 1) > sizeTMax - (128 + i) := by
        unfold sizeTMax
        omega
      simp only [bind, Except.bind, List.length_singleton]
      rw [if_neg hcheck]
      have hend : ∀ n i bias l, decodeFrom fuel [] n i bias l = .ok l := by
        intro n i bias l
        cases fuel with
        | zero => rfl
        | succ fuel => rfl
      rw [hend]
      have hvalue : (128 + i + (0 + d * 1) / (0 + 1 + 1)) % 2 ^ 32 = 128 + i + d / 2 := by omega
      have hindex : (0 + d * 1) % (0 + 1 + 1) = d % 2 := by omega
      rw [hvalue, hindex]
      intro heq
      rcases Nat.mod_two_eq_zero_or_one d with hd0 | hd1
      · rw [hd0] at heq
        exact hne (128 + i + d / 2) (by omega) [128 + i] (Except.ok.inj heq)
      · rw [hd1] at heq
        exact hne (128 + i) (by omega) [128 + i + d / 2] (Except.ok.inj heq)
    · have hbounds := threshold_bounds bias 36
      rw [decodeVarInt_next rfl (by omega) Nat.zero_lt_one hroom (Nat.not_lt.mp hlt) (by
        rw [Nat.le_div_iff_mul_le (by omega)]
        unfold sizeTMax
        omega)]
      exact nofun

/-- **A single unit** comes back if its number is written in letters. -/
theorem decode_single_iff {u : WChar} (hge : 0x80 ≤ u.toNat) :
    decode (0x2D :: encodeVarInt 72 (u.toNat - 128)) = .ok [u] ↔ IsLetters (u.toNat - 128) := by
  have hlt := u.toNat_lt
  have hdigits : ∀ ch ∈ encodeVarInt 72 (u.toNat - 128), IsDigitByte ch :=
    encodeVarIntFrom_digits (Nat.le_refl _)
  -- if the number is read to the end of the text
  have hread : ∀ i, i ≤ u.toNat - 128 →
      decodeVarInt 72 (encodeVarInt 72 (u.toNat - 128)) 36 1 0 = .ok (i, []) →
      (decode (0x2D :: encodeVarInt 72 (u.toNat - 128)) = .ok [u] ↔ i = u.toNat - 128) := by
    intro i hi h
    rw [decode_number hdigits (by omega) h, Except.ok.injEq, List.cons.injEq, ← UInt16.toNat_inj,
      UInt16.toNat_ofNat']
    refine ⟨fun heq => ?_, fun heq => ⟨?_, rfl⟩⟩
    · omega
    · omega
  have h36 : threshold 72 36 = 1 := rfl
  have h72 : threshold 72 72 = 1 := rfl
  have h108 : threshold 72 108 = 26 := rfl
  have h144 : threshold 72 (108 + 36) = 26 := rfl
  have hroom : ∀ n < 0x100000, n ≤ sizeTMax := by
    intro n hn
    unfold sizeTMax
    omega
  generalize hq : u.toNat - 128 = q at *
  by_cases hzero : q = 0
  · subst hzero
    exact iff_of_true ((hread 0 (Nat.le_refl _) rfl).mpr rfl) (.inl rfl)
  obtain ⟨g₀, q₁, hg₀, hg₀', hq₀, henc₀⟩ := exists_digit h36 (Nat.pos_of_ne_zero hzero)
  have hr₀ := readDigit_le g₀
  have hpos₀ := readDigit_pos hg₀
  have hstep₀ : ∀ l, decodeVarInt 72 (encodeDigit g₀ :: l) 36 1 0 =
      decodeVarInt 72 l 72 35 (readDigit g₀) := by
    intro l
    rw [decodeVarInt_next h36 (by omega) Nat.zero_lt_one (hroom _ (by omega)) (by omega)
      (by decide), Nat.zero_add, Nat.mul_one]
  have henc : encodeVarInt 72 q = encodeDigit g₀ :: encodeVarIntFrom 72 (q - 1) 72 q₁ :=
    henc₀ q (Nat.le_refl _)
  rw [henc] at hread hdigits ⊢
  by_cases hone : q₁ = 0
  · -- one digit
    subst hone
    have hlast : readDigit 0 < threshold 72 72 := by decide
    rw [encodeVarIntFrom_last (by decide)] at hread ⊢
    have hvalue := hread (readDigit g₀) (by omega) (by
      rw [hstep₀, decodeVarInt_last (by decide) (by decide) (hroom _ (by
        have hzero' : readDigit 0 = 0 := rfl
        omega)) hlast]
      rfl)
    rw [hvalue, hq₀, isLetters_digit hg₀ hg₀', ← readDigit_eq_iff]
    omega
  obtain ⟨g₁, q₂, hg₁, hg₁', hq₁, henc₁⟩ := exists_digit h72 (Nat.pos_of_ne_zero hone)
  have hr₁ := readDigit_le g₁
  have hpos₁ := readDigit_pos hg₁
  have hstep₁ : ∀ i ≤ 35, ∀ l, decodeVarInt 72 (encodeDigit g₁ :: l) 72 35 i =
      decodeVarInt 72 l 108 1225 (i + readDigit g₁ * 35) := by
    intro i hi l
    rw [decodeVarInt_next h72 (by omega) (by decide) (hroom _ (by omega)) (by omega) (by decide)]
  rw [henc₁ _ (by omega)] at hread hdigits ⊢
  rw [hq₀, hq₁, isLetters_two_digits hg₀ hg₀' hg₁ hg₁']
  by_cases hthree : q₂ < 26
  · -- three digits
    have hr₂ := readDigit_le q₂
    have hq₂ := (readDigit_eq_iff q₂).mpr (by omega)
    have hlast : q₂ < threshold 72 (72 + 36) := hthree
    rw [encodeVarIntFrom_last hlast] at hread ⊢
    have hvalue := hread (readDigit g₀ + readDigit g₁ * 35 + readDigit q₂ * 1225) (by omega) (by
      rw [hstep₀, hstep₁ _ (by omega), decodeVarInt_last (by omega) (by decide)
        (hroom _ (by omega)) (by omega)])
    rw [hvalue, ← readDigit_eq_iff, ← readDigit_eq_iff]
    omega
  · -- four digits, of which the third one is no letter
    obtain ⟨g₂, q₃, hg₂, hg₂', hq₂, henc₂⟩ : ∃ g q', 26 ≤ g ∧ g < 36 ∧ q₂ = g + 10 * q' ∧
        ∀ fuel, q₂ ≤ fuel → encodeVarIntFrom 72 fuel 108 q₂ =
          encodeDigit g :: encodeVarIntFrom 72 (fuel - 1) (108 + 36) q' := by
      refine ⟨26 + (q₂ - 26) % 10, (q₂ - 26) / 10, by omega, by omega, by omega, fun fuel hfuel => ?_⟩
      exact encodeVarIntFrom_next h108 (Nat.not_lt.mp hthree) hfuel
    have hr₂ : readDigit g₂ = g₂ - 4 := if_pos (by omega)
    have hr₃ := readDigit_le q₃
    rw [henc₂ _ (by omega), encodeVarIntFrom_last (by omega)] at hread hdigits ⊢
    refine iff_of_false ?_ fun h => hthree h.2.2
    by_cases hshort : readDigit g₂ < 26
    · refine @decode_two_numbers _ hdigits
        (readDigit g₀ + readDigit g₁ * 35 + readDigit g₂ * 1225) q₃ ?_ ?_ ?_ u ?_
      · omega
      · omega
      · rw [hstep₀, hstep₁ _ (by omega), decodeVarInt_last (by omega) (by decide)
          (hroom _ (by omega)) (by omega)]
      · omega
    · have hvalue := hread (readDigit g₀ + readDigit g₁ * 35 + readDigit g₂ * 1225 +
        readDigit q₃ * 12250) (by omega) (by
          rw [hstep₀, hstep₁ _ (by omega), decodeVarInt_next h108 (by omega) (by decide)
            (hroom _ (by omega)) (by omega) (by decide), decodeVarInt_last (by omega)
            (by decide) (hroom _ (by omega)) (by omega)])
      rw [hvalue]
      omega

/-! ### The round trip -/

/-- What is asked of the text: if it is encoded, then decoding gives it back; and it is
encoded if it is short enough. -/
def RoundTrips (s : List WChar) : Prop :=
  (∀ cStrDestA, encode s = .ok cStrDestA → decode cStrDestA = .ok s) ∧
    (IsShort s → ∃ cStrDestA, encode s = .ok cStrDestA)

theorem roundTrips_single {u : WChar} (hge : 0x80 ≤ u.toNat) (hu : isSurrogate u = false) :
    RoundTrips [u] ↔ IsLetters (u.toNat - 128) := by
  rw [← decode_single_iff hge, RoundTrips, encode_single hge hu]
  constructor
  · exact fun h => h.1 _ rfl
  · intro h
    refine ⟨fun cStrDestA heq => ?_, fun _ => ⟨_, rfl⟩⟩
    obtain rfl := Except.ok.inj heq
    exact h

/-- **Which texts Punycode gives back.**  A single unit comes back exactly if its number
is written in letters.  Of the longer texts none comes back that has a zero, or a
surrogate and is short enough, or whose encoding is not twice as long. -/
theorem roundTrips_of_isLetters {s : List WChar} (hwf : isWellFormed s = true)
    (hnon : HasNonAscii s) :
    (∀ u, s = [u] → (RoundTrips s ↔ IsLetters (u.toNat - 128))) ∧
      (0 ∈ s → ¬ RoundTrips s) ∧
      (0 ∉ s → IsShort s →
        ((∃ cStrDestA, encode s = .ok cStrDestA) ↔ s.any isSurrogate = false)) ∧
      (0 ∉ s → ∀ cStrDestA, encode s = .ok cStrDestA → cStrDestA.length < 2 * s.length →
        decode cStrDestA ≠ .ok s) := by
  refine ⟨?_, ?_, ?_, ?_⟩
  · rintro u rfl
    obtain ⟨v, hv, hge⟩ := hnon
    obtain rfl := List.mem_singleton.mp hv
    rw [isWellFormed, Bool.and_eq_true, Bool.not_eq_true', Bool.not_eq_true'] at hwf
    refine roundTrips_single (UInt16.le_iff_toNat_le.mp hge) ?_
    rw [isSurrogate, hwf.1, hwf.2]
    rfl
  · intro hzero h
    obtain ⟨cStrDestA, henc, hdec⟩ := encode_of_zero hwf hzero
    exact hdec (h.1 _ henc)
  · intro hzero hshort
    constructor
    · rintro ⟨cStrDestA, henc⟩
      exact (encode_spec hwf hzero hnon henc).1
    · exact fun hsurr => encode_ok hsurr hshort
  · intro hzero cStrDestA henc hlen hdec
    exact absurd (le_of_decode_encode hwf hzero hnon henc hdec) (Nat.not_le.mpr hlen)

/-- The text `ß` comes back. -/
theorem roundTrips_sharpS : RoundTrips [0xDF] :=
  ((roundTrips_of_isLetters (by decide) ⟨0xDF, by decide, by decide⟩).1 0xDF rfl).mpr (by decide)

/-- A pair of surrogates is not encoded, `aß` comes back as `a`, and `é` as `å`. -/
theorem roundTrips_lost :
    encode [0xD83D, 0xDE00] = .error .eFail ∧ (encode [0x61, 0xDF]).bind decode = .ok [0x61] ∧
      (encode [0xE9]).bind decode = .ok [0xE5] :=
  ⟨by decide, by decide, by decide⟩

end MxLib.Http.Punycode
