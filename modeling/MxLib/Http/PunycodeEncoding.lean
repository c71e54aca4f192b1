import Mathlib.Data.List.TakeWhile
import MxLib.Http.PunycodeRoundTrip
import MxLib.Library.Rfc3492

/-!
# The encoder and RFC 3492

The numbers that `Punycode_Encode` writes are those of the encoding procedure.  The hyphen is not:
it is put in when a number was written, and belongs there when a character was copied.  A text
with a pair of surrogates is never encoded, since its units are counted for its code points; and
a zero, or a high surrogate alone, ends the encoder without a failure.
-/

namespace MxLib.Http.Punycode

open MxLib.Library MxLib.Library.Unicode

/-! ### Numbers and biases -/

theorem digit_eq (d : Nat) : Rfc3492.digit d = encodeDigit d := by
  unfold Rfc3492.digit encodeDigit
  by_cases h : d < 26
  · rw [if_pos h, if_neg (by omega), Nat.add_comm]
  · rw [if_neg h, if_pos (by omega)]
    congr 1
    omega

theorem threshold_eq (bias k : Nat) : Rfc3492.threshold bias k = threshold bias k := rfl

theorem number_eq {bias fuel k q : Nat} (hfuel : q ≤ fuel) :
    Rfc3492.number bias k q = encodeVarIntFrom bias fuel k q := by
  induction fuel generalizing k q with
  | zero =>
    obtain rfl := Nat.le_zero.mp hfuel
    have hpos : 0 < Rfc3492.threshold bias k := Rfc3492.threshold_pos bias k
    rw [Rfc3492.number, if_pos hpos, digit_eq]
    rfl
  | succ fuel ih =>
    rw [Rfc3492.number, encodeVarIntFrom, threshold_eq]
    have hpos := (threshold_bounds bias k).1
    simp only [base]
    split
    · rw [digit_eq]
    · have hdiv : (q - threshold bias k) / (36 - threshold bias k) ≤ q - threshold bias k :=
        Nat.div_le_self _ _
      rw [digit_eq, ih (by omega)]

theorem adaptLoop_eq {fuel delta k : Nat} (hfuel : delta ≤ fuel) :
    Rfc3492.adaptLoop delta k =
      (adaptBiasFrom fuel delta k).2 + 36 * (adaptBiasFrom fuel delta k).1 /
        ((adaptBiasFrom fuel delta k).1 + 38) := by
  induction fuel generalizing delta k with
  | zero =>
    obtain rfl := Nat.le_zero.mp hfuel
    rw [Rfc3492.adaptLoop, if_neg (by decide)]
    rfl
  | succ fuel ih =>
    rw [Rfc3492.adaptLoop, adaptBiasFrom]
    by_cases hbig : 455 < delta
    · have hbig' : delta > (base - tMin) * tMax / 2 := hbig
      have hdiv : delta / 35 < delta := Nat.div_lt_self (by omega) (by decide)
      rw [if_pos hbig, if_pos hbig']
      exact ih (by omega)
    · have hbig' : ¬ delta > (base - tMin) * tMax / 2 := hbig
      rw [if_neg hbig, if_neg hbig']

theorem adapt_eq (delta numpoints : Nat) (first : Bool) :
    Rfc3492.adapt delta numpoints first = adaptBias delta numpoints first := by
  rw [Rfc3492.adapt, adaptBias]
  cases first with
  | false => exact adaptLoop_eq (Nat.le_refl _)
  | true => exact adaptLoop_eq (Nat.le_refl _)

/-! ### The loops in step -/

variable {pre pre' : List Byte} {st : EncodeState} {r : Rfc3492.State}

/-- The encoder and the procedure have written the same numbers. -/
structure Agrees (pre pre' : List Byte) (st : EncodeState) (r : Rfc3492.State) : Prop where
  h : st.h = r.h
  delta : st.delta = r.delta
  bias : st.bias = r.bias
  text : ∃ ext, st.cStrDestA = pre ++ ext ∧ r.output = pre' ++ ext

/-- Both fail, or both end in states that agree. -/
def InStep (pre pre' : List Byte) (x : Except HResult EncodeState)
    (y : Option Rfc3492.State) : Prop :=
  (x = .error .eFail ∧ y = none) ∨
    ∃ st r, x = .ok st ∧ y = some r ∧ Agrees pre pre' st r ∧ st.delta ≤ sizeTMax

theorem Agrees.scan {n b : Nat} {chars : List Nat} (h : Agrees pre pre' st r)
    (hdelta : st.delta ≤ sizeTMax) :
    InStep pre pre' (encodeScan n b chars st) (Rfc3492.pass sizeTMax n b chars r) := by
  induction chars generalizing st r with
  | nil => exact .inr ⟨st, r, rfl, rfl, h, hdelta⟩
  | cons c chars ih =>
    have hover : (st.delta + 1) % 2 ^ 64 = 0 ↔ sizeTMax < r.delta + 1 := by
      rw [← h.delta]
      unfold sizeTMax at hdelta ⊢
      omega
    rw [encodeScan, Rfc3492.pass]
    by_cases hlt : c < n
    · rw [if_pos hlt, if_pos hlt]
      by_cases hmax : sizeTMax < r.delta + 1
      · rw [if_pos (hover.mpr hmax), if_pos hmax]
        exact .inl ⟨rfl, rfl⟩
      · rw [if_neg (hover.not.mpr hmax), if_neg hmax]
        refine ih ⟨h.h, congrArg (· + 1) h.delta, h.bias, h.text⟩ ?_
        rw [← h.delta] at hmax
        exact Nat.not_lt.mp hmax
    rw [if_neg hlt, if_neg hlt]
    by_cases heq : c = n
    · rw [if_pos heq, if_pos heq]
      obtain ⟨ext, hdest, hout⟩ := h.text
      refine ih ⟨congrArg (· + 1) h.h, rfl, ?_, ext ++ encodeVarInt st.bias st.delta, ?_, ?_⟩
        (Nat.zero_le _)
      · rw [adapt_eq, ← h.h, ← h.delta]
      · rw [hdest, List.append_assoc]
      · rw [hout, ← h.bias, ← h.delta, number_eq (Nat.le_refl _), List.append_assoc]
        rfl
    · rw [if_neg heq, if_neg heq]
      exact ih h hdelta

theorem least_eq {n m : Nat} {chars : List Nat} (hmem : m ∈ chars) (hn : n ≤ m)
    (hmin : ∀ c ∈ chars, n ≤ c → m ≤ c) : Rfc3492.least n chars = some m := by
  rw [Rfc3492.least, List.min?_eq_some_iff]
  refine ⟨List.mem_filter.mpr ⟨hmem, decide_eq_true hn⟩, fun c hc => ?_⟩
  obtain ⟨hc, hnc⟩ := List.mem_filter.mp hc
  exact hmin c hc (of_decide_eq_true hnc)

/-- **As long as the code points are counted right, the encoder follows the procedure.** -/
theorem Agrees.from {chars : List Nat} (hlt : ∀ c ∈ chars, c < 0x110000)
    (hlen : chars.length < sizeTMax) {b fuel n : Nat} (h : Agrees pre pre' st r)
    (hdelta : st.delta ≤ sizeTMax) (hn : n ≤ 0x110000) (hh : st.h = written chars n) :
    InStep pre pre' (encodeFrom chars chars.length b fuel n st)
      (Rfc3492.loop sizeTMax b chars fuel n r) := by
  induction fuel generalizing n st r with
  | zero => exact .inr ⟨st, r, rfl, rfl, h, hdelta⟩
  | succ fuel ih =>
    rw [encodeFrom, Rfc3492.loop]
    by_cases hmore : st.h < chars.length
    · have hmore' : r.h < chars.length := h.h ▸ hmore
      rw [if_pos hmore, if_pos hmore']
      have hsize : ∀ c ∈ chars, c < sizeTMax := fun c hc => Nat.lt_trans (hlt c hc) (by decide)
      rcases nextCodePoint_spec (n := n) hsize with ⟨-, hall⟩ | ⟨hmem, hnm, hmin⟩
      · -- all code points were written
        have hwritten : st.h = chars.length := by
          rw [hh]
          exact List.countP_eq_length.mpr fun c hc => decide_eq_true (hall c hc)
        omega
      · have hover : nextCodePoint n chars - n > (sizeTMax - st.delta) / (st.h + 1) ↔
            sizeTMax < r.delta + (nextCodePoint n chars - n) * (r.h + 1) := by
          rw [gt_iff_lt, Nat.div_lt_iff_lt_mul (by omega : 0 < st.h + 1), ← h.delta, ← h.h]
          omega
        rw [least_eq hmem hnm hmin]
        simp only
        by_cases hmax : sizeTMax < r.delta + (nextCodePoint n chars - n) * (r.h + 1)
        · rw [if_pos (hover.mpr hmax), if_pos hmax]
          exact .inl ⟨rfl, rfl⟩
        rw [if_neg (hover.not.mpr hmax), if_neg hmax]
        have hstart : Agrees pre pre'
            { st with delta := st.delta + (nextCodePoint n chars - n) * (st.h + 1) }
            { r with delta := r.delta + (nextCodePoint n chars - n) * (r.h + 1) } :=
          ⟨h.h, by rw [h.delta, h.h], h.bias, h.text⟩
        have hfits : st.delta + (nextCodePoint n chars - n) * (st.h + 1) ≤ sizeTMax := by
          rw [h.delta, h.h]
          exact Nat.not_lt.mp hmax
        rcases @Agrees.scan pre pre' _ _ (nextCodePoint n chars) b chars hstart hfits with
          ⟨hscan, hpass⟩ | ⟨st₁, r₁, hscan, hpass, h₁, -⟩
        · rw [hscan, hpass]
          exact .inl ⟨rfl, rfl⟩
        · obtain ⟨hh₁, -⟩ := written_scan hh hmem hnm hmin hscan
          obtain ⟨-, -, hdelta₁⟩ := encodeScan_spec hscan
          have hdelta₁' : st₁.delta ≤ chars.length :=
            hdelta₁.resolve_right fun hnot => hnot.1 hmem
          have hm := hlt _ hmem
          have hmax₁ : st₁.delta + 1 < 2 ^ 64 := by
            unfold sizeTMax at hlen
            omega
          rw [hscan, hpass]
          simp only [bind, Except.bind]
          rw [Nat.mod_eq_of_lt (by omega : nextCodePoint n chars + 1 < 2 ^ 64),
            Nat.mod_eq_of_lt hmax₁]
          refine ih ⟨h₁.h, congrArg (· + 1) h₁.delta, h₁.bias, h₁.text⟩ ?_ (by omega) hh₁
          unfold sizeTMax
          simp only
          omega
    · have hmore' : ¬ r.h < chars.length := h.h ▸ hmore
      rw [if_neg hmore, if_neg hmore']
      exact .inr ⟨st, r, rfl, rfl, h, hdelta⟩

/-! ### The values of a text -/

/-- The values the encoder sees in a text whose high surrogates are paired. -/
theorem wideChars_highs {s : List WChar} (h : HighsPaired s) :
    (∀ c ∈ wideChars s, c < 0x110000) ∧ (0 ∈ wideChars s ↔ 0 ∈ s) ∧
      (s.any isHighSurrogate = true → (wideChars s).length < s.length) ∧
      (s.any isHighSurrogate = false → wideChars s = s.map UInt16.toNat) ∧
      (wideChars s).length ≤ s.length := by
  refine highsPaired_induct ?nil ?single ?pair h
  case nil =>
    exact ⟨nofun, ⟨fun h => absurd h List.not_mem_nil, fun h => absurd h List.not_mem_nil⟩, nofun,
      fun _ => rfl, Nat.le_refl _⟩
  case single =>
    intro u s hu _ ih
    obtain ⟨hlt, hzero, hpairs, hmap, hlen⟩ := ih
    rw [wideChars_single hu, List.any_cons, hu, Bool.false_or]
    refine ⟨?_, ?_, ?_, ?_, ?_⟩
    · intro c hc
      rcases List.mem_cons.mp hc with rfl | hc
      · exact Nat.lt_trans u.toNat_lt (by decide)
      · exact hlt c hc
    · rw [List.mem_cons, List.mem_cons, hzero, ← UInt16.toNat_inj]
      rfl
    · intro hany
      exact Nat.succ_lt_succ (hpairs hany)
    · intro hany
      rw [hmap hany, List.map_cons]
    · exact Nat.succ_le_succ hlen
  case pair =>
    intro u v s hu hv _ ih
    obtain ⟨hlt, hzero, -, -, hlen⟩ := ih
    have hge : 0x10000 ≤ pairValue u v := Nat.le_add_left _ _
    rw [wideChars_pair hu hv, List.any_cons, hu, Bool.true_or]
    refine ⟨?_, ?_, ?_, nofun, ?_⟩
    · intro c hc
      rcases List.mem_cons.mp hc with rfl | hc
      · exact pairValue_lt hu hv
      · exact hlt c hc
    · have hu0 : (0 : WChar) ≠ u := by
        rintro rfl
        cases hu
      have hv0 : (0 : WChar) ≠ v := by
        rintro rfl
        cases hv
      rw [List.mem_cons, List.mem_cons, List.mem_cons, hzero, or_iff_right hu0, or_iff_right hv0]
      exact or_iff_right (by omega)
    · intro _
      rw [List.length_cons, List.length_cons, List.length_cons]
      omega
    · rw [List.length_cons, List.length_cons, List.length_cons]
      omega

/-- A high surrogate alone is seen as a zero. -/
theorem zero_mem_wideChars {s : List WChar} (h : ¬ HighsPaired s) : 0 ∈ wideChars s := by
  have hlone : ∀ u rest, isHighSurrogate u = true → isLowSurrogate (charAt (u :: rest) 1) = false →
      getWideChar (u :: rest) = 0 := by
    intro u rest hu hv
    have hrange : ¬ (charAt (u :: rest) 0 < 0xD800 || charAt (u :: rest) 0 > 0xDBFF) = true := by
      have hbounds := (isHighSurrogate_iff u).mp hu
      have hhead : charAt (u :: rest) 0 = u := rfl
      rw [hhead]
      simp [UInt16.lt_iff_toNat_lt, hbounds.1, hbounds.2]
    have hnext : (charAt (u :: rest) 1 < 0xDC00 || charAt (u :: rest) 1 > 0xDFFF) = true := by
      rw [isLowSurrogate, Bool.and_eq_false_iff] at hv
      rw [Bool.or_eq_true]
      exact hv.imp (fun h => decide_eq_true (UInt16.not_le.mp (of_decide_eq_false h)))
        fun h => decide_eq_true (UInt16.not_le.mp (of_decide_eq_false h))
    rw [getWideChar, if_neg hrange, if_pos hnext]
  induction s using isWellFormed.induct with
  | case1 => exact absurd highsPaired_nil h
  | case2 u =>
    by_cases hu : isHighSurrogate u = true
    · rw [wideChars, hlone u [] hu rfl]
      exact List.mem_cons_self
    · exact absurd ((highsPaired_single (by simpa using hu) []).mpr highsPaired_nil) h
  | case3 u v s hu ih =>
    by_cases hv : isLowSurrogate v = true
    · rw [highsPaired_pair hv] at h
      rw [wideChars_pair hu hv]
      exact List.mem_cons_of_mem _ (ih h)
    · rw [wideChars, hlone u (v :: s) hu (by simpa using hv)]
      exact List.mem_cons_self
  | case4 u v s hu ih =>
    rw [Bool.not_eq_true] at hu
    rw [highsPaired_single hu] at h
    rw [wideChars_single hu]
    exact List.mem_cons_of_mem _ (ih h)

theorem wideChars_eq_codePoints {s : List WChar} (h : isWellFormed s = true) :
    wideChars s = codePoints s := by
  refine isWellFormed_induct ?nil ?single ?pair h
  case nil => rfl
  case single =>
    intro u s hu _ _ ih
    rw [wideChars_single hu, codePoints_single hu, ih]
  case pair =>
    intro u v s hu hv _ ih
    rw [wideChars_pair hu hv, codePoints_pair hu, ih]

/-! ### The encoder -/

/-- A zero ends the encoder. -/
theorem encode_zero {s : List WChar} (h : 0 ∈ wideChars s) :
    encode s = .ok (basicChars ((wideChars s).takeWhile (· != 0))) := by
  simp only [encode]
  rw [if_pos (List.contains_iff_mem.mpr h)]

/-- A text with a pair of surrogates is not encoded. -/
theorem encode_pair {s : List WChar} (h : HighsPaired s) (hzero : 0 ∉ s)
    (hany : s.any isHighSurrogate = true) (cStrDestA : List Byte) : encode s ≠ .ok cStrDestA := by
  intro henc
  obtain ⟨hlt, hzeros, hpairs, -, -⟩ := wideChars_highs h
  have hshort := hpairs hany
  have hnonempty : wideChars s ≠ [] := by
    obtain ⟨u, hu, -⟩ := List.any_eq_true.mp hany
    cases s with
    | nil => cases hu
    | cons u s =>
      cases s with
      | nil => exact List.cons_ne_nil _ _
      | cons v s => exact List.cons_ne_nil _ _
  simp only [encode] at henc
  rw [if_neg (by rw [List.contains_iff_mem, hzeros]; exact hzero)] at henc
  obtain ⟨st, hfrom, -⟩ := exists_of_bind_ok henc
  have hbasic : written (wideChars s) 128 ≤ (wideChars s).length := List.countP_le_length
  obtain ⟨hlow, hhigh, -⟩ :=
    encodeFrom_spec hnonempty hlt (by decide) (length_basicChars _) (by simp only; omega) hfrom
  omega

theorem zero_notMem_units {s : List WChar} (hwide : wideChars s = s.map UInt16.toNat)
    (hzero : 0 ∉ s) : 0 ∉ wideChars s := by
  rw [hwide]
  intro h
  obtain ⟨u, hu, heq⟩ := List.mem_map.mp h
  obtain rfl : u = 0 := UInt16.toNat_inj.mp heq
  exact hzero hu

/-- A text of ASCII characters is copied. -/
theorem encode_basic {s : List WChar} (hwide : wideChars s = s.map UInt16.toNat) (hzero : 0 ∉ s)
    (hall : ∀ u ∈ s, u < 0x80) :
    encode s = .ok (basicChars (wideChars s)) ∧
      Rfc3492.encode sizeTMax (wideChars s) = some (Rfc3492.front (wideChars s)) := by
  have hzeros := zero_notMem_units hwide hzero
  have hlen : (basicChars (wideChars s)).length = s.length := by
    rw [length_basicChars, hwide, written, List.countP_map]
    exact List.countP_eq_length.mpr fun u hu => decide_eq_true (UInt16.lt_iff_toNat_lt.mp (hall u hu))
  have hpoints : (wideChars s).length = s.length := by rw [hwide, List.length_map]
  constructor
  · simp only [encode]
    rw [if_neg (by rwa [List.contains_iff_mem]), encodeFrom, if_neg (by simp only; omega)]
    simp only [bind, Except.bind]
    rw [if_neg (Nat.lt_irrefl _)]
  · have hbasic : Rfc3492.basic (wideChars s) = basicChars (wideChars s) := rfl
    rw [Rfc3492.encode, Rfc3492.loop, if_neg (by simp only [hbasic]; omega), Option.map_some]

/-- **A text without surrogate pairs**: the encoder fails where the procedure does, and writes
the same numbers; the hyphen is always there. -/
theorem encode_units {s : List WChar} (hwide : wideChars s = s.map UInt16.toNat) (hzero : 0 ∉ s)
    (hlen : s.length < sizeTMax) (hnon : ∃ u ∈ s, 0x80 ≤ u) :
    (encode s = .error .eFail ∧ Rfc3492.encode sizeTMax (wideChars s) = none) ∨
      ∃ ext, encode s = .ok (basicChars (wideChars s) ++ 0x2D :: ext) ∧
        Rfc3492.encode sizeTMax (wideChars s) = some (Rfc3492.front (wideChars s) ++ ext) := by
  have hpoints : (wideChars s).length = s.length := by rw [hwide, List.length_map]
  have hlt : ∀ c ∈ wideChars s, c < 0x110000 := by
    intro c hc
    rw [hwide] at hc
    obtain ⟨u, -, rfl⟩ := List.mem_map.mp hc
    exact Nat.lt_trans u.toNat_lt (by decide)
  have hzeros := zero_notMem_units hwide hzero
  obtain ⟨u, hu, hge⟩ := hnon
  have hmem : u.toNat ∈ wideChars s := by
    rw [hwide]
    exact List.mem_map_of_mem hu
  have hbasic : written (wideChars s) 128 < s.length := by
    rw [← hpoints]
    refine Nat.lt_of_le_of_ne List.countP_le_length fun heq => ?_
    have hlow := of_decide_eq_true (List.countP_eq_length.mp heq _ hmem)
    have hge' := UInt16.le_iff_toNat_le.mp hge
    exact absurd hlow (Nat.not_lt.mpr hge')
  have hstart : Agrees (basicChars (wideChars s)) (Rfc3492.front (wideChars s))
      { h := (basicChars (wideChars s)).length, delta := 0, bias := initialBias,
        cStrDestA := basicChars (wideChars s) }
      ⟨0, 72, (Rfc3492.basic (wideChars s)).length, Rfc3492.front (wideChars s)⟩ :=
    ⟨rfl, rfl, rfl, [], (List.append_nil _).symm, (List.append_nil _).symm⟩
  have hstep := @Agrees.from _ _ _ _ _ hlt (by omega) (basicChars (wideChars s)).length
    (s.length + 1) initialN hstart (Nat.zero_le _) (by decide) (length_basicChars _)
  rw [hpoints] at hstep
  simp only [encode]
  rw [if_neg (by rwa [List.contains_iff_mem]), Rfc3492.encode, hpoints]
  rcases hstep with ⟨hfrom, hloop⟩ | ⟨st, r, hfrom, hloop, hagrees, -⟩
  · refine .inl ⟨?_, ?_⟩
    · rw [hfrom]
      rfl
    · rw [Option.map_eq_none_iff]
      exact hloop
  · obtain ⟨ext, hdest, hout⟩ := hagrees.text
    obtain ⟨-, -, ext', hdest', -, hne⟩ :=
      encodeFrom_spec (List.ne_nil_of_mem hmem) hlt (by decide) (length_basicChars _)
        (by simp only; omega) hfrom
    have hext : ext ≠ [] := by
      have heq : ext = ext' := List.append_cancel_left (hdest.symm.trans hdest')
      rw [heq]
      refine hne ?_
      simp only [length_basicChars]
      exact hbasic
    refine .inr ⟨ext, ?_, ?_⟩
    · have hpos := List.length_pos_iff.mpr hext
      have hguard : st.cStrDestA.length > (basicChars (wideChars s)).length := by
        rw [hdest, List.length_append]
        omega
      rw [hfrom]
      simp only [bind, Except.bind]
      rw [if_pos hguard, hdest, insertStr, List.take_left, List.drop_left, List.append_assoc]
      rfl
    · rw [← hout, Option.map_eq_some_iff]
      exact ⟨r, hloop, rfl⟩

/-! ### Conformance -/

/-- The encoding of a well-formed text is the one of RFC 3492, and a text that is not well
formed is refused. -/
def Conforms (s : List WChar) : Prop :=
  (isWellFormed s = true → ∀ cStrDestA, encode s = .ok cStrDestA →
    Rfc3492.encode sizeTMax (codePoints s) = some cStrDestA) ∧
  (isWellFormed s = false → ∀ cStrDestA, encode s ≠ .ok cStrDestA)

theorem not_conforms_zero {s : List WChar} (h : 0 ∈ wideChars s) : ¬ Conforms s := by
  rintro ⟨hwell, hill⟩
  have henc := encode_zero h
  cases hwf : isWellFormed s with
  | false => exact hill hwf _ henc
  | true =>
    have hrfc := hwell hwf _ henc
    rw [← wideChars_eq_codePoints hwf] at hrfc
    have hzero : (0 : Byte) ∈ Rfc3492.basic (wideChars s) :=
      List.mem_map.mpr ⟨0, List.mem_filter.mpr ⟨h, rfl⟩, rfl⟩
    have hout := (Rfc3492.basic_prefix hrfc).subset hzero
    obtain ⟨c, hc, hnul⟩ := List.mem_map.mp hout
    obtain ⟨hc, hbasic⟩ := List.mem_filter.mp hc
    have hne : c ≠ 0 := by simpa using List.mem_takeWhile_imp hc
    have hlt := of_decide_eq_true hbasic
    have hnat := congrArg UInt8.toNat hnul
    rw [UInt8.toNat_ofNat', Nat.mod_eq_of_lt (by omega)] at hnat
    exact hne hnat

/-- There is a basic code point where a character is an ASCII one. -/
theorem basic_ne_nil_iff {s : List WChar} (hwide : wideChars s = s.map UInt16.toNat) :
    Rfc3492.basic (wideChars s) ≠ [] ↔ ∃ u ∈ s, u < 0x80 := by
  rw [hwide]
  constructor
  · intro h
    obtain ⟨b, hb⟩ := List.exists_mem_of_ne_nil _ h
    obtain ⟨c, hc, -⟩ := List.mem_map.mp hb
    obtain ⟨hc, hlow⟩ := List.mem_filter.mp hc
    obtain ⟨u, hu, rfl⟩ := List.mem_map.mp hc
    exact ⟨u, hu, UInt16.lt_iff_toNat_lt.mpr (of_decide_eq_true hlow)⟩
  · rintro ⟨u, hu, hlow⟩
    exact List.ne_nil_of_mem (List.mem_map.mpr ⟨u.toNat, List.mem_filter.mpr
      ⟨List.mem_map_of_mem hu, decide_eq_true (UInt16.lt_iff_toNat_lt.mp hlow)⟩, rfl⟩)

/-- A text whose numbers are written: the hyphen is right behind basic code points only. -/
theorem conforms_written_iff {s : List WChar} {ext : List Byte} (hhighs : HighsPaired s)
    (hwide : wideChars s = s.map UInt16.toNat)
    (henc : encode s = .ok (basicChars (wideChars s) ++ 0x2D :: ext))
    (hrfc : Rfc3492.encode sizeTMax (wideChars s) = some (Rfc3492.front (wideChars s) ++ ext)) :
    Conforms s ↔ LowsPaired s ∧ ∃ u ∈ s, u < 0x80 := by
  rw [← basic_ne_nil_iff hwide]
  constructor
  · rintro ⟨hwell, hill⟩
    cases hwf : isWellFormed s with
    | false => exact absurd henc (hill hwf _)
    | true =>
      refine ⟨((isWellFormed_iff s).mp hwf).2, fun hnil => ?_⟩
      have hout := hwell hwf _ henc
      rw [← wideChars_eq_codePoints hwf, hrfc, Option.some.injEq, Rfc3492.front, if_pos hnil,
        List.append_nil] at hout
      exact absurd (List.append_cancel_left hout) List.ne_cons_self
  · rintro ⟨hlows, hbasic⟩
    have hwf := (isWellFormed_iff s).mpr ⟨hhighs, hlows⟩
    refine ⟨fun _ b hb => ?_, fun hill => ?_⟩
    · obtain rfl := Except.ok.inj (henc.symm.trans hb)
      rw [← wideChars_eq_codePoints hwf, hrfc, Rfc3492.front, if_neg hbasic, List.append_assoc]
      rfl
    · rw [hwf] at hill
      cases hill

theorem lowsPaired_of_basic {s : List WChar} (hall : ∀ u ∈ s, u < 0x80) : LowsPaired s := by
  intro i v hv hlow
  have hrange := (isLowSurrogate_iff v).mp hlow
  have hlt := UInt16.lt_iff_toNat_lt.mp (hall v (List.mem_of_getElem? hv))
  exact absurd hlt (Nat.not_lt.mpr (Nat.le_trans (by decide) hrange.1))

/-- A text of ASCII characters lacks the hyphen, unless it is empty. -/
theorem conforms_basic_iff {s : List WChar} (hhighs : HighsPaired s)
    (hwide : wideChars s = s.map UInt16.toNat) (hzero : 0 ∉ s) (hall : ∀ u ∈ s, u < 0x80) :
    Conforms s ↔ s = [] := by
  obtain ⟨henc, hrfc⟩ := encode_basic hwide hzero hall
  have hwf := (isWellFormed_iff s).mpr ⟨hhighs, lowsPaired_of_basic hall⟩
  constructor
  · rintro ⟨hwell, -⟩
    have hout := hwell hwf _ henc
    rw [← wideChars_eq_codePoints hwf, hrfc, Option.some.injEq] at hout
    by_contra hne
    obtain ⟨u, hu⟩ := List.exists_mem_of_ne_nil _ hne
    have hbasic := (basic_ne_nil_iff hwide).mpr ⟨u, hu, hall u hu⟩
    rw [Rfc3492.front, if_neg hbasic] at hout
    exact absurd (List.append_right_eq_self.mp hout) (List.cons_ne_nil _ _)
  · rintro rfl
    refine ⟨fun _ b hb => ?_, fun hill => ?_⟩
    · obtain rfl := Except.ok.inj (henc.symm.trans hb)
      exact hrfc
    · rw [hwf] at hill
      cases hill

/-- **When the encoder conforms.**  The text has no zero and no high surrogate alone; and it has
a pair of surrogates, or its numbers do not fit, or it has no low surrogate alone and is either
empty or has characters of both kinds. -/
theorem conforms_iff {s : List WChar} (hlen : s.length < sizeTMax) :
    Conforms s ↔ HighsPaired s ∧ 0 ∉ s ∧
      (s.any isHighSurrogate = true ∨
        Rfc3492.encode sizeTMax (s.map UInt16.toNat) = none ∨
        LowsPaired s ∧ (s = [] ∨ (∃ u ∈ s, u < 0x80) ∧ ∃ u ∈ s, 0x80 ≤ u)) := by
  by_cases hhighs : HighsPaired s
  swap
  · exact iff_of_false (not_conforms_zero (zero_mem_wideChars hhighs)) fun h => hhighs h.1
  obtain ⟨-, hzeros, -, hmap, -⟩ := wideChars_highs hhighs
  by_cases hzero : 0 ∈ s
  · exact iff_of_false (not_conforms_zero (hzeros.mpr hzero)) fun h => h.2.1 hzero
  rw [and_iff_right hhighs, and_iff_right hzero]
  cases hany : s.any isHighSurrogate with
  | true =>
    have hnone := encode_pair hhighs hzero hany
    exact iff_of_true ⟨fun _ b hb => absurd hb (hnone b), fun _ => hnone⟩ (.inl rfl)
  | false =>
    have hwide := hmap hany
    rw [or_iff_right (by decide), ← hwide]
    by_cases hnon : ∃ u ∈ s, 0x80 ≤ u
    · rcases encode_units hwide hzero hlen hnon with ⟨henc, hrfc⟩ | ⟨ext, henc, hrfc⟩
      · have hfails : ∀ b, encode s ≠ .ok b := by
          intro b hb
          rw [henc] at hb
          cases hb
        exact iff_of_true ⟨fun _ b hb => absurd hb (hfails b), fun _ => hfails⟩ (.inl hrfc)
      · have hne : s ≠ [] := by
          obtain ⟨u, hu, -⟩ := hnon
          exact List.ne_nil_of_mem hu
        rw [hrfc, or_iff_right (by exact Option.some_ne_none _), or_iff_right hne, and_iff_left hnon]
        exact conforms_written_iff hhighs hwide henc hrfc
    · have hall : ∀ u ∈ s, u < 0x80 := fun u hu =>
        UInt16.not_le.mp fun hge => hnon ⟨u, hu, hge⟩
      have hrfc := (encode_basic hwide hzero hall).2
      rw [hrfc, or_iff_right (by exact Option.some_ne_none _),
        and_iff_right (lowsPaired_of_basic hall), or_iff_left (fun h => hnon h.2)]
      exact conforms_basic_iff hhighs hwide hzero hall

/-- A text of an ASCII character and another one. -/
theorem conforms_mixed : Conforms [0x61, 0xFC] := by
  refine (conforms_iff (by decide)).mpr ⟨?_, by decide, .inr (.inr ⟨?_, .inr ⟨?_, ?_⟩⟩)⟩
  · exact ((isWellFormed_iff _).mp (by decide)).1
  · exact ((isWellFormed_iff _).mp (by decide)).2
  · exact ⟨0x61, by decide, by decide⟩
  · exact ⟨0xFC, by decide, by decide⟩

/-- The delimiter is missing behind a text of ASCII characters, and a low surrogate alone is
taken for a character. -/
theorem not_conforms_ascii : ¬ Conforms [0x61] ∧ ¬ Conforms [0xDC00] := by
  have hencode : encode [0x61] = .ok [0x61] := by decide
  have hlow : ∃ b, encode [0xDC00] = .ok b := ⟨_, rfl⟩
  constructor
  · intro h
    have hout := h.1 (by decide) _ hencode
    have hrfc : Rfc3492.encode sizeTMax (codePoints [0x61]) = some [0x61, 0x2D] := by decide
    rw [hrfc] at hout
    cases hout
  · intro h
    obtain ⟨b, hb⟩ := hlow
    exact h.2 (by decide) b hb

end MxLib.Http.Punycode
