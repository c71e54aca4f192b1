import MxLib.Http.HttpBodyParserFormBase
import Mathlib.Data.List.Induction
import Mathlib.Data.List.TakeWhile
import Mathlib.Tactic.Ring

/-!
# The indexes of fields

An index of a field is the text between square brackets.  A number is stored without
leading zeros, so that two numbers are compared (`numericCompare_canonical`) and
incremented (`nextIndex_eq`) digit by digit.
-/

namespace MxLib.Http

/-! ### Numerals -/

/-- `NumericCompare` -/
def numericCompare : List WChar → List WChar → Ordering
  | [], [] => .eq
  | [], _ :: _ => .lt
  | _ :: _, [] => .gt
  | ch1 :: szNumber1, ch2 :: szNumber2 =>
    if ch1 == ch2 then numericCompare szNumber1 szNumber2
    else if szNumber1.length < szNumber2.length then .lt
    else if szNumber1.length > szNumber2.length then .gt
    else if ch1 < ch2 then .lt else .gt

theorem numericLess_eq (szNumber1 szNumber2 : List WChar) :
    numericLess szNumber1 szNumber2 = (numericCompare szNumber1 szNumber2 == .lt) := by
  induction szNumber1 generalizing szNumber2 with
  | nil => cases szNumber2 <;> rfl
  | cons ch1 szNumber1 ih =>
    cases szNumber2 with
    | nil => rfl
    | cons ch2 szNumber2 =>
      rw [numericLess, numericCompare, ih]
      split
      · rfl
      · split
        · rfl
        · split
          · rfl
          · by_cases h : ch1 < ch2 <;> simp [h]

/-- The digits of a numeral. -/
def IsDigits (sW : List WChar) : Prop := ∀ chW ∈ sW, 0x30 ≤ chW.toNat ∧ chW.toNat ≤ 0x39

/-- The number of a numeral behind the digits of `v`. -/
def numberFrom (v : Nat) (sW : List WChar) : Nat := sW.foldl (fun v chW => v * 10 + (chW.toNat - 0x30)) v

/-- The number that a numeral denotes. -/
def number (sW : List WChar) : Nat := numberFrom 0 sW

/-- A numeral without leading zeros. -/
structure Canonical (sW : List WChar) : Prop where
  ne_nil : sW ≠ []
  digits : IsDigits sW
  head : sW.head? = some zeroW → sW = [zeroW]

/-- The decimal numeral of a number. -/
def decimalText (n : Nat) : List WChar := (Nat.toDigits 10 n).map fun c => UInt16.ofNat c.toNat

theorem numberFrom_eq (v : Nat) (sW : List WChar) :
    numberFrom v sW = v * 10 ^ sW.length + number sW := by
  induction sW generalizing v with
  | nil => simp [numberFrom, number]
  | cons chW sW ih =>
    have hcons : ∀ v, numberFrom v (chW :: sW) = numberFrom (v * 10 + (chW.toNat - 0x30)) sW := fun _ => rfl
    rw [number, hcons, hcons, ih, ih, List.length_cons, Nat.pow_succ]
    ring

theorem number_cons (chW : WChar) (sW : List WChar) :
    number (chW :: sW) = (chW.toNat - 0x30) * 10 ^ sW.length + number sW := by
  rw [number]
  change numberFrom (0 * 10 + (chW.toNat - 0x30)) sW = _
  rw [numberFrom_eq, Nat.zero_mul, Nat.zero_add]

theorem number_append_singleton (sW : List WChar) (chW : WChar) :
    number (sW ++ [chW]) = number sW * 10 + (chW.toNat - 0x30) := by
  rw [number, numberFrom, List.foldl_append]
  rfl

theorem IsDigits.tail {chW : WChar} {sW : List WChar} (h : IsDigits (chW :: sW)) : IsDigits sW :=
  fun c hc => h c (List.mem_cons_of_mem _ hc)

theorem number_lt {sW : List WChar} (h : IsDigits sW) : number sW < 10 ^ sW.length := by
  induction sW with
  | nil => simp [number, numberFrom]
  | cons chW sW ih =>
    have hch := h chW List.mem_cons_self
    have hrest := ih h.tail
    have hmul : (chW.toNat - 0x30) * 10 ^ sW.length ≤ 9 * 10 ^ sW.length :=
      Nat.mul_le_mul_right _ (by omega)
    rw [number_cons, List.length_cons, Nat.pow_succ]
    omega

/-- A numeral of more digits is bigger. -/
theorem Canonical.le_number {sW : List WChar} (h : Canonical sW) (hlen : 2 ≤ sW.length) :
    10 ^ (sW.length - 1) ≤ number sW := by
  cases sW with
  | nil => exact absurd rfl h.ne_nil
  | cons chW sW =>
    have hch := h.digits chW List.mem_cons_self
    have hne : chW.toNat ≠ 0x30 := by
      intro hzero
      have hhead := h.head (by rw [List.head?_cons, show chW = zeroW from UInt16.toNat_inj.mp hzero])
      rw [hhead] at hlen
      simp at hlen
    have hmul : 1 * 10 ^ sW.length ≤ (chW.toNat - 0x30) * 10 ^ sW.length :=
      Nat.mul_le_mul_right _ (by omega)
    rw [number_cons, List.length_cons, Nat.add_sub_cancel]
    omega

/-- Numbers of as many digits, by their first digit. -/
theorem number_cons_lt {ch1 ch2 : WChar} {sW sW' : List WChar} (h : IsDigits (ch1 :: sW))
    (hlen : sW.length = sW'.length) (hlt : ch1.toNat < ch2.toNat) :
    number (ch1 :: sW) < number (ch2 :: sW') := by
  have hrest := number_lt h.tail
  have hch := h ch1 List.mem_cons_self
  have hmul : (ch1.toNat - 0x30 + 1) * 10 ^ sW.length ≤ (ch2.toNat - 0x30) * 10 ^ sW.length :=
    Nat.mul_le_mul_right _ (by omega)
  rw [Nat.add_mul, Nat.one_mul] at hmul
  rw [number_cons, number_cons, ← hlen]
  omega

theorem compare_congr {a b c d : Nat} (hlt : a < b ↔ c < d) (hgt : b < a ↔ d < c) :
    compare a b = compare c d := by
  simp only [Nat.compare_eq_ite_lt, hlt, hgt]

/-- **Digits are compared from the left**, after their count. -/
theorem numericCompare_eq {sW sW' : List WChar} (h : IsDigits sW) (h' : IsDigits sW') :
    numericCompare sW sW' =
      if sW.length = sW'.length then compare (number sW) (number sW')
      else compare sW.length sW'.length := by
  induction sW generalizing sW' with
  | nil =>
    cases sW' with
    | nil => rfl
    | cons ch2 sW' =>
      rw [numericCompare, if_neg (by simp)]
      exact (Nat.compare_eq_lt.mpr (by simp)).symm
  | cons ch1 sW ih =>
    cases sW' with
    | nil =>
      rw [numericCompare, if_neg (by simp)]
      exact (Nat.compare_eq_gt.mpr (by simp)).symm
    | cons ch2 sW' =>
      have hcount : compare (ch1 :: sW).length (ch2 :: sW').length = compare sW.length sW'.length := by
        rw [List.length_cons, List.length_cons]
        exact compare_congr (by omega) (by omega)
      rw [numericCompare, hcount]
      simp only [List.length_cons, Nat.add_right_cancel_iff]
      by_cases heq : ch1 = ch2
      · subst heq
        rw [if_pos (beq_self_eq_true ch1), ih h.tail h'.tail]
        by_cases hlen : sW.length = sW'.length
        · rw [if_pos hlen, if_pos hlen, number_cons, number_cons, hlen]
          exact compare_congr (by omega) (by omega)
        · rw [if_neg hlen, if_neg hlen]
      · rw [if_neg (by simpa using heq)]
        rcases Nat.lt_trichotomy sW.length sW'.length with hlt | hlen | hgt
        · rw [if_pos hlt, if_neg (by omega), Nat.compare_eq_lt.mpr hlt]
        · rw [if_neg (by omega), if_neg (by omega), if_pos hlen]
          by_cases hch : ch1 < ch2
          · rw [if_pos hch,
              Nat.compare_eq_lt.mpr (number_cons_lt h hlen (UInt16.lt_iff_toNat_lt.mp hch))]
          · have hne : ch1.toNat ≠ ch2.toNat := fun hh => heq (UInt16.toNat_inj.mp hh)
            rw [UInt16.lt_iff_toNat_lt] at hch
            rw [if_neg (by rwa [UInt16.lt_iff_toNat_lt]),
              Nat.compare_eq_gt.mpr (number_cons_lt h' hlen.symm (by omega))]
        · rw [if_neg (by omega), if_pos hgt, if_neg (by omega), Nat.compare_eq_gt.mpr hgt]

/-- **`NumericCompare` compares numbers** that are written without leading zeros. -/
theorem numericCompare_canonical {sW sW' : List WChar} (h : Canonical sW) (h' : Canonical sW') :
    numericCompare sW sW' = compare (number sW) (number sW') := by
  have hfew : ∀ {l l' : List WChar}, Canonical l → Canonical l' → l.length < l'.length →
      number l < number l' := by
    intro l l' hl hl' hlt
    have hpos := List.length_pos_iff.mpr hl.ne_nil
    have hle := hl'.le_number (by omega)
    have hpow : 10 ^ l.length ≤ 10 ^ (l'.length - 1) := Nat.pow_le_pow_right (by omega) (by omega)
    have := number_lt hl.digits
    omega
  rw [numericCompare_eq h.digits h'.digits]
  rcases Nat.lt_trichotomy sW.length sW'.length with hlt | hlen | hgt
  · rw [if_neg (by omega), Nat.compare_eq_lt.mpr hlt, Nat.compare_eq_lt.mpr (hfew h h' hlt)]
  · rw [if_pos hlen]
  · rw [if_neg (by omega), Nat.compare_eq_gt.mpr hgt, Nat.compare_eq_gt.mpr (hfew h' h hgt)]

theorem digitChar_eq {chW : WChar} (h : 0x30 ≤ chW.toNat) (h' : chW.toNat ≤ 0x39) :
    UInt16.ofNat (Nat.digitChar (chW.toNat - 0x30)).toNat = chW := by
  have hall : ∀ n < 10, (Nat.digitChar n).toNat = 0x30 + n := by decide
  rw [hall _ (by omega), Nat.add_sub_cancel' h]
  exact UInt16.ofNat_toNat

/-- **A numeral is the decimal text of its number.** -/
theorem Canonical.eq_decimalText {sW : List WChar} (h : Canonical sW) : sW = decimalText (number sW) := by
  induction sW using List.reverseRecOn with
  | nil => exact absurd rfl h.ne_nil
  | append_singleton sW chW ih =>
    have hch := h.digits chW (by simp)
    have hdigit := digitChar_eq hch.1 hch.2
    rw [number_append_singleton]
    by_cases hnil : sW = []
    · subst hnil
      rw [decimalText, show number [] = 0 from rfl, Nat.zero_mul, Nat.zero_add,
        Nat.toDigits_of_lt_base (by omega), List.map_singleton, hdigit]
      rfl
    · obtain ⟨ch1, rest, rfl⟩ := List.exists_cons_of_ne_nil hnil
      have hhead : ch1 ≠ zeroW := by
        intro hzero
        have := congrArg List.length (h.head (by rw [hzero]; rfl))
        simp at this
      have hinit : Canonical (ch1 :: rest) := by
        refine ⟨hnil, fun c hc => h.digits c (List.mem_append_left _ hc), fun hh => ?_⟩
        exact absurd (Option.some.inj hh) hhead
      have hpos : 0 < number (ch1 :: rest) := by
        have h1 := h.digits ch1 (by simp)
        have hne : ch1.toNat ≠ 0x30 := fun hh => hhead (UInt16.toNat_inj.mp hh)
        rw [number_cons]
        exact Nat.add_pos_left (Nat.mul_pos (by omega) (Nat.pow_pos (by omega))) _
      rw [decimalText, Nat.toDigits_of_base_le (by omega) (by omega), List.map_append, List.map_singleton,
        show (number (ch1 :: rest) * 10 + (chW.toNat - 0x30)) / 10 = number (ch1 :: rest) by omega,
        show (number (ch1 :: rest) * 10 + (chW.toNat - 0x30)) % 10 = chW.toNat - 0x30 by omega, hdigit]
      exact congrArg (· ++ [chW]) (ih hinit)

/-- The first digit of a big number is not a zero. -/
theorem canonical_of_le {sW : List WChar} (hne : sW ≠ []) (h : IsDigits sW)
    (hle : 10 ^ (sW.length - 1) ≤ number sW) : Canonical sW := by
  refine ⟨hne, h, fun hhead => ?_⟩
  obtain ⟨chW, rest, rfl⟩ := List.exists_cons_of_ne_nil hne
  obtain rfl : chW = zeroW := Option.some.inj hhead
  have hrest := number_lt h.tail
  have hzero : zeroW.toNat - 0x30 = 0 := rfl
  rw [number_cons, hzero, Nat.zero_mul, Nat.zero_add, List.length_cons, Nat.add_sub_cancel] at hle
  omega

/-! ### Indexes -/

/-- The text of an index. -/
structure IsIndex (sW : List WChar) : Prop where
  ne_nil : sW ≠ []
  not_mem : (0 : WChar) ∉ sW
  canonical : isNumeric sW = true → Canonical sW

theorem isNumeric_iff {sW : List WChar} (h : (0 : WChar) ∉ sW) : isNumeric sW = true ↔ IsDigits sW := by
  rw [isNumeric, szStr_of_ne_zero fun chW hch hzero => h (hzero ▸ hch), List.all_eq_true]
  refine forall₂_congr fun chW _ => ?_
  rw [Bool.and_eq_true, decide_eq_true_eq, decide_eq_true_eq, UInt16.le_iff_toNat_le,
    UInt16.le_iff_toNat_le]
  exact Iff.rfl

theorem Canonical.isIndex {sW : List WChar} (h : Canonical sW) : IsIndex sW :=
  ⟨h.ne_nil, fun hzero => absurd (h.digits 0 hzero).1 (by decide), fun _ => h⟩

theorem zeroW_canonical : Canonical [zeroW] := by
  refine ⟨List.cons_ne_nil _ _, fun chW hch => ?_, fun _ => rfl⟩
  rw [List.mem_singleton.mp hch]
  decide

theorem trimIndex_isIndex {sW : List WChar} (hne : sW ≠ []) (h : (0 : WChar) ∉ sW) :
    IsIndex (trimIndex sW) := by
  rw [trimIndex]
  split
  next hnumeric =>
    simp only [Bool.and_eq_true, isNumeric_iff h] at hnumeric
    have hsuffix := List.dropWhile_suffix (l := sW) (· == zeroW)
    split
    · exact zeroW_canonical.isIndex
    next hnil =>
      refine Canonical.isIndex ⟨hnil, fun chW hch => hnumeric.2 chW (hsuffix.subset hch), fun hhead => ?_⟩
      have hnot := List.head?_dropWhile_not (· == zeroW) sW
      rw [hhead] at hnot
      simp at hnot
  next hnumeric =>
    refine ⟨hne, h, fun hn => absurd hn ?_⟩
    simpa [hne] using hnumeric

/-- **Every index of a name** is in its stored form. -/
theorem isIndex_of_parseIndexes {nLeft : Nat} {szNameW : List WChar}
    {aSubIndexesList : List (Option (List WChar))} (hzero : (0 : WChar) ∉ szNameW)
    (h : parseIndexes nLeft szNameW = .ok aSubIndexesList) {sW : List WChar}
    (hsW : some sW ∈ aSubIndexesList) : IsIndex sW := by
  induction nLeft generalizing szNameW aSubIndexesList with
  | zero =>
    cases szNameW with
    | nil =>
      obtain rfl := Except.ok.inj h
      exact absurd hsW List.not_mem_nil
    | cons chW szNameW =>
      rw [parseIndexes] at h
      split at h <;> cases h
  | succ nLeft ih =>
    cases szNameW with
    | nil =>
      obtain rfl := Except.ok.inj h
      exact absurd hsW List.not_mem_nil
    | cons chW szNameW =>
      have htail : (0 : WChar) ∉ szNameW := fun hmem => hzero (List.mem_cons_of_mem _ hmem)
      rw [parseIndexes] at h
      split at h
      · split at h
        · cases h
        next chEnd rest hrest =>
          have hdrop : rest ⊆ szNameW := fun c hc =>
            (List.dropWhile_suffix (· != closeBracketW)).subset (hrest ▸ List.mem_cons_of_mem _ hc)
          cases hr : parseIndexes nLeft rest with
          | error hRes =>
            rw [hr] at h
            cases h
          | ok r =>
            rw [hr] at h
            obtain rfl := Except.ok.inj h
            rcases List.mem_cons.mp hsW with hhead | hmem
            · rw [detach] at hhead
              split at hhead
              · cases hhead
              next hne =>
                obtain rfl := Option.some.inj hhead
                have hne' : (szNameW.takeWhile (· != closeBracketW)).map dotToUnderscore ≠ [] := by
                  intro hnil
                  rw [hnil] at hne
                  exact hne rfl
                refine trimIndex_isIndex hne' fun hmem => ?_
                obtain ⟨c, hc, hdot⟩ := List.mem_map.mp hmem
                have hcz : c ≠ 0 := fun hc0 => htail (hc0 ▸ (List.takeWhile_prefix _).subset hc)
                rw [dotToUnderscore] at hdot
                split at hdot
                · exact absurd hdot (by decide)
                · exact hcz hdot
            · exact ih (fun hmem => htail (hdrop hmem)) hr hmem
      · cases h

theorem isIndex_of_parseNameAndIndexes {szNameW cStrNameW : List WChar}
    {aSubIndexesList : List (Option (List WChar))}
    (h : parseNameAndIndexes szNameW = .ok (cStrNameW, aSubIndexesList)) {sW : List WChar}
    (hsW : some sW ∈ aSubIndexesList) : IsIndex sW := by
  rw [parseNameAndIndexes] at h
  split at h
  · cases h
  · cases hr : parseIndexes maxSubindexesCount ((szStr szNameW).dropWhile (· != bracketW)) with
    | error hRes =>
      rw [hr] at h
      cases h
    | ok r =>
      rw [hr] at h
      obtain ⟨-, rfl⟩ := Prod.mk.inj (Except.ok.inj h)
      refine isIndex_of_parseIndexes (fun hmem => ?_) hr hsW
      have := List.mem_takeWhile_imp ((List.dropWhile_suffix _).subset hmem)
      simp at this

/-! ### The index after the biggest one -/

namespace CField

theorem increment_spec {sW : List WChar} (h : IsDigits sW) :
    IsDigits (increment sW).1 ∧ (increment sW).1.length = sW.length ∧
      number (increment sW).1 + (if (increment sW).2 then 10 ^ sW.length else 0) = number sW + 1 := by
  induction sW with
  | nil => exact ⟨fun _ hc => absurd hc List.not_mem_nil, rfl, rfl⟩
  | cons chW sW ih =>
    obtain ⟨hdigits, hlen, hnumber⟩ := ih h.tail
    have hch := h chW List.mem_cons_self
    have hadd : (chW + 1).toNat = chW.toNat + 1 := by
      rw [UInt16.toNat_add]
      exact Nat.mod_eq_of_lt (by change chW.toNat + 1 < 65536; omega)
    have hcons : ∀ {ch : WChar} {l : List WChar}, 0x30 ≤ ch.toNat → ch.toNat ≤ 0x39 → IsDigits l →
        IsDigits (ch :: l) := fun hlo hhi hl c hc => by
      rcases List.mem_cons.mp hc with rfl | hc
      · exact ⟨hlo, hhi⟩
      · exact hl c hc
    rw [increment]
    cases hinc : increment sW with
    | mk l carry =>
      rw [hinc] at hdigits hlen hnumber
      dsimp only at hdigits hlen hnumber
      cases carry with
      | false =>
        rw [if_neg (by simp), Nat.add_zero] at hnumber
        refine ⟨hcons hch.1 hch.2 hdigits, by simp [hlen], ?_⟩
        simp only [number_cons, hlen, hnumber]
        rfl
      | true =>
        rw [if_pos rfl] at hnumber
        have hnine : chW + 1 ≤ nineW ↔ chW.toNat + 1 ≤ 0x39 := by
          rw [UInt16.le_iff_toNat_le, hadd]
          rfl
        dsimp only
        split
        next hle =>
          rw [hnine] at hle
          refine ⟨hcons (by omega) (by omega) hdigits, by simp [hlen], ?_⟩
          have hmul : chW.toNat + 1 - 0x30 = chW.toNat - 0x30 + 1 := by omega
          simp only [number_cons, hlen, hadd, hmul, Nat.add_mul, Nat.one_mul]
          simp only [Bool.false_eq_true, if_false]
          omega
        next hle =>
          rw [hnine] at hle
          have hsub : (chW + 1 - 10).toNat = 0x30 := by
            rw [UInt16.toNat_sub, hadd]
            change (65536 - 10 + (chW.toNat + 1)) % 65536 = 0x30
            omega
          have hten : chW.toNat - 0x30 = 9 := by omega
          refine ⟨hcons (by omega) (by omega) hdigits, by simp [hlen], ?_⟩
          simp only [number_cons, hlen, hsub, hten, List.length_cons, Nat.pow_succ, if_true]
          omega

/-- A numeral with 1 added to it. -/
def successor (sW : List WChar) : List WChar :=
  match increment sW with
  | (sW, false) => sW
  | (sW, true) => 0x31 :: sW

/-- **The increment of a numeral** without leading zeros has none either. -/
theorem successor_spec {sW : List WChar} (h : Canonical sW) :
    Canonical (successor sW) ∧ number (successor sW) = number sW + 1 := by
  obtain ⟨hdigits, hlen, hnumber⟩ := increment_spec h.digits
  have hpos := List.length_pos_iff.mpr h.ne_nil
  rw [successor]
  cases hinc : increment sW with
  | mk l carry =>
    rw [hinc] at hdigits hlen hnumber
    dsimp only at hdigits hlen hnumber
    cases carry with
    | false =>
      rw [if_neg (by simp), Nat.add_zero] at hnumber
      have hle : 10 ^ (l.length - 1) ≤ number l := by
        by_cases hone : sW.length = 1
        · rw [hlen, hone]
          omega
        · rw [hlen]
          have := h.le_number (by omega)
          omega
      have hne : l ≠ [] := List.length_pos_iff.mp (by omega)
      exact ⟨canonical_of_le hne hdigits hle, hnumber⟩
    | true =>
      rw [if_pos rfl] at hnumber
      refine ⟨⟨List.cons_ne_nil _ _, fun c hc => ?_, fun hh => absurd (Option.some.inj hh) (by decide)⟩, ?_⟩
      · rcases List.mem_cons.mp hc with rfl | hc
        · decide
        · exact hdigits c hc
      · have hone : (0x31 : WChar).toNat - 0x30 = 1 := rfl
        rw [number_cons, hone, hlen]
        omega

/-- The decimal text of a number is a numeral. -/
theorem decimalText_spec (n : Nat) : Canonical (decimalText n) ∧ number (decimalText n) = n := by
  induction n with
  | zero => exact ⟨zeroW_canonical, rfl⟩
  | succ n ih =>
    obtain ⟨hcan, hnumber⟩ := successor_spec ih.1
    rw [ih.2] at hnumber
    have heq := hcan.eq_decimalText
    rw [hnumber] at heq
    exact heq ▸ ⟨hcan, hnumber⟩

/-- The numbers among the names. -/
def numbers (aSubIndexesItems : List CField) : List Nat :=
  ((aSubIndexesItems.map name).filter isNumeric).map number

/-- The decimal numeral of the number after the biggest one. -/
def freshIndex (aSubIndexesItems : List CField) : List WChar :=
  match (numbers aSubIndexesItems).max? with
  | none => decimalText 0
  | some n => decimalText (n + 1)

/-- The loop over the names, behind one that is a number. -/
theorem foldl_biggest {aSubIndexesItems : List CField} (h : ∀ c ∈ aSubIndexesItems, IsIndex c.name)
    {cStrIndexW : List WChar} (hindex : Canonical cStrIndexW) :
    ∃ sW, aSubIndexesItems.foldl (fun cStrIndexW lpChildField =>
        if isNumeric lpChildField.name &&
            (cStrIndexW.isEmpty || numericLess cStrIndexW lpChildField.name) then lpChildField.name
        else cStrIndexW) cStrIndexW = sW ∧
      Canonical sW ∧ number sW = (numbers aSubIndexesItems).foldl max (number cStrIndexW) := by
  induction aSubIndexesItems generalizing cStrIndexW with
  | nil => exact ⟨cStrIndexW, rfl, hindex, rfl⟩
  | cons c items ih =>
    have hitems : ∀ c ∈ items, IsIndex c.name := fun c' hc' => h c' (List.mem_cons_of_mem _ hc')
    have hne : cStrIndexW.isEmpty = false := by simpa using hindex.ne_nil
    rw [List.foldl_cons, numbers, List.map_cons, hne, Bool.false_or]
    by_cases hnumeric : isNumeric c.name = true
    · have hcan := (h c List.mem_cons_self).canonical hnumeric
      rw [hnumeric, Bool.true_and, List.filter_cons_of_pos hnumeric, List.map_cons, List.foldl_cons,
        numericLess_eq, numericCompare_canonical hindex hcan]
      by_cases hlt : number cStrIndexW < number c.name
      · rw [Nat.compare_eq_lt.mpr hlt, if_pos (by rfl), Nat.max_eq_right (by omega)]
        exact ih hitems hcan
      · rw [if_neg (by rwa [beq_iff_eq, Nat.compare_eq_lt]), Nat.max_eq_left (by omega)]
        exact ih hitems hindex
    · rw [List.filter_cons_of_neg hnumeric, Bool.eq_false_of_not_eq_true hnumeric, Bool.false_and,
        if_neg Bool.false_ne_true]
      exact ih hitems hindex

/-- **The biggest index**, where there is a number. -/
theorem biggestIndex_spec {aSubIndexesItems : List CField} (h : ∀ c ∈ aSubIndexesItems, IsIndex c.name) :
    match (numbers aSubIndexesItems).max? with
    | none => biggestIndex aSubIndexesItems = []
    | some n => Canonical (biggestIndex aSubIndexesItems) ∧ number (biggestIndex aSubIndexesItems) = n := by
  induction aSubIndexesItems with
  | nil => rfl
  | cons c items ih =>
    have hitems : ∀ c ∈ items, IsIndex c.name := fun c' hc' => h c' (List.mem_cons_of_mem _ hc')
    by_cases hnumeric : isNumeric c.name = true
    · have hcan := (h c List.mem_cons_self).canonical hnumeric
      obtain ⟨sW, hfold, hsW, hnumber⟩ := foldl_biggest hitems hcan
      rw [biggestIndex, List.foldl_cons, numbers, List.map_cons, List.filter_cons_of_pos hnumeric, List.map_cons,
        List.max?_cons', List.isEmpty_nil, Bool.true_or, Bool.and_true, if_pos hnumeric]
      exact ⟨hfold ▸ hsW, hfold ▸ hnumber⟩
    · rw [biggestIndex, List.foldl_cons, numbers, List.map_cons, List.filter_cons_of_neg hnumeric,
        Bool.eq_false_of_not_eq_true hnumeric, Bool.false_and, if_neg Bool.false_ne_true]
      exact ih hitems

/-- **The index of an empty index** is the number after the biggest one. -/
theorem nextIndex_eq {aSubIndexesItems : List CField} (h : ∀ c ∈ aSubIndexesItems, IsIndex c.name) :
    nextIndex aSubIndexesItems = freshIndex aSubIndexesItems := by
  have hbiggest := biggestIndex_spec h
  rw [nextIndex, freshIndex]
  cases hmax : (numbers aSubIndexesItems).max? with
  | none =>
    rw [hmax] at hbiggest
    rw [show biggestIndex aSubIndexesItems = [] from hbiggest]
    rfl
  | some n =>
    rw [hmax] at hbiggest
    obtain ⟨hcan, rfl⟩ := hbiggest
    split
    next hnil => exact absurd hnil hcan.ne_nil
    · obtain ⟨hnext, hnumber⟩ := successor_spec hcan
      have htext := hnext.eq_decimalText
      rwa [hnumber] at htext

/-! ### An index that no field has -/

theorem lowerW_digit {chW : WChar} (h : chW.toNat ≤ 0x39) : lowerW chW = chW := by
  rw [lowerW, if_neg]
  rw [Bool.and_eq_true, decide_eq_true_eq, UInt16.le_iff_toNat_le]
  exact fun hupper => absurd (Nat.le_trans hupper.1 h) (by decide)

theorem eq_lowerW {chW : WChar} (h : (lowerW chW).toNat ≤ 0x39) : lowerW chW = chW := by
  rw [lowerW] at h ⊢
  split
  next hupper =>
    rw [if_pos hupper] at h
    simp only [Bool.and_eq_true, decide_eq_true_eq, UInt16.le_iff_toNat_le] at hupper
    have hlo : 0x41 ≤ chW.toNat := hupper.1
    have hhi : chW.toNat ≤ 0x5A := hupper.2
    rw [UInt16.toNat_add, Nat.mod_eq_of_lt (by change chW.toNat + 0x20 < 65536; omega)] at h
    change chW.toNat + 0x20 ≤ 0x39 at h
    omega
  · rfl

/-- Numerals have no letters. -/
theorem strCompareW_numeral {sW nameW : List WChar} (h : IsDigits sW) (hzero : (0 : WChar) ∉ nameW)
    (hcompare : strCompareW sW nameW true = true) : nameW = sW := by
  have hsW : szStr sW = sW := szStr_of_ne_zero fun ch hch hz => absurd (hz ▸ (h ch hch).1) (by decide)
  have hname : szStr nameW = nameW := szStr_of_ne_zero fun ch hch hz => hzero (hz ▸ hch)
  have hlower : sW.map lowerW = sW :=
    (List.map_congr_left fun chW hch => lowerW_digit (h chW hch).2).trans (List.map_id sW)
  simp only [strCompareW, if_true, beq_iff_eq, hsW, hname, hlower] at hcompare
  have hdigit : ∀ chW ∈ nameW, lowerW chW = chW := fun chW hch =>
    eq_lowerW (h _ (hcompare ▸ List.mem_map_of_mem hch)).2
  exact ((List.map_congr_left hdigit).trans (List.map_id nameW)).symm.trans hcompare.symm

theorem freshIndex_canonical (aSubIndexesItems : List CField) :
    Canonical (freshIndex aSubIndexesItems) := by
  rw [freshIndex]
  split
  · exact (decimalText_spec 0).1
  next n _ => exact (decimalText_spec (n + 1)).1

/-- **No field has the number after the biggest one.** -/
theorem freshIndex_fresh {aSubIndexesItems : List CField} (h : ∀ c ∈ aSubIndexesItems, IsIndex c.name)
    {c : CField} (hc : c ∈ aSubIndexesItems) :
    strCompareW (freshIndex aSubIndexesItems) c.name true = false := by
  refine Bool.eq_false_of_not_eq_true fun hcompare => ?_
  have hname := strCompareW_numeral (freshIndex_canonical _).digits (h c hc).not_mem hcompare
  have hnumeric : isNumeric c.name = true :=
    (isNumeric_iff (h c hc).not_mem).mpr (hname ▸ (freshIndex_canonical _).digits)
  have hmem : number c.name ∈ numbers aSubIndexesItems :=
    List.mem_map_of_mem (List.mem_filter.mpr ⟨List.mem_map_of_mem hc, hnumeric⟩)
  cases hmax : (numbers aSubIndexesItems).max? with
  | none =>
    rw [List.max?_eq_none_iff.mp hmax] at hmem
    exact List.not_mem_nil hmem
  | some n =>
    have hle := (List.max?_eq_some_iff.mp hmax).2 _ hmem
    rw [hname, freshIndex, hmax] at hle
    dsimp only at hle
    rw [(decimalText_spec (n + 1)).2] at hle
    omega

end CField

end MxLib.Http
