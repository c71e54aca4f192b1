import Mathlib.Tactic.IntervalCases
import MxLib.Http.HtmlEntities
import MxLib.Strings.Utf8RoundTrip

/-!
# What `ConvertTo` gives

The result of `ConvertTo` is safe to put in markup (`convertTo_safe`): it is made of
plain characters and complete references (`Escaped`).
-/

namespace MxLib.Http.HtmlEntities

/-! ### Escaped text -/

/-- A character that stands for itself in markup. -/
def IsPlain (c : Nat) : Prop :=
  32 ≤ c ∧ c ≠ 0x22 ∧ c ≠ 0x26 ∧ c ≠ 0x27 ∧ c ≠ 0x3C ∧ c ≠ 0x3E

/-- What stands between the `&` and the `;` of a reference: a name of the table, or
`#x` and two digits. -/
def IsReference (r : List Nat) : Prop :=
  (∃ d ∈ aHtmlEntities, r = d.szNameA.map UInt8.toNat) ∨
    ∃ hi lo, decodeDigit hi ≠ none ∧ decodeDigit lo ≠ none ∧ r = [0x23, 0x78, hi, lo]

/-- Text made of plain characters and references. -/
inductive Escaped : List Nat → Prop
  | nil : Escaped []
  | plain {c : Nat} {l : List Nat} : IsPlain c → Escaped l → Escaped (c :: l)
  | reference {r l : List Nat} : IsReference r → Escaped l → Escaped (0x26 :: (r ++ 0x3B :: l))

/-- Text that is safe in markup: no character with a meaning there, no control character,
and every `&` begins a reference. -/
structure IsSafe (l : List Nat) : Prop where
  noMarkup : ∀ c ∈ l, c ≠ 0x3C ∧ c ≠ 0x3E ∧ c ≠ 0x22 ∧ c ≠ 0x27
  noControl : ∀ c ∈ l, 32 ≤ c
  isReference : ∀ pre post, l = pre ++ 0x26 :: post →
    ∃ r rest, IsReference r ∧ post = r ++ 0x3B :: rest

theorem Escaped.append {l m : List Nat} (hl : Escaped l) (hm : Escaped m) : Escaped (l ++ m) := by
  induction hl with
  | nil => exact hm
  | plain hc _ ih => exact .plain hc ih
  | reference hr _ ih =>
    rw [List.cons_append, List.append_assoc, List.cons_append]
    exact .reference hr ih

theorem Escaped.of_plain {l : List Nat} (h : ∀ c ∈ l, IsPlain c) : Escaped l := by
  induction l with
  | nil => exact .nil
  | cons c l ih =>
    exact .plain (h c List.mem_cons_self) (ih fun c hc => h c (List.mem_cons_of_mem _ hc))

/-- The characters of a reference are plain. -/
theorem IsReference.plain {r : List Nat} (hr : IsReference r) : ∀ c ∈ r, IsPlain c := by
  intro c hc
  rcases hr with ⟨d, hd, rfl⟩ | ⟨hi, lo, hhi, hlo, rfl⟩
  · obtain ⟨ch, hch, rfl⟩ := List.mem_map.mp hc
    have hname := List.all_eq_true.mp (aHtmlEntities_names d hd).2.2.1 ch hch
    simp only [isNameCode, Bool.or_eq_true, Bool.and_eq_true, decide_eq_true_eq] at hname
    unfold IsPlain
    omega
  · have hdigit : ∀ c, decodeDigit c ≠ none → IsPlain c := by
      intro c hc
      unfold decodeDigit at hc
      unfold IsPlain
      split at hc
      · omega
      split at hc
      · omega
      split at hc
      · omega
      · exact absurd rfl hc
    simp only [List.mem_cons, List.not_mem_nil, or_false] at hc
    rcases hc with rfl | rfl | rfl | rfl
    · unfold IsPlain
      omega
    · unfold IsPlain
      omega
    · exact hdigit _ hhi
    · exact hdigit _ hlo

/-- Where the first `&` of a list is. -/
theorem cons_eq_append_cons {a b : Nat} {l pre post : List Nat} (h : a :: l = pre ++ b :: post) :
    (pre = [] ∧ a = b ∧ l = post) ∨ ∃ pre', pre = a :: pre' ∧ l = pre' ++ b :: post := by
  cases pre with
  | nil =>
    rw [List.nil_append, List.cons.injEq] at h
    exact .inl ⟨rfl, h.1, h.2⟩
  | cons c pre =>
    rw [List.cons_append, List.cons.injEq] at h
    exact .inr ⟨pre, by rw [h.1], h.2⟩

/-- An `&` behind plain characters. -/
theorem exists_of_plain_append {p l pre post : List Nat} (hp : ∀ c ∈ p, IsPlain c)
    (h : p ++ l = pre ++ 0x26 :: post) : ∃ pre', l = pre' ++ 0x26 :: post := by
  induction p generalizing pre with
  | nil => exact ⟨pre, h⟩
  | cons c p ih =>
    rw [List.cons_append] at h
    rcases cons_eq_append_cons h with ⟨-, hc, -⟩ | ⟨pre', -, hl⟩
    · exact absurd hc (hp c List.mem_cons_self).2.2.1
    · exact ih (fun c hc => hp c (List.mem_cons_of_mem _ hc)) hl

theorem isPlain_semicolon : IsPlain 0x3B := by
  unfold IsPlain
  omega

/-- **Escaped text is safe.** -/
theorem Escaped.isSafe {l : List Nat} (h : Escaped l) : IsSafe l := by
  induction h with
  | nil =>
    refine ⟨nofun, nofun, ?_⟩
    intro pre post h
    exact absurd (congrArg List.length h) (by simp)
  | @plain c l hc _ ih =>
    refine ⟨?_, ?_, ?_⟩
    · intro d hd
      rcases List.mem_cons.mp hd with rfl | hd
      · exact ⟨hc.2.2.2.2.1, hc.2.2.2.2.2, hc.2.1, hc.2.2.2.1⟩
      · exact ih.noMarkup d hd
    · intro d hd
      rcases List.mem_cons.mp hd with rfl | hd
      · exact hc.1
      · exact ih.noControl d hd
    · intro pre post h
      rcases cons_eq_append_cons h with ⟨-, hamp, -⟩ | ⟨pre', -, hl⟩
      · exact absurd hamp hc.2.2.1
      · exact ih.isReference pre' post hl
  | @reference r l hr _ ih =>
    have hplain : ∀ c ∈ r ++ [0x3B], IsPlain c := by
      intro c hc
      rcases List.mem_append.mp hc with hc | hc
      · exact hr.plain c hc
      · rw [List.mem_singleton.mp hc]
        exact isPlain_semicolon
    have hsplit : r ++ 0x3B :: l = r ++ [0x3B] ++ l := by
      rw [List.append_assoc, List.singleton_append]
    refine ⟨?_, ?_, ?_⟩
    · intro d hd
      rw [hsplit, List.mem_cons, List.mem_append] at hd
      rcases hd with rfl | hd | hd
      · decide
      · exact ⟨(hplain d hd).2.2.2.2.1, (hplain d hd).2.2.2.2.2, (hplain d hd).2.1,
          (hplain d hd).2.2.2.1⟩
      · exact ih.noMarkup d hd
    · intro d hd
      rw [hsplit, List.mem_cons, List.mem_append] at hd
      rcases hd with rfl | hd | hd
      · decide
      · exact (hplain d hd).1
      · exact ih.noControl d hd
    · intro pre post h
      rcases cons_eq_append_cons h with ⟨-, -, hpost⟩ | ⟨pre', -, hl⟩
      · exact ⟨r, l, hr, hpost.symm⟩
      · rw [hsplit] at hl
        obtain ⟨pre'', hl⟩ := exists_of_plain_append hplain hl
        exact ih.isReference pre'' post hl

/-! ### What `ConvertTo` adds -/

/-- The reference to a control character: two digits that give its value. -/
theorem hexReferenceW_eq {chW : WChar} (h : chW < 32) : ∃ hi lo, decodeDigit hi = some (chW.toNat / 16) ∧
    decodeDigit lo = some (chW.toNat % 16) ∧
      (hexReferenceW chW).map UInt16.toNat = [0x26, 0x23, 0x78, hi, lo, 0x3B] := by
  have hdigits : ∀ n < 32, ∃ hi lo, decodeDigit hi = some (n / 16) ∧
      decodeDigit lo = some (n % 16) ∧
        (hexReferenceW (.ofNat n)).map UInt16.toNat = [0x26, 0x23, 0x78, hi, lo, 0x3B] := by
    intro n hn
    interval_cases n <;> exact ⟨_, _, by decide, by decide, rfl⟩
  have hn : chW.toNat < 32 := by
    simpa only [UInt16.lt_iff_toNat_lt, UInt16.reduceToNat] using h
  simpa only [UInt16.ofNat_toNat] using hdigits chW.toNat hn

theorem hexReferenceA_eq {chA : Byte} (h : chA < 32) :
    (hexReferenceA chA).map UInt8.toNat = (hexReferenceW chA.toUInt16).map UInt16.toNat := by
  have hall : ∀ n < 32, (hexReferenceA (.ofNat n)).map UInt8.toNat =
      (hexReferenceW (UInt8.ofNat n).toUInt16).map UInt16.toNat := by
    decide
  have hn : chA.toNat < 32 := by
    simpa only [UInt8.lt_iff_toNat_lt, UInt8.reduceToNat] using h
  simpa only [UInt8.ofNat_toNat] using hall chA.toNat hn

theorem escaped_hexReferenceW {chW : WChar} (h : chW < 32) :
    Escaped ((hexReferenceW chW).map UInt16.toNat) := by
  obtain ⟨hi, lo, hhi, hlo, heq⟩ := hexReferenceW_eq h
  rw [heq]
  refine Escaped.reference (r := [0x23, 0x78, hi, lo]) (.inr ⟨hi, lo, ?_, ?_, rfl⟩) .nil
  · rw [hhi]
    exact Option.some_ne_none _
  · rw [hlo]
    exact Option.some_ne_none _

/-- The reference by name. -/
theorem escaped_name {chW : WChar} {szNameA : List Byte} (h : get chW = some szNameA) :
    Escaped (0x26 :: (szNameA.map UInt8.toNat ++ [0x3B])) :=
  .reference (.inl ⟨_, get_eq_some_iff.mp h, rfl⟩) .nil

/-- What has no name and is no control character is plain. -/
theorem isPlain_of_get {chW : WChar} (hge : ¬ chW < 32) (h : get chW = none) :
    IsPlain chW.toNat := by
  have hmarkup : ∀ c ∈ ([0x22, 0x26, 0x27, 0x3C, 0x3E] : List WChar), chW.toNat ≠ c.toNat := by
    intro c hc heq
    rw [UInt16.toNat_inj] at heq
    exact get_markup c hc (heq ▸ h)
  have hge' : 32 ≤ chW.toNat := by
    simpa only [UInt16.lt_iff_toNat_lt, UInt16.reduceToNat, Nat.not_lt] using hge
  simp only [List.forall_mem_cons, UInt16.reduceToNat] at hmarkup
  obtain ⟨h1, h2, h3, h4, h5, -⟩ := hmarkup
  exact ⟨hge', h1, h2, h3, h4, h5⟩

theorem map_nameReferenceA (szNameA : List Byte) :
    (nameReferenceA szNameA).map UInt8.toNat = 0x26 :: (szNameA.map UInt8.toNat ++ [0x3B]) := by
  rw [nameReferenceA, List.cons_append, List.map_cons, List.map_append]
  rfl

/-- A name is shorter than the buffer it is copied through. -/
theorem map_nameReferenceW {chW : WChar} {szNameA : List Byte} (h : get chW = some szNameA) :
    (nameReferenceW szNameA).map UInt16.toNat = 0x26 :: (szNameA.map UInt8.toNat ++ [0x3B]) := by
  have hlen : szNameA.length ≤ 8 := (aHtmlEntities_names _ (get_eq_some_iff.mp h)).2.1
  have htake : szNameA.take 32 = szNameA := List.take_of_length_le (by omega)
  have hcodes : (szNameA.map UInt8.toUInt16).map UInt16.toNat = szNameA.map UInt8.toNat := by
    rw [List.map_map]
    exact List.map_congr_left fun ch _ => UInt8.toNat_toUInt16 ch
  rw [nameReferenceW, htake, List.cons_append, List.map_cons, List.map_append, hcodes]
  rfl

/-! ### The loops of `ConvertTo` -/

theorem forall_take_of_charAt {sA : List Byte} {n : Nat} {P : Byte → Prop}
    (h : ∀ k < n, P (charAt sA k)) : ∀ ch ∈ sA.take n, P ch := by
  intro ch hch
  obtain ⟨k, hk, rfl⟩ := List.mem_iff_getElem.mp hch
  rw [List.length_take] at hk
  rw [List.getElem_take]
  have hP := h k (by omega)
  have hlen : k < sA.length := by omega
  rwa [charAt, List.getD_eq_getElem?_getD, List.getElem?_eq_getElem hlen, Option.getD_some] at hP

/-- The bytes of a character that is not ASCII are not ASCII either. -/
theorem le_of_utf8DecodeChar {sA : List Byte} {ch0 ch1 : WChar} {res : Nat}
    (h : utf8DecodeChar sA = some (ch0, ch1, res)) (hlead : 0x80 ≤ (charAt sA 0).toNat) :
    ∀ ch ∈ sA.take res, 0x80 ≤ ch.toNat := by
  refine forall_take_of_charAt ?_
  intro k hk
  by_cases h1 : (charAt sA 0).toNat < 0xC2 ∨ 0xF8 < (charAt sA 0).toNat
  · rw [utf8DecodeChar_none (by omega)] at h
    cases h
  by_cases h2 : (charAt sA 0).toNat ≤ 0xDF
  · rw [utf8DecodeChar_two (by omega) h2, Option.ite_none_right_eq_some, Option.some.injEq,
      Prod.mk.injEq, Prod.mk.injEq] at h
    obtain ⟨⟨-, hc⟩, -, -, rfl⟩ := h
    interval_cases k
    · exact hlead
    · exact ((isContinuation_iff _).mp hc).1
  · rw [utf8DecodeChar_three (by omega) (by omega), Option.ite_none_right_eq_some,
      Option.some.injEq, Prod.mk.injEq, Prod.mk.injEq] at h
    obtain ⟨⟨-, -, hc, hd⟩, -, -, rfl⟩ := h
    interval_cases k
    · exact hlead
    · exact ((isContinuation_iff _).mp hc).1
    · exact ((isContinuation_iff _).mp hd).1

theorem isPlain_of_le {c : Nat} (h : 0x80 ≤ c) : IsPlain c := by
  unfold IsPlain
  omega

/-- A byte that is copied by itself. -/
theorem isPlain_of_utf8DecodeChar_none {chA : Byte} {rest : List Byte}
    (h : utf8DecodeChar (chA :: rest) = none) : IsPlain chA.toNat := by
  refine isPlain_of_le (Nat.le_of_not_lt fun hlt => ?_)
  have hascii : chA < 0x80 := by
    simpa only [UInt8.lt_iff_toNat_lt, UInt8.reduceToNat] using hlt
  rw [utf8DecodeChar_ascii hascii] at h
  cases h

/-- A character that is copied: an ASCII one has no name. -/
theorem isPlain_of_utf8DecodeChar {chA : Byte} {rest : List Byte} {chW0 chW1 : WChar} {nChars : Nat}
    (hge : ¬ chA < 32) (h : utf8DecodeChar (chA :: rest) = some (chW0, chW1, nChars))
    (hget : (if chW1 == 0 then get chW0 else none) = none) :
    ∀ ch ∈ (chA :: rest).take nChars, IsPlain ch.toNat := by
  by_cases hascii : chA < 0x80
  · rw [utf8DecodeChar_ascii hascii, Option.some.injEq, Prod.mk.injEq, Prod.mk.injEq] at h
    obtain ⟨rfl, rfl, rfl⟩ := h
    rw [if_pos (beq_self_eq_true _)] at hget
    intro ch hch
    rw [List.take_succ_cons, List.take_zero, List.mem_singleton] at hch
    rw [hch, ← UInt8.toNat_toUInt16]
    refine isPlain_of_get ?_ hget
    simpa only [UInt16.lt_iff_toNat_lt, UInt8.lt_iff_toNat_lt, UInt8.toNat_toUInt16,
      UInt8.reduceToNat, UInt16.reduceToNat] using hge
  · intro ch hch
    refine isPlain_of_le (le_of_utf8DecodeChar h ?_ ch hch)
    simpa only [UInt8.lt_iff_toNat_lt, UInt8.reduceToNat, Nat.not_lt, charAt_cons_zero] using hascii

/-- What the narrow loop adds is escaped. -/
theorem escaped_convertToFromA (fuel : Nat) (szStrA run cStrA : List Byte)
    (hrun : Escaped (run.map UInt8.toNat)) (hstr : Escaped (cStrA.map UInt8.toNat)) :
    Escaped ((convertToFromA fuel szStrA run cStrA).map UInt8.toNat) := by
  have hboth : ∀ {run cStrA : List Byte}, Escaped (run.map UInt8.toNat) →
      Escaped (cStrA.map UInt8.toNat) → Escaped ((cStrA ++ run).map UInt8.toNat) := by
    intro run cStrA hrun hstr
    rw [List.map_append]
    exact hstr.append hrun
  induction fuel generalizing szStrA run cStrA with
  | zero => exact hboth hrun hstr
  | succ fuel ih =>
    cases szStrA with
    | nil => exact hboth hrun hstr
    | cons chA rest =>
      rw [convertToFromA]
      split
      case isTrue hlt =>
        refine ih _ _ _ .nil (hboth ?_ (hboth hrun hstr))
        rw [hexReferenceA_eq hlt]
        refine escaped_hexReferenceW ?_
        simpa only [UInt16.lt_iff_toNat_lt, UInt8.lt_iff_toNat_lt, UInt8.toNat_toUInt16,
          UInt8.reduceToNat, UInt16.reduceToNat] using hlt
      case isFalse hge =>
        split
        case h_1 hnone =>
          refine ih _ _ _ (hboth (.plain ?_ .nil) hrun) hstr
          exact isPlain_of_utf8DecodeChar_none hnone
        case h_2 chW0 chW1 nChars hsome =>
          split
          case h_1 szEntityA hget =>
            rw [Option.ite_none_right_eq_some] at hget
            refine ih _ _ _ .nil (hboth ?_ (hboth hrun hstr))
            rw [map_nameReferenceA]
            exact escaped_name hget.2
          case h_2 hget =>
            refine ih _ _ _ (hboth (Escaped.of_plain ?_) hrun) hstr
            intro c hc
            obtain ⟨ch, hch, rfl⟩ := List.mem_map.mp hc
            exact isPlain_of_utf8DecodeChar hge hsome hget ch hch

set_option maxRecDepth 4000 in
theorem convertToFromW_cons (chW : WChar) (rest run cStrW : List WChar) :
    convertToFromW (chW :: rest) run cStrW =
      if chW < 32 then convertToFromW rest [] (cStrW ++ run ++ hexReferenceW chW)
      else
        match get chW with
        | some szEntityA => convertToFromW rest [] (cStrW ++ run ++ nameReferenceW szEntityA)
        | none => convertToFromW rest (run ++ [chW]) cStrW := rfl

/-- What the wide loop adds is escaped. -/
theorem escaped_convertToFromW (szStrW run cStrW : List WChar)
    (hrun : Escaped (run.map UInt16.toNat)) (hstr : Escaped (cStrW.map UInt16.toNat)) :
    Escaped ((convertToFromW szStrW run cStrW).map UInt16.toNat) := by
  have hboth : ∀ {run cStrW : List WChar}, Escaped (run.map UInt16.toNat) →
      Escaped (cStrW.map UInt16.toNat) → Escaped ((cStrW ++ run).map UInt16.toNat) := by
    intro run cStrW hrun hstr
    rw [List.map_append]
    exact hstr.append hrun
  induction szStrW generalizing run cStrW with
  | nil => exact hboth hrun hstr
  | cons chW rest ih =>
    rw [convertToFromW_cons]
    split
    case isTrue hlt => exact ih _ _ .nil (hboth (escaped_hexReferenceW hlt) (hboth hrun hstr))
    case isFalse hge =>
      split
      case h_1 szEntityA hget =>
        refine ih _ _ .nil (hboth ?_ (hboth hrun hstr))
        rw [map_nameReferenceW hget]
        exact escaped_name hget
      case h_2 hget =>
        exact ih _ _ (hboth (.plain (isPlain_of_get hge hget) .nil) hrun) hstr

/-- **What `ConvertTo` gives is safe in markup**, for every string of bytes and for every
string of units. -/
theorem convertTo_safe :
    (∀ szStrA : List Byte, IsSafe ((convertToA szStrA).map UInt8.toNat)) ∧
      ∀ szStrW : List WChar, IsSafe ((convertToW szStrW).map UInt16.toNat) := by
  constructor
  · intro szStrA
    exact (escaped_convertToFromA _ szStrA [] [] .nil .nil).isSafe
  · intro szStrW
    exact (escaped_convertToFromW szStrW [] [] .nil .nil).isSafe

end MxLib.Http.HtmlEntities
