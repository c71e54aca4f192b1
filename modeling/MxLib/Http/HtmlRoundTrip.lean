import MxLib.Http.HtmlEscaping

/-!
# Decoding what `ConvertTo` gives

`ConvertFrom` gives the text back only in part (`convertFrom_convertTo_iff`).  `Decode`
does not take a name at the very end of the text, because it asks for one character
more than there is; and the loop for narrow strings never moves the start of the run,
so that every reference leaves the text before it in the result once more.
-/

namespace MxLib.Http.HtmlEntities

open MxLib.Library.Unicode

/-! ### Decoding one reference -/

theorem decode_of_ne {c : Nat} (h : c ≠ 0x26) (szStr : List Nat) : decode (c :: szStr) = none := by
  cases szStr with
  | nil => exact if_pos h
  | cons c1 rest => exact if_pos h

/-- A digit that the number has room for. -/
theorem decodeDigits_cons {nBase chW : WChar} {c d n : Nat} (l : List Nat)
    (hdigit : decodeDigit c = some d) (hd : d < nBase.toNat) (hmul : ¬ chW * nBase < chW)
    (hadd : ¬ chW * nBase + .ofNat d < chW * nBase) :
    decodeDigits nBase (c :: l) chW n = decodeDigits nBase l (chW * nBase + .ofNat d) (n + 1) := by
  have hsemi : c ≠ 0x3B := by
    rintro rfl
    cases hdigit
  have hzero : c ≠ 0 := by
    rintro rfl
    cases hdigit
  rw [decodeDigits, if_neg hsemi, if_neg hzero, hdigit]
  simp only [ge_iff_le]
  rw [if_neg (Nat.not_le.mpr hd), if_neg hmul, if_neg hadd]

/-- The reference to a control character is read, wherever it stands. -/
theorem decode_hex {n hi lo : Nat} (hn : n < 32) (hhi : decodeDigit hi = some (n / 16))
    (hlo : decodeDigit lo = some (n % 16)) (l : List Nat) :
    decode (0x26 :: 0x23 :: 0x78 :: hi :: lo :: 0x3B :: l) = some (.ofNat n, 6) := by
  have hvalue : ∀ n < 32, ¬ (0 * 16 + .ofNat (n / 16) : WChar) * 16 < 0 * 16 + .ofNat (n / 16) ∧
      ¬ (0 * 16 + .ofNat (n / 16) : WChar) * 16 + .ofNat (n % 16) <
        (0 * 16 + .ofNat (n / 16)) * 16 ∧
      (0 * 16 + .ofNat (n / 16) : WChar) * 16 + .ofNat (n % 16) = .ofNat n ∧
      ¬ (0 * 16 + .ofNat (n / 16) : WChar) < 0 * 16 := by
    decide
  obtain ⟨hmul, hadd, heq, hfirst⟩ := hvalue n hn
  have h16 : (16 : WChar).toNat = 16 := rfl
  have hread : decode (0x26 :: 0x23 :: 0x78 :: hi :: lo :: 0x3B :: l) =
      decodeDigits 16 (hi :: lo :: 0x3B :: l) 0 3 := by
    rw [decode, if_neg (not_not_intro rfl), if_pos rfl]
    exact if_pos (Or.inl rfl)
  rw [hread, decodeDigits_cons _ hhi (by omega) (by decide) hfirst,
    decodeDigits_cons _ hlo (by omega) hmul hadd, heq, decodeDigits, if_pos rfl]

/-- A name is found in the text only if the text has exactly this name, and something
behind the semicolon. -/
theorem matchesName_iff {r : List Nat} (hr : ∀ c ∈ r, c ≠ 0x3B) {szNameA : List Byte}
    (hname : ∀ ch ∈ szNameA, ch.toNat ≠ 0x3B) (l : List Nat) :
    matchesName (r ++ 0x3B :: l) szNameA = true ↔ szNameA.map UInt8.toNat = r ∧ l ≠ [] := by
  rw [matchesName, Bool.and_eq_true, Bool.and_eq_true, List.isPrefixOf_iff_prefix,
    decide_eq_true_iff, beq_iff_eq]
  constructor
  · rintro ⟨⟨hstart, hlen⟩, hsemi⟩
    have hnotmem : 0x3B ∉ szNameA.map UInt8.toNat := by
      intro hmem
      obtain ⟨ch, hch, heq⟩ := List.mem_map.mp hmem
      exact hname ch hch heq
    have heq : szNameA.map UInt8.toNat = r := by
      obtain ⟨t, ht⟩ := hstart
      rcases List.append_eq_append_iff.mp ht with ⟨a, hra, hta⟩ | ⟨a, hna, hta⟩
      · cases a with
        | nil => rw [hra, List.append_nil]
        | cons c a =>
          have hget : (r ++ 0x3B :: l)[szNameA.length]? = some c := by
            rw [hra, List.append_assoc, List.getElem?_append_right (by simp), List.length_map,
              Nat.sub_self]
            rfl
          rw [hget, Option.some.injEq] at hsemi
          refine absurd hsemi (hr c ?_)
          rw [hra]
          exact List.mem_append_right _ List.mem_cons_self
      · cases a with
        | nil => rw [hna, List.append_nil]
        | cons c a =>
          rw [List.cons_append, List.cons.injEq] at hta
          rw [hna, ← hta.1] at hnotmem
          exact absurd (List.mem_append_right _ List.mem_cons_self) hnotmem
    refine ⟨heq, ?_⟩
    rintro rfl
    have hlen' := congrArg List.length heq
    rw [List.length_map] at hlen'
    rw [List.length_append, List.length_singleton] at hlen
    omega
  · rintro ⟨rfl, hl⟩
    have hpos := List.length_pos_iff.mpr hl
    refine ⟨⟨List.prefix_append _ _, ?_⟩, ?_⟩
    · rw [List.length_append, List.length_cons, List.length_map]
      omega
    · rw [List.getElem?_append_right (by simp), List.length_map, Nat.sub_self]
      rfl

/-- A name that the table has is read, unless the text ends behind it. -/
theorem decode_name {u : WChar} {szNameA : List Byte} (h : get u = some szNameA) (l : List Nat) :
    decode (0x26 :: (szNameA.map UInt8.toNat ++ 0x3B :: l)) =
      if l = [] then none else some (u, szNameA.length + 2) := by
  have hmem := get_eq_some_iff.mp h
  have hsemi : ∀ d ∈ aHtmlEntities, ∀ ch ∈ d.szNameA, ch.toNat ≠ 0x3B := by
    intro d hd ch hch
    have hall := List.all_eq_true.mp (aHtmlEntities_names d hd).2.2.1 ch hch
    rintro heq
    rw [heq] at hall
    cases hall
  have hmatch : ∀ d ∈ aHtmlEntities, matchesName (szNameA.map UInt8.toNat ++ 0x3B :: l) d.szNameA =
      true ↔ d.szNameA = szNameA ∧ l ≠ [] := by
    intro d hd
    have hr : ∀ c ∈ szNameA.map UInt8.toNat, c ≠ 0x3B := by
      intro c hc
      obtain ⟨ch, hch, rfl⟩ := List.mem_map.mp hc
      exact hsemi _ hmem ch hch
    rw [matchesName_iff hr (hsemi d hd)]
    refine and_congr_left fun _ => ⟨fun heq => ?_, fun heq => by rw [heq]⟩
    exact List.map_injective_iff.mpr (fun a b => UInt8.toNat_inj.mp) heq
  cases szNameA with
  | nil =>
    have hlen := (aHtmlEntities_names _ hmem).1
    rw [List.length_nil] at hlen
    omega
  | cons ch szNameA =>
    have hread : decode (0x26 :: ((ch :: szNameA).map UInt8.toNat ++ 0x3B :: l)) =
        (aHtmlEntities.find? fun d =>
          matchesName ((ch :: szNameA).map UInt8.toNat ++ 0x3B :: l) d.szNameA).map fun d =>
            (d.chCharCodeW, 1 + d.szNameA.length + 1) := by
      have hhash : ch.toNat ≠ 0x23 := by
        have hall := List.all_eq_true.mp (aHtmlEntities_names _ hmem).2.2.1 ch List.mem_cons_self
        rintro heq
        rw [heq] at hall
        cases hall
      exact if_neg hhash
    rw [hread]
    by_cases hl : l = []
    · rw [if_pos hl, Option.map_eq_none_iff, List.find?_eq_none]
      intro d hd hm
      exact ((hmatch d hd).mp hm).2 hl
    · rw [if_neg hl]
      cases hfind : aHtmlEntities.find? fun d =>
          matchesName ((ch :: szNameA).map UInt8.toNat ++ 0x3B :: l) d.szNameA with
      | none =>
        have hnone := List.find?_eq_none.mp hfind _ hmem
        exact absurd ((hmatch _ hmem).mpr ⟨rfl, hl⟩) hnone
      | some d =>
        have hd := List.mem_of_find?_eq_some hfind
        have hname := ((hmatch d hd).mp (List.find?_eq_some_iff_append.mp hfind).1).1
        obtain rfl := List.inj_on_of_nodup_map names_nodup hd hmem hname
        rw [Option.map_some, Nat.add_comm 1, Nat.add_assoc]

theorem decodeNonzero_of_ne {c : Nat} (h : c ≠ 0x26) (szStr : List Nat) :
    decodeNonzero (c :: szStr) = none := by
  rw [decodeNonzero, decode_of_ne h]
  rfl

theorem decodeNonzero_of_some {szStr : List Nat} {u : WChar} {n : Nat}
    (h : decode szStr = some (u, n)) (hu : u ≠ 0) : decodeNonzero szStr = some (u, n) := by
  rw [decodeNonzero, h, Option.filter_some, if_pos (bne_iff_ne.mpr hu)]

theorem decodeNonzero_of_none {szStr : List Nat} (h : decode szStr = none) :
    decodeNonzero szStr = none := by
  rw [decodeNonzero, h]
  rfl

/-! ### What `ConvertTo` makes of one unit -/

/-- The text that `ConvertTo` puts for a unit. -/
def escapeUnit (u : WChar) : List WChar :=
  if u < 32 then hexReferenceW u
  else
    match get u with
    | some szEntityA => nameReferenceW szEntityA
    | none => [u]

theorem length_nameReferenceW {u : WChar} {szNameA : List Byte} (h : get u = some szNameA) :
    (nameReferenceW szNameA).length = szNameA.length + 2 := by
  have hlen := congrArg List.length (map_nameReferenceW h)
  rwa [List.length_map, List.length_cons, List.length_append, List.length_map] at hlen

theorem two_le_length_name {u : WChar} {szNameA : List Byte} (h : get u = some szNameA) :
    2 ≤ szNameA.length :=
  (aHtmlEntities_names _ (get_eq_some_iff.mp h)).1

theorem escapeUnit_of_get {u : WChar} {szNameA : List Byte} (h : get u = some szNameA) :
    escapeUnit u = nameReferenceW szNameA := by
  have hcode : 32 ≤ u.toNat := (aHtmlEntities_names _ (get_eq_some_iff.mp h)).2.2.2.1
  have hge : ¬ u < 32 := by
    simp only [UInt16.lt_iff_toNat_lt, UInt16.reduceToNat]
    omega
  rw [escapeUnit, if_neg hge, h]

theorem escapeUnit_of_none {u : WChar} (hge : ¬ u < 32) (h : get u = none) : escapeUnit u = [u] := by
  rw [escapeUnit, if_neg hge, h]

/-- `ConvertTo` for wide strings goes unit by unit. -/
theorem convertToFromW_eq (szStrW run cStrW : List WChar) :
    convertToFromW szStrW run cStrW = cStrW ++ run ++ szStrW.flatMap escapeUnit := by
  induction szStrW generalizing run cStrW with
  | nil =>
    rw [List.flatMap_nil, List.append_nil]
    rfl
  | cons u rest ih =>
    rw [convertToFromW_cons, List.flatMap_cons]
    split
    case isTrue hlt =>
      rw [ih, escapeUnit, if_pos hlt, List.append_nil, List.append_assoc _ _ (rest.flatMap _)]
    case isFalse hge =>
      split
      case h_1 szEntityA hget =>
        rw [ih, escapeUnit_of_get hget, List.append_nil, List.append_assoc _ _ (rest.flatMap _)]
      case h_2 hget =>
        rw [ih, escapeUnit_of_none hge hget, ← List.append_assoc, ← List.append_assoc]

theorem convertToW_eq (szStrW : List WChar) : convertToW szStrW = szStrW.flatMap escapeUnit := by
  rw [convertToW, convertToFromW_eq]
  rfl

theorem escapeUnit_ne_nil (u : WChar) : escapeUnit u ≠ [] := by
  rw [escapeUnit]
  split
  · exact List.cons_ne_nil _ _
  split
  · exact List.cons_ne_nil _ _
  · exact List.cons_ne_nil _ _

theorem ne_amp_of_get {u : WChar} (h : get u = none) : u.toNat ≠ 0x26 := by
  intro heq
  obtain rfl : u = 0x26 := UInt16.toNat_inj.mp heq
  exact get_markup 0x26 (by decide) h

/-- **A reference is read back**, unless it is a name with nothing behind it. -/
theorem decodeNonzero_escapeUnit {u : WChar} {next : List WChar} (hzero : u ≠ 0)
    (href : u < 32 ∨ get u ≠ none) (hnext : get u ≠ none → next ≠ []) :
    decodeNonzero ((escapeUnit u ++ next).map UInt16.toNat) = some (u, (escapeUnit u).length) := by
  refine decodeNonzero_of_some ?_ hzero
  rw [List.map_append]
  by_cases hlt : u < 32
  · obtain ⟨hi, lo, hhi, hlo, heq⟩ := hexReferenceW_eq hlt
    have hn : u.toNat < 32 := by
      simpa only [UInt16.lt_iff_toNat_lt, UInt16.reduceToNat] using hlt
    rw [escapeUnit, if_pos hlt, heq]
    have hdecode := decode_hex hn hhi hlo (next.map UInt16.toNat)
    rw [UInt16.ofNat_toNat] at hdecode
    exact hdecode
  · cases hget : get u with
    | none => exact absurd hget (href.resolve_left hlt)
    | some szNameA =>
      have hne : next.map UInt16.toNat ≠ [] := by
        rw [Ne, List.map_eq_nil_iff]
        exact hnext (by rw [hget]; exact Option.some_ne_none _)
      rw [escapeUnit_of_get hget, map_nameReferenceW hget, List.cons_append, List.append_assoc,
        List.singleton_append, decode_name hget, if_neg hne, length_nameReferenceW hget]

/-! ### Wide strings -/

/-- A unit that is copied. -/
theorem convertFromFromW_plain {fuel : Nat} {u : WChar} {rest : List WChar} (hu : u.toNat ≠ 0x26)
    (hfuel : (u :: rest).length ≤ fuel) (run cStrW : List WChar) :
    ∃ fuel', rest.length ≤ fuel' ∧ convertFromFromW fuel (u :: rest) run cStrW =
      convertFromFromW fuel' rest (run ++ [u]) cStrW := by
  rw [List.length_cons] at hfuel
  obtain ⟨fuel, rfl⟩ := Nat.exists_eq_succ_of_ne_zero (n := fuel) (by omega)
  refine ⟨fuel, by omega, ?_⟩
  rw [convertFromFromW, List.map_cons, decodeNonzero_of_ne hu]

/-- Text without an `&` is copied. -/
theorem convertFromFromW_copy {szStrW : List WChar} (hamp : 0x26 ∉ szStrW) {fuel : Nat}
    (hfuel : szStrW.length ≤ fuel) (run cStrW : List WChar) :
    convertFromFromW fuel szStrW run cStrW = cStrW ++ run ++ szStrW := by
  induction szStrW generalizing fuel run with
  | nil =>
    rw [List.append_nil]
    cases fuel with
    | zero => rfl
    | succ fuel => rfl
  | cons u rest ih =>
    rw [List.mem_cons, not_or] at hamp
    have hu : u.toNat ≠ 0x26 := fun h => hamp.1 (UInt16.toNat_inj.mp h.symm)
    obtain ⟨fuel', hfuel', heq⟩ := convertFromFromW_plain hu hfuel run cStrW
    rw [heq, ih hamp.2 hfuel', ← List.append_assoc, List.append_assoc _ [u], List.singleton_append]

/-- A reference that is read. -/
theorem convertFromFromW_reference {fuel : Nat} {ref rest : List WChar} {u : WChar} (hne : ref ≠ [])
    (h : decodeNonzero ((ref ++ rest).map UInt16.toNat) = some (u, ref.length))
    (hfuel : (ref ++ rest).length ≤ fuel) (run cStrW : List WChar) :
    ∃ fuel', rest.length ≤ fuel' ∧ convertFromFromW fuel (ref ++ rest) run cStrW =
      convertFromFromW fuel' rest [] (cStrW ++ run ++ [u]) := by
  cases ref with
  | nil => exact absurd rfl hne
  | cons c ref =>
    rw [List.cons_append, List.length_cons, List.length_append] at hfuel
    obtain ⟨fuel, rfl⟩ := Nat.exists_eq_succ_of_ne_zero (n := fuel) (by omega)
    refine ⟨fuel, by omega, ?_⟩
    rw [List.cons_append] at h ⊢
    rw [convertFromFromW, h]
    simp only
    rw [← List.cons_append, List.drop_left]

/-- **The text before the end is read back**: `szTailW` is what follows, and where there
is none, the last unit of the text has no name. -/
theorem convertFromFromW_escape {szStrW szTailW : List WChar} (hzero : 0 ∉ szStrW)
    (hlast : szTailW = [] → ∀ u ∈ szStrW.getLast?, get u = none) {fuel : Nat}
    (hfuel : (szStrW.flatMap escapeUnit ++ szTailW).length ≤ fuel) (run cStrW : List WChar) :
    ∃ fuel' run' cStrW', szTailW.length ≤ fuel' ∧ cStrW' ++ run' = cStrW ++ run ++ szStrW ∧
      convertFromFromW fuel (szStrW.flatMap escapeUnit ++ szTailW) run cStrW =
        convertFromFromW fuel' szTailW run' cStrW' := by
  induction szStrW generalizing fuel run cStrW with
  | nil =>
    rw [List.flatMap_nil, List.nil_append] at hfuel ⊢
    exact ⟨fuel, run, cStrW, hfuel, (List.append_nil _).symm, rfl⟩
  | cons u rest ih =>
    rw [List.mem_cons, not_or] at hzero
    rw [List.flatMap_cons, List.append_assoc (escapeUnit u)] at hfuel ⊢
    have hrest : szTailW = [] → ∀ v ∈ rest.getLast?, get v = none := by
      intro htail v hv
      refine hlast htail v ?_
      rw [List.getLast?_cons, Option.mem_def.mp hv]
      rfl
    by_cases href : u < 32 ∨ get u ≠ none
    · have hnext : get u ≠ none → rest.flatMap escapeUnit ++ szTailW ≠ [] := by
        intro hget hnil
        rw [List.append_eq_nil_iff, List.flatMap_eq_nil_iff] at hnil
        have hnil' : rest = [] :=
          List.eq_nil_iff_forall_not_mem.mpr fun v hv => escapeUnit_ne_nil v (hnil.1 v hv)
        rw [hnil'] at hlast
        exact hget (hlast hnil.2 u rfl)
      have hdecode := decodeNonzero_escapeUnit (Ne.symm hzero.1) href hnext
      obtain ⟨fuel', hfuel', heq⟩ :=
        convertFromFromW_reference (escapeUnit_ne_nil u) hdecode hfuel run cStrW
      rw [heq]
      obtain ⟨fuel'', run', cStrW', hfuel'', hsum, heq'⟩ :=
        ih hzero.2 hrest hfuel' [] (cStrW ++ run ++ [u])
      refine ⟨fuel'', run', cStrW', hfuel'', ?_, heq'⟩
      rw [hsum, List.append_nil, List.append_assoc _ [u], List.singleton_append]
    · rw [not_or, not_not] at href
      rw [escapeUnit_of_none href.1 href.2, List.singleton_append] at hfuel ⊢
      obtain ⟨fuel', hfuel', heq⟩ := convertFromFromW_plain (ne_amp_of_get href.2) hfuel run cStrW
      rw [heq]
      obtain ⟨fuel'', run', cStrW', hfuel'', hsum, heq'⟩ :=
        ih hzero.2 hrest hfuel' (run ++ [u]) cStrW
      refine ⟨fuel'', run', cStrW', hfuel'', ?_, heq'⟩
      rw [hsum, ← List.append_assoc, List.append_assoc _ [u], List.singleton_append]

/-- A name at the very end of the text is copied. -/
theorem convertFromFromW_name {u : WChar} {szNameA : List Byte} (h : get u = some szNameA)
    {fuel : Nat} (hfuel : (nameReferenceW szNameA).length ≤ fuel) (run cStrW : List WChar) :
    convertFromFromW fuel (nameReferenceW szNameA) run cStrW =
      cStrW ++ run ++ nameReferenceW szNameA := by
  have hcodes := map_nameReferenceW h
  have hnone : decodeNonzero ((nameReferenceW szNameA).map UInt16.toNat) = none := by
    rw [hcodes]
    refine decodeNonzero_of_none ?_
    rw [decode_name h, if_pos rfl]
  have hplain : ∀ c ∈ szNameA.map UInt8.toNat, IsPlain c :=
    IsReference.plain (.inl ⟨_, get_eq_some_iff.mp h, rfl⟩)
  cases href : nameReferenceW szNameA with
  | nil => cases href
  | cons c rest =>
    rw [href, List.map_cons, List.cons.injEq] at hcodes
    rw [href, List.map_cons] at hnone
    rw [href, List.length_cons] at hfuel
    obtain ⟨fuel, rfl⟩ := Nat.exists_eq_succ_of_ne_zero (n := fuel) (by omega)
    have hamp : 0x26 ∉ rest := by
      intro hmem
      have hmem' : 0x26 ∈ rest.map UInt16.toNat := List.mem_map_of_mem hmem
      rw [hcodes.2, List.mem_append, List.mem_singleton] at hmem'
      rcases hmem' with hmem' | hmem'
      · exact (hplain _ hmem').2.2.1 rfl
      · cases hmem'
    rw [convertFromFromW, List.map_cons, hnone]
    simp only
    rw [convertFromFromW_copy hamp (by omega), ← List.append_assoc, List.append_assoc _ [c],
      List.singleton_append]

/-- **Wide strings**: the text comes back but for a name at its end. -/
theorem convertFromW_convertToW {szStrW : List WChar} (hzero : 0 ∉ szStrW) :
    convertFromW (convertToW szStrW) = szStrW ↔ ∀ u ∈ szStrW.getLast?, get u = none := by
  rw [convertFromW, convertToW_eq]
  constructor
  · intro h u hu
    obtain ⟨pre, rfl⟩ := List.getLast?_eq_some_iff.mp hu
    cases hget : get u with
    | none => rfl
    | some szNameA =>
      have htext : (pre ++ [u]).flatMap escapeUnit =
          pre.flatMap escapeUnit ++ nameReferenceW szNameA := by
        rw [List.flatMap_append, List.flatMap_singleton, escapeUnit_of_get hget]
      rw [htext] at h
      have hlast : nameReferenceW szNameA = [] → ∀ v ∈ pre.getLast?, get v = none := nofun
      have hpre : 0 ∉ pre := fun hmem => hzero (List.mem_append_left _ hmem)
      obtain ⟨fuel', run', cStrW', hfuel', hsum, heq⟩ :=
        convertFromFromW_escape hpre hlast (Nat.le_refl _) [] []
      rw [heq, convertFromFromW_name hget hfuel', hsum] at h
      have hlen := congrArg List.length (List.append_cancel_left h)
      rw [length_nameReferenceW hget, List.length_singleton] at hlen
      omega
  · intro hlast
    have hfuel : (szStrW.flatMap escapeUnit ++ []).length ≤ (szStrW.flatMap escapeUnit).length := by
      rw [List.append_nil]
    obtain ⟨fuel', run', cStrW', -, hsum, heq⟩ :=
      convertFromFromW_escape hzero (fun _ => hlast) hfuel [] []
    rw [List.append_nil] at heq
    rw [heq, convertFromFromW_copy (List.not_mem_nil) (Nat.zero_le _), hsum]
    exact List.append_nil _

/-! ### Narrow strings -/

/-- The bytes that `ConvertTo` puts for a character. -/
def escapeCharA (u : WChar) : List Byte :=
  if u < 32 then hexReferenceA u.toUInt8
  else
    match get u with
    | some szEntityA => nameReferenceA szEntityA
    | none => utf8Bytes u.toNat

/-- The first byte tells the control characters from the others. -/
theorem utf8Bytes_control {u : WChar} {chA : Byte} {l : List Byte} (hu : u.toNat < 0xD000)
    (h : utf8Bytes u.toNat = chA :: l) : (chA < 32 ↔ u < 32) ∧ (u < 32 → chA = u.toUInt8 ∧ l = []) := by
  simp only [UInt8.lt_iff_toNat_lt, UInt16.lt_iff_toNat_lt, UInt8.reduceToNat, UInt16.reduceToNat]
  by_cases hascii : u.toNat < 0x80
  · rw [utf8Bytes, if_pos hascii, List.cons.injEq] at h
    obtain ⟨rfl, rfl⟩ := h
    rw [toNat_ofNat_byte (by omega)]
    refine ⟨Iff.rfl, fun _ => ⟨?_, rfl⟩⟩
    rfl
  · have hhead := le_of_mem_utf8Bytes (by omega) (by omega) chA (h ▸ List.mem_cons_self)
    omega

/-- **`ConvertTo` for narrow strings goes character by character.** -/
theorem convertToFromA_eq {w : List WChar} (hw : ∀ u ∈ w, u.toNat < 0xD000) {fuel : Nat}
    (hfuel : (w.flatMap fun u => utf8Bytes u.toNat).length ≤ fuel) (run cStrA : List Byte) :
    convertToFromA fuel (w.flatMap fun u => utf8Bytes u.toNat) run cStrA =
      cStrA ++ run ++ w.flatMap escapeCharA := by
  induction w generalizing fuel run cStrA with
  | nil =>
    rw [List.flatMap_nil, List.flatMap_nil, List.append_nil]
    cases fuel with
    | zero => rfl
    | succ fuel => rfl
  | cons u rest ih =>
    have hu := hw u List.mem_cons_self
    have hrest : ∀ v ∈ rest, v.toNat < 0xD000 := fun v hv => hw v (List.mem_cons_of_mem _ hv)
    have hchar := utf8DecodeChar_single u (rest.flatMap fun u => utf8Bytes u.toNat)
    rw [if_pos ((isKept_iff u).mpr (.inl hu))] at hchar
    rw [List.flatMap_cons, List.length_append] at hfuel
    rw [List.flatMap_cons, List.flatMap_cons]
    cases hbytes : utf8Bytes u.toNat with
    | nil => exact absurd hbytes (utf8Bytes_ne_nil _)
    | cons chA l =>
      obtain ⟨hlt, hcontrol⟩ := utf8Bytes_control hu hbytes
      rw [hbytes, List.length_cons] at hfuel
      rw [hbytes] at hchar
      obtain ⟨fuel, rfl⟩ := Nat.exists_eq_succ_of_ne_zero (n := fuel) (by omega)
      rw [List.cons_append, convertToFromA]
      rw [List.cons_append] at hchar
      by_cases hu32 : u < 32
      · obtain ⟨rfl, rfl⟩ := hcontrol hu32
        rw [if_pos (hlt.mpr hu32), List.nil_append, ih hrest (by omega), escapeCharA, if_pos hu32,
          List.append_nil, List.append_assoc _ _ (rest.flatMap _)]
      · have hdrop : (chA :: (l ++ rest.flatMap fun u => utf8Bytes u.toNat)).drop (chA :: l).length =
            rest.flatMap fun u => utf8Bytes u.toNat := by
          rw [← List.cons_append, List.drop_left]
        have htake : (chA :: (l ++ rest.flatMap fun u => utf8Bytes u.toNat)).take (chA :: l).length =
            chA :: l := by
          rw [← List.cons_append, List.take_left]
        rw [if_neg (hlt.not.mpr hu32), hchar]
        simp only [hdrop, htake]
        rw [if_pos (beq_self_eq_true _)]
        rw [escapeCharA, if_neg hu32, ← hbytes]
        cases hget : get u with
        | none =>
          simp only
          rw [ih hrest (by omega), ← List.append_assoc, List.append_assoc _ _ (rest.flatMap _)]
        | some szNameA =>
          simp only
          rw [ih hrest (by omega), List.append_nil, List.append_assoc _ _ (rest.flatMap _)]

theorem convertToA_eq {w : List WChar} (hw : ∀ u ∈ w, u.toNat < 0xD000) :
    convertToA (w.flatMap fun u => utf8Bytes u.toNat) = w.flatMap escapeCharA := by
  rw [convertToA, convertToFromA_eq hw (Nat.le_refl _)]
  rfl

theorem escapeCharA_of_none {u : WChar} (hge : ¬ u < 32) (h : get u = none) :
    escapeCharA u = utf8Bytes u.toNat := by
  rw [escapeCharA, if_neg hge, h]

/-- A reference is longer than the character. -/
theorem length_escapeCharA {u : WChar} (hu : u.toNat < 0xD000) (href : u < 32 ∨ get u ≠ none) :
    (utf8Bytes u.toNat).length < (escapeCharA u).length := by
  have hbytes := length_utf8Bytes_le (c := u.toNat) (by omega)
  by_cases hlt : u < 32
  · rw [escapeCharA, if_pos hlt]
    exact Nat.lt_of_le_of_lt hbytes (by decide : 3 < 6)
  · cases hget : get u with
    | none => exact absurd hget (href.resolve_left hlt)
    | some szNameA =>
      have hname := two_le_length_name hget
      rw [escapeCharA, if_neg hlt, hget]
      simp only [nameReferenceA, List.cons_append, List.length_cons, List.length_append,
        List.length_nil]
      omega

/-- The escaped text is longer than the text. -/
theorem length_flatMap_escapeCharA {w : List WChar} (hw : ∀ u ∈ w, u.toNat < 0xD000) :
    (w.flatMap fun u => utf8Bytes u.toNat).length ≤ (w.flatMap escapeCharA).length ∧
      ((∃ u ∈ w, u < 32 ∨ get u ≠ none) →
        (w.flatMap fun u => utf8Bytes u.toNat).length < (w.flatMap escapeCharA).length) := by
  induction w with
  | nil => exact ⟨Nat.le_refl _, fun ⟨u, hu, _⟩ => absurd hu List.not_mem_nil⟩
  | cons u rest ih =>
    obtain ⟨hle, hlt⟩ := ih fun v hv => hw v (List.mem_cons_of_mem _ hv)
    have hu := hw u List.mem_cons_self
    rw [List.flatMap_cons, List.flatMap_cons, List.length_append, List.length_append]
    by_cases href : u < 32 ∨ get u ≠ none
    · have hlonger := length_escapeCharA hu href
      exact ⟨by omega, fun _ => by omega⟩
    · have hplain := href
      rw [not_or, not_not] at hplain
      rw [escapeCharA_of_none hplain.1 hplain.2]
      refine ⟨by omega, ?_⟩
      rintro ⟨v, hv, hvref⟩
      rcases List.mem_cons.mp hv with rfl | hv
      · exact absurd hvref href
      · have hlt' := hlt ⟨v, hv, hvref⟩
        omega

theorem decodeDigits_lt {nBase chW u : WChar} {l : List Nat} {n m : Nat}
    (h : decodeDigits nBase l chW n = some (u, m)) : n < m := by
  induction l generalizing chW n with
  | nil => cases h
  | cons c l ih =>
    rw [decodeDigits] at h
    split at h
    · rw [Option.some.injEq, Prod.mk.injEq] at h
      omega
    split at h
    · cases h
    split at h
    · cases h
    simp only at h
    split at h
    · cases h
    split at h
    · cases h
    split at h
    · cases h
    · exact Nat.lt_of_succ_lt (ih h)

/-- A reference has at least one character. -/
theorem decode_pos {szStr : List Nat} {u : WChar} {n : Nat} (h : decode szStr = some (u, n)) :
    0 < n := by
  cases szStr with
  | nil => cases h
  | cons c szStr =>
    cases szStr with
    | nil =>
      rw [decode] at h
      split at h
      · cases h
      · cases h
    | cons c1 rest =>
      rw [decode] at h
      split at h
      · cases h
      split at h
      · split at h
        · exact Nat.zero_lt_of_lt (decodeDigits_lt h)
        · exact Nat.zero_lt_of_lt (decodeDigits_lt h)
      · obtain ⟨d, -, heq⟩ := Option.map_eq_some_iff.mp h
        rw [Prod.mk.injEq] at heq
        omega

/-- **Every character stays**: the start of the run is never moved, so the whole input is
in the result. -/
theorem length_convertFromFromA {fuel : Nat} {szStrA : List Byte} (hfuel : szStrA.length ≤ fuel)
    (run cStrA : List Byte) :
    run.length + szStrA.length ≤ (convertFromFromA fuel szStrA run cStrA).length := by
  induction fuel generalizing szStrA run cStrA with
  | zero =>
    rw [List.eq_nil_of_length_eq_zero (Nat.le_zero.mp hfuel), convertFromFromA, List.length_append]
    exact Nat.le_add_left _ _
  | succ fuel ih =>
    cases szStrA with
    | nil =>
      rw [convertFromFromA, List.length_append]
      exact Nat.le_add_left _ _
    | cons chA rest =>
      rw [convertFromFromA]
      rw [List.length_cons] at hfuel
      cases hdecode : decodeNonzero ((chA :: rest).map UInt8.toNat) with
      | none =>
        have hlen := @ih rest (by omega) (run ++ [chA]) cStrA
        simp only [List.length_append, List.length_cons, List.length_nil] at hlen ⊢
        omega
      | some r =>
        obtain ⟨u, n⟩ := r
        rw [decodeNonzero, Option.filter_eq_some_iff] at hdecode
        have hn := decode_pos hdecode.1
        have hdrop : ((chA :: rest).drop n).length ≤ fuel := by
          rw [List.length_drop, List.length_cons]
          omega
        have hlen := ih hdrop (run ++ (chA :: rest).take n)
          (cStrA ++ run ++ (utf8EncodeChar u 0).getD [])
        rw [List.length_append, List.length_drop, List.length_take] at hlen
        simp only
        omega

/-- Text without an `&` is copied. -/
theorem convertFromFromA_copy {szStrA : List Byte} (hamp : 0x26 ∉ szStrA) {fuel : Nat}
    (hfuel : szStrA.length ≤ fuel) (run cStrA : List Byte) :
    convertFromFromA fuel szStrA run cStrA = cStrA ++ run ++ szStrA := by
  induction szStrA generalizing fuel run with
  | nil =>
    rw [List.append_nil]
    cases fuel with
    | zero => rfl
    | succ fuel => rfl
  | cons chA rest ih =>
    rw [List.mem_cons, not_or] at hamp
    have hch : chA.toNat ≠ 0x26 := fun h => hamp.1 (UInt8.toNat_inj.mp h.symm)
    rw [List.length_cons] at hfuel
    obtain ⟨fuel, rfl⟩ := Nat.exists_eq_succ_of_ne_zero (n := fuel) (by omega)
    rw [convertFromFromA, List.map_cons, decodeNonzero_of_ne hch]
    simp only
    rw [ih hamp.2 (by omega), ← List.append_assoc, List.append_assoc _ [chA], List.singleton_append]

/-- **Narrow strings**: the text comes back only if `ConvertTo` left it alone. -/
theorem convertFromA_convertToA {w : List WChar} (hw : ∀ u ∈ w, u.toNat < 0xD000) :
    convertFromA (convertToA (w.flatMap fun u => utf8Bytes u.toNat)) =
        w.flatMap (fun u => utf8Bytes u.toNat) ↔ ∀ u ∈ w, ¬ u < 32 ∧ get u = none := by
  rw [convertToA_eq hw]
  constructor
  · intro h u hu
    by_contra href
    rw [not_and_or, not_not, ← Ne] at href
    have hlonger := (length_flatMap_escapeCharA hw).2 ⟨u, hu, href⟩
    have hkept := length_convertFromFromA (Nat.le_refl (w.flatMap escapeCharA).length) [] []
    rw [convertFromA] at h
    rw [h, List.length_nil] at hkept
    omega
  · intro hplain
    have htext : w.flatMap escapeCharA = w.flatMap fun u => utf8Bytes u.toNat :=
      List.flatMap_congr fun u hu => escapeCharA_of_none (hplain u hu).1 (hplain u hu).2
    have hamp : 0x26 ∉ w.flatMap fun u => utf8Bytes u.toNat := by
      intro hmem
      obtain ⟨u, hu, hmem⟩ := List.mem_flatMap.mp hmem
      by_cases hascii : u.toNat < 0x80
      · rw [utf8Bytes, if_pos hascii, List.mem_singleton] at hmem
        have hcode := congrArg UInt8.toNat hmem
        rw [toNat_ofNat_byte (by omega)] at hcode
        exact ne_amp_of_get (hplain u hu).2 hcode.symm
      · have hu' := hw u hu
        exact absurd (le_of_mem_utf8Bytes (by omega) (by omega) _ hmem) (by decide)
    rw [htext, convertFromA, convertFromFromA_copy hamp (Nat.le_refl _)]
    rfl

/-! ### The round trip -/

/-- **When `ConvertFrom` gives back the text of `ConvertTo`**: for a wide string, if its
last unit has no name; for its UTF-8 form, if there is nothing to convert. -/
theorem convertFrom_convertTo_iff (szStrW : List WChar) (hzero : 0 ∉ szStrW) :
    (convertFromW (convertToW szStrW) = szStrW ↔ ∀ u ∈ szStrW.getLast?, get u = none) ∧
      ((∀ u ∈ szStrW, u < 0xD000) →
        (convertFromA (convertToA (szStrW.flatMap fun u => utf8Bytes u.toNat)) =
          szStrW.flatMap (fun u => utf8Bytes u.toNat) ↔
            ∀ u ∈ szStrW, ¬ u < 32 ∧ get u = none)) := by
  refine ⟨convertFromW_convertToW hzero, fun hw => ?_⟩
  refine convertFromA_convertToA fun u hu => ?_
  simpa only [UInt16.lt_iff_toNat_lt, UInt16.reduceToNat] using hw u hu

theorem convertFrom_convertTo_kept : convertFromW (convertToW (wide "<a")) = wide "<a" ∧
    convertFromA (convertToA ([0x61, 0x142].flatMap fun u : WChar => utf8Bytes u.toNat)) =
      [0x61, 0x142].flatMap fun u : WChar => utf8Bytes u.toNat := by
  have ha : get 0x61 = none := by decide +kernel
  have hl : get 0x142 = none := by decide +kernel
  have hlast : (wide "<a").getLast? = some 0x61 := by decide
  refine ⟨(convertFrom_convertTo_iff (wide "<a") (by decide)).1.mpr ?_,
    ((convertFrom_convertTo_iff [0x61, 0x142] (by decide)).2 ?_).mpr ?_⟩
  · rw [hlast]
    intro u hu
    obtain rfl := Option.mem_some_iff.mp hu
    exact ha
  · rw [List.forall_mem_cons, List.forall_mem_singleton]
    exact ⟨by decide, by decide⟩
  · rw [List.forall_mem_cons, List.forall_mem_singleton]
    exact ⟨⟨by decide, ha⟩, ⟨by decide, hl⟩⟩

/-- A text that ends with a name keeps it, and in a narrow text a reference is added to
the result and kept as well. -/
theorem convertFrom_convertTo_differs :
    (convertFromW (convertToW (wide "&")) = wide "&amp;" ∧ wide "&amp;" ≠ wide "&") ∧
      convertFromA (convertToA (ascii "<a")) = ascii "<&lt;a" ∧ ascii "<&lt;a" ≠ ascii "<a" := by
  decide +kernel

end MxLib.Http.HtmlEntities
