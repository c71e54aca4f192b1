import Mathlib.Data.List.GetD
import MxLib.Http.HttpCookieText

/-!
# Reading the text of a cookie

The loop of `ParseFromResponseHeader` reads the attributes of a cookie that was written
one by one.  A path, a domain and the two flags are taken.  The date and the mode are
refused: the name of the pair is then the date itself, with a comma in it, or
`eSameSite::`, with colons (`attributeTurn_eq`, `exec_attributeTurn`).
-/

namespace MxLib.Http.HttpCookie

open MxLib.Library

/-! ### What is read -/

/-- Text without semicolons ends where the next attribute begins. -/
theorem span_attributes {v : List Byte} (hv : ∀ ch ∈ v, ch ≠ chSemicolon) (l : List Attribute) :
    (v ++ attributesText l).takeWhile (· != chSemicolon) = v ∧
      (v ++ attributesText l).dropWhile (· != chSemicolon) = attributesText l := by
  have hall : ∀ ch ∈ v, (ch != chSemicolon) = true := fun ch hch => bne_iff_ne.mpr (hv ch hch)
  rw [List.takeWhile_append_of_pos hall, List.dropWhile_append_of_pos hall]
  cases l with
  | nil => exact ⟨List.append_nil v, rfl⟩
  | cons a l => exact ⟨List.append_nil v, rfl⟩

theorem pairEnd_attributes (cStrNameA cStrValueA : List Byte) (l : List Attribute) :
    pairEnd cStrNameA cStrValueA (attributesText l) =
      .ok ⟨cStrNameA, cStrValueA, (attributesText l).drop 1⟩ := by
  cases l with
  | nil => rfl
  | cons a l => rfl

theorem span_pairName {key : List Byte} (hkey : key.all isPairName = true) {ch : Byte}
    (hch : isPairName ch = false) (rest : List Byte) :
    (key ++ ch :: rest).takeWhile isPairName = key ∧
      (key ++ ch :: rest).dropWhile isPairName = ch :: rest := by
  have hall := List.all_eq_true.mp hkey
  rw [List.takeWhile_append_of_pos hall, List.dropWhile_append_of_pos hall, List.takeWhile_cons,
    List.dropWhile_cons, hch]
  exact ⟨List.append_nil key, rfl⟩

/-- A name, an equals sign and a value. -/
theorem getPairA_value (bAdv : Bool) {sA : List Byte} (key : List Byte) {ch : Byte} {v : List Byte}
    {l : List Attribute} (hstart : skipSpaces sA = key ++ chEquals :: (ch :: v ++ attributesText l))
    (hne : key ≠ []) (hkey : key.all isPairName = true) (hblank : isBlank ch = false)
    (hquote : bAdv = true ∨ ch ≠ chQuote) (hv : ∀ c ∈ ch :: v, c ≠ chSemicolon) :
    getPairA bAdv sA = .ok ⟨key, ch :: v, (attributesText l).drop 1⟩ := by
  obtain ⟨htake, hdrop⟩ := span_pairName hkey (show isPairName chEquals = false by decide)
    (ch :: v ++ attributesText l)
  obtain ⟨hvtake, hvdrop⟩ := span_attributes hv l
  have hvalue : (bAdv || ch != chQuote) = true := by
    rcases hquote with h | h
    · simp [h]
    · simp [h]
  simp only [getPairA, hstart, htake, hdrop]
  rw [if_neg hne, skipSpaces_cons (by decide)]
  simp only [List.cons_append, skipSpaces_cons hblank]
  rw [if_neg (by decide), if_pos hvalue]
  rw [List.cons_append] at hvtake hvdrop
  rw [hvtake, hvdrop, pairEnd_attributes]

/-- A name alone. -/
theorem getPairA_flag (bAdv : Bool) {sA : List Byte} (key : List Byte) {l : List Attribute}
    (hstart : skipSpaces sA = key ++ attributesText l) (hne : key ≠ [])
    (hkey : key.all isPairName = true) :
    getPairA bAdv sA = .ok ⟨key, [], (attributesText l).drop 1⟩ := by
  cases l with
  | nil =>
    have hall := List.all_eq_true.mp hkey
    have htake : key.takeWhile isPairName = key := List.takeWhile_eq_self_iff.mpr hall
    have hdrop : key.dropWhile isPairName = [] := List.dropWhile_eq_nil_iff.mpr hall
    rw [attributesText, List.flatMap_nil, List.append_nil] at hstart
    simp only [getPairA, hstart, htake, hdrop]
    rw [if_neg hne]
    rfl
  | cons a l =>
    obtain ⟨htake, hdrop⟩ := span_pairName hkey (show isPairName chSemicolon = false by decide)
      ((attributesText (a :: l)).drop 1)
    have hcons : attributesText (a :: l) = chSemicolon :: (attributesText (a :: l)).drop 1 := rfl
    rw [hcons] at hstart
    simp only [getPairA, hstart, htake, hdrop]
    rw [if_neg hne, skipSpaces_cons (by decide)]
    rfl

/-- The name in a pair, and the only way to fail. -/
theorem getPairA_cases (bAdv : Bool) (sA : List Byte) :
    getPairA bAdv sA = .error .mxInvalidData ∨
      ∃ p, getPairA bAdv sA = .ok p ∧ p.cStrNameA = (skipSpaces sA).takeWhile isPairName := by
  have hend : ∀ name value rest, pairEnd name value rest = .error .mxInvalidData ∨
      ∃ p, pairEnd name value rest = .ok p ∧ p.cStrNameA = name := by
    intro name value rest
    rw [pairEnd]
    split
    · exact Or.inr ⟨_, rfl, rfl⟩
    · split
      · exact Or.inl rfl
      · exact Or.inr ⟨_, rfl, rfl⟩
  simp only [getPairA]
  split
  · exact Or.inl rfl
  split
  · exact Or.inr ⟨_, rfl, rfl⟩
  split
  · exact Or.inr ⟨_, rfl, rfl⟩
  split
  · exact Or.inr ⟨_, rfl, rfl⟩
  split
  · exact hend _ _ _
  split
  · exact Or.inl rfl
  · exact hend _ _ _

/-- The characters in the name of a day. -/
theorem mem_dayName {k : Nat} {ch : Byte}
    (h : ch ∈ (DateTime.szShortDayNamesW.getD k []).map UInt16.toUInt8) :
    isPairName ch = true ∧ isBlank ch = false ∧ ch ≠ 0 ∧ ch ≠ 0x24 := by
  have hall : DateTime.szShortDayNamesW.all (fun d => (d.map UInt16.toUInt8).all (fun ch =>
      isPairName ch && !isBlank ch && ch != 0 && ch != 0x24)) = true := by decide
  by_cases hk : k < DateTime.szShortDayNamesW.length
  · rw [List.getD_eq_getElem _ _ hk] at h
    have hch := List.all_eq_true.mp (List.all_eq_true.mp hall _ (List.getElem_mem hk)) ch h
    simpa [and_assoc] using hch
  · rw [List.getD_eq_default _ _ (by omega)] at h
    exact absurd h List.not_mem_nil

theorem length_skipSpaces_le (sA : List Byte) : (skipSpaces sA).length ≤ sA.length :=
  (List.dropWhile_sublist _).length_le

theorem pairEnd_length {cStrNameA cStrValueA sA : List Byte} {p : Pair}
    (h : pairEnd cStrNameA cStrValueA sA = .ok p) : p.sA.length ≤ sA.length := by
  have hle := length_skipSpaces_le sA
  rw [pairEnd] at h
  split at h
  · obtain rfl := Except.ok.inj h
    exact Nat.zero_le _
  next ch rest hrest =>
    split at h
    · cases h
    · obtain rfl := Except.ok.inj h
      rw [hrest, List.length_cons] at hle
      exact (by omega : rest.length ≤ sA.length)

/-- A pair takes at least one character. -/
theorem getPairA_length {bAdv : Bool} {sA : List Byte} {p : Pair} (h : getPairA bAdv sA = .ok p) :
    p.sA.length < sA.length := by
  simp only [getPairA] at h
  split at h
  · cases h
  next hname =>
    have hskip := length_skipSpaces_le sA
    have hne : (skipSpaces sA).takeWhile isPairName ≠ [] := hname
    have hsplit : ((skipSpaces sA).takeWhile isPairName).length +
        ((skipSpaces sA).dropWhile isPairName).length = (skipSpaces sA).length := by
      rw [← List.length_append, List.takeWhile_append_dropWhile]
    have hpos := List.length_pos_iff.mpr hne
    have hrest := length_skipSpaces_le ((skipSpaces sA).dropWhile isPairName)
    split at h
    · obtain rfl := Except.ok.inj h
      exact Nat.lt_of_lt_of_le (Nat.lt_of_lt_of_le hpos (by omega)) hskip
    next ch rest hcons =>
      rw [hcons, List.length_cons] at hrest
      split at h
      · obtain rfl := Except.ok.inj h
        exact (by omega : rest.length < sA.length)
      have hvalue := length_skipSpaces_le rest
      split at h
      · obtain rfl := Except.ok.inj h
        exact (by omega : 0 < sA.length)
      next ch' rest' hcons' =>
        rw [hcons'] at hvalue
        split at h
        · have hle := pairEnd_length h
          have hdrop : ((ch' :: rest').dropWhile (· != chSemicolon)).length ≤ (ch' :: rest').length :=
            (List.dropWhile_sublist _).length_le
          omega
        · rw [List.length_cons] at hvalue
          split at h
          · cases h
          next x tail hquote =>
            have hle := pairEnd_length h
            have hdrop : (rest'.dropWhile (· != chQuote)).length ≤ rest'.length :=
              (List.dropWhile_sublist _).length_le
            rw [hquote, List.length_cons] at hdrop
            omega

section Parse

variable (parseDate : List Byte → Except HResult DateTime)
  (expireAfter : UInt64 → Except HResult DateTime)

theorem attributeTurn_measure (s t : AttributeScan)
    (h : attributeTurn parseDate expireAfter s = .inl t) : t.sA.length < s.sA.length := by
  rw [attributeTurn] at h
  split at h
  · cases h
  split at h
  · cases h
  next p hpair =>
    split at h
    · cases h
    · obtain rfl := Sum.inl.inj h
      exact getPairA_length hpair

theorem addAttribute_path (c : FullCookie) (v : List Byte) :
    c.addAttribute parseDate expireAfter (ascii "Path") v = c.setPath v := rfl

theorem addAttribute_domain (c : FullCookie) (v : List Byte) :
    c.addAttribute parseDate expireAfter (ascii "Domain") v = c.setDomain v := rfl

theorem addAttribute_secure (c : FullCookie) (v : List Byte) :
    c.addAttribute parseDate expireAfter (ascii "Secure") v = .ok { c with bIsSecure := true } := rfl

theorem addAttribute_httpOnly (c : FullCookie) (v : List Byte) :
    c.addAttribute parseDate expireAfter (ascii "HttpOnly") v = .ok { c with bHttpOnly := true } :=
  rfl

/-- A name with a character that the given one lacks. -/
theorem strCompareA_of_mem {szNameA s : List Byte} {ch : Byte} (h : ch ∈ szStr s)
    (hlower : lowerA ch = ch) (hname : ch ∉ (szStr szNameA).map lowerA) :
    strCompareA s szNameA true = false := by
  rw [strCompareA, beq_eq_false_iff_ne]
  intro heq
  simp only [if_true] at heq
  exact hname (heq ▸ hlower ▸ List.mem_map_of_mem h)

/-- **An attribute with a comma or a colon in its name is refused.** -/
theorem addAttribute_unknown (c : FullCookie) {s : List Byte} {ch : Byte}
    (hch : ch = chComma ∨ ch = chColon) (h : ch ∈ szStr s) (hdollar : charAt s 0 ≠ 0x24)
    (v : List Byte) : c.addAttribute parseDate expireAfter s v = .error .mxInvalidData := by
  have hlower : lowerA ch = ch := by rcases hch with rfl | rfl <;> decide
  have hne : isEmptyStr s = false := by
    cases s with
    | nil => exact absurd h List.not_mem_nil
    | cons c s =>
      by_contra hempty
      have hzero : c = 0 := by simpa [isEmptyStr] using hempty
      rw [hzero] at h
      exact absurd h List.not_mem_nil
  have hname : ∀ szNameA : List Byte, chComma ∉ (szStr szNameA).map lowerA ∧
      chColon ∉ (szStr szNameA).map lowerA → strCompareA s szNameA true = false := by
    intro szNameA hno
    refine strCompareA_of_mem h hlower ?_
    rcases hch with rfl | rfl
    · exact hno.1
    · exact hno.2
  have hignored : (ignoredNames.any fun szNameA => strCompareA s szNameA true) = false := by
    rw [List.any_eq_false]
    intro szNameA hmem
    have hall : ∀ n ∈ ignoredNames, chComma ∉ (szStr n).map lowerA ∧
        chColon ∉ (szStr n).map lowerA := by decide
    rw [hname szNameA (hall szNameA hmem)]
    decide
  simp only [FullCookie.addAttribute, beq_eq_false_iff_ne.mpr hdollar, Bool.false_eq_true, if_false,
    hne, hignored, Bool.or_self, hname (ascii "Secure") (by decide),
    hname (ascii "HttpOnly") (by decide), hname (ascii "Max-Age") (by decide),
    hname (ascii "Expires") (by decide), hname (ascii "Path") (by decide),
    hname (ascii "Domain") (by decide), hname (ascii "SameSite") (by decide)]

/-- What an attribute does when it is read; `none` stands for one that is refused. -/
def Attribute.apply : Attribute → FullCookie → Option FullCookie
  | .path szPathA, c => some { c with cStrPathA := szPathA }
  | .domain szDomainA, c => some { c with cStrDomainA := szDomainA }
  | .date _, _ => none
  | .secure, c => some { c with bIsSecure := true }
  | .httpOnly, c => some { c with bHttpOnly := true }
  | .sameSite _, _ => none

/-- An attribute of a stored cookie. -/
def Attribute.Stored : Attribute → Prop
  | .path szPathA => szPathA ≠ [] ∧ ∀ ch ∈ szPathA, isAttributeChar (ascii "=;, \t") ch = true
  | .domain szDomainA => szDomainA ≠ [] ∧ ∀ ch ∈ szDomainA, isAttributeChar (ascii "=;,") ch = true
  | .date cStrDateA => IsDateText cStrDateA
  | .secure => True
  | .httpOnly => True
  | .sameSite szModeA => szModeA ∈ [ascii "Lax", ascii "Strict"]

theorem skipSpaces_space (rest : List Byte) : skipSpaces (chSpace :: rest) = skipSpaces rest := rfl

theorem isAttributeChar_ne {szStopA : List Byte} {ch : Byte}
    (h : isAttributeChar szStopA ch = true) : isBlank ch = false ∧ ch ∉ szStopA := by
  rw [isAttributeChar, Bool.not_eq_true', Bool.or_eq_false_iff, Bool.or_eq_false_iff,
    decide_eq_false_iff_not] at h
  refine ⟨?_, fun hmem => ?_⟩
  · by_contra hblank
    simp only [isBlank, Bool.not_eq_false, Bool.or_eq_true, beq_iff_eq] at hblank
    rcases hblank with rfl | rfl
    · exact h.1.1 (by decide)
    · exact h.1.1 (by decide)
  · rw [List.contains_iff_mem.mpr hmem] at h
    cases h.2

/-- **An attribute is read as one**, and the next one is reached, or it is refused. -/
theorem attributeTurn_eq {a : Attribute} (ha : a.Stored) (c : FullCookie) (l : List Attribute) :
    attributeTurn parseDate expireAfter ⟨c, chSpace :: (a.text ++ attributesText l)⟩ =
      match a.apply c with
      | some c' => .inl ⟨c', (attributesText l).drop 1⟩
      | none => .inr (.mxInvalidData, c) := by
  have hne : ¬ chSpace :: (a.text ++ attributesText l) = [] := List.cons_ne_nil _ _
  cases a with
  | path s =>
    obtain ⟨hs, hchars⟩ := ha
    obtain ⟨ch, v, rfl⟩ := List.exists_cons_of_ne_nil hs
    have hstart : skipSpaces (chSpace :: (Attribute.text (.path (ch :: v)) ++ attributesText l)) =
        ascii "Path" ++ chEquals :: (ch :: v ++ attributesText l) := rfl
    have hpair := getPairA_value true (ascii "Path") hstart (by decide) (by decide)
      (isAttributeChar_ne (hchars ch List.mem_cons_self)).1 (.inl rfl)
      fun x hx heq => (isAttributeChar_ne (hchars x hx)).2 (heq ▸ by decide)
    simp only [attributeTurn, if_neg hne, hpair, addAttribute_path, setPath_of hchars]
    rfl
  | domain s =>
    obtain ⟨hs, hchars⟩ := ha
    obtain ⟨ch, v, rfl⟩ := List.exists_cons_of_ne_nil hs
    have hstart : skipSpaces (chSpace :: (Attribute.text (.domain (ch :: v)) ++ attributesText l)) =
        ascii "Domain" ++ chEquals :: (ch :: v ++ attributesText l) := rfl
    have hpair := getPairA_value true (ascii "Domain") hstart (by decide) (by decide)
      (isAttributeChar_ne (hchars ch List.mem_cons_self)).1 (.inl rfl)
      fun x hx heq => (isAttributeChar_ne (hchars x hx)).2 (heq ▸ by decide)
    simp only [attributeTurn, if_neg hne, hpair, addAttribute_domain, setDomain_of hchars]
    rfl
  | secure =>
    have hstart : skipSpaces (chSpace :: (Attribute.text .secure ++ attributesText l)) =
        ascii "Secure" ++ attributesText l := rfl
    have hpair := getPairA_flag true (ascii "Secure") hstart (by decide) (by decide)
    simp only [attributeTurn, if_neg hne, hpair, addAttribute_secure]
    rfl
  | httpOnly =>
    have hstart : skipSpaces (chSpace :: (Attribute.text .httpOnly ++ attributesText l)) =
        ascii "HttpOnly" ++ attributesText l := rfl
    have hpair := getPairA_flag true (ascii "HttpOnly") hstart (by decide) (by decide)
    simp only [attributeTurn, if_neg hne, hpair, addAttribute_httpOnly]
    rfl
  | sameSite m =>
    have hmode : ∀ m ∈ [ascii "Lax", ascii "Strict"], ∃ ch v, m = ch :: v ∧ isBlank ch = false ∧
        (ch :: v).all (· != chSemicolon) = true := by
      intro m hm
      rw [List.mem_pair] at hm
      rcases hm with rfl | rfl
      · exact ⟨_, _, rfl, by decide, by decide⟩
      · exact ⟨_, _, rfl, by decide, by decide⟩
    obtain ⟨ch, v, rfl, hblank, hchars⟩ := hmode m ha
    have hstart : skipSpaces (chSpace :: (Attribute.text (.sameSite (ch :: v)) ++
        attributesText l)) = ascii "eSameSite::" ++ chEquals :: (ch :: v ++ attributesText l) := rfl
    have hpair := getPairA_value true (ascii "eSameSite::") hstart (by decide) (by decide) hblank
      (.inl rfl) fun x hx => bne_iff_ne.mp (List.all_eq_true.mp hchars x hx)
    have hunknown := addAttribute_unknown parseDate expireAfter c (s := ascii "eSameSite::")
      (.inr rfl) (by decide) (by decide) (ch :: v)
    simp only [attributeTurn, if_neg hne, hpair, hunknown]
    rfl
  | date s =>
    obtain ⟨k, rest, rfl⟩ := ha
    generalize hday : (DateTime.szShortDayNamesW.getD k []).map UInt16.toUInt8 = day at hne ⊢
    have hchars : ∀ ch ∈ day, isPairName ch = true ∧ isBlank ch = false ∧ ch ≠ 0 ∧ ch ≠ 0x24 :=
      fun ch hch => mem_dayName (hday ▸ hch)
    have htext : Attribute.text (.date (day ++ chComma :: rest)) ++ attributesText l =
        day ++ chComma :: (rest ++ attributesText l) := by
      rw [Attribute.text, List.append_assoc]
      rfl
    rw [htext] at hne ⊢
    have hstart : skipSpaces (chSpace :: (day ++ chComma :: (rest ++ attributesText l))) =
        day ++ chComma :: (rest ++ attributesText l) := by
      rw [skipSpaces_space]
      cases day with
      | nil => rfl
      | cons ch day => exact skipSpaces_cons (hchars ch List.mem_cons_self).2.1 _
    have hname : (day ++ chComma :: (rest ++ attributesText l)).takeWhile isPairName =
        day ++ chComma :: (rest ++ attributesText l).takeWhile isPairName := by
      rw [List.takeWhile_append_of_pos fun ch hch => (hchars ch hch).1, List.takeWhile_cons,
        if_pos (by decide)]
    rcases getPairA_cases true (chSpace :: (day ++ chComma :: (rest ++ attributesText l))) with
      herr | ⟨p, hpair, hp⟩
    · simp only [attributeTurn, if_neg hne, herr]
      rfl
    · rw [hstart, hname] at hp
      have hcomma : chComma ∈ szStr p.cStrNameA := by
        rw [hp, szStr, List.takeWhile_append_of_pos fun ch hch =>
          bne_iff_ne.mpr (hchars ch hch).2.2.1, List.takeWhile_cons, if_pos (by decide)]
        exact List.mem_append_right _ List.mem_cons_self
      have hdollar : charAt p.cStrNameA 0 ≠ 0x24 := by
        rw [hp]
        cases day with
        | nil => exact (by decide : chComma ≠ 0x24)
        | cons ch day => exact (hchars ch List.mem_cons_self).2.2.2
      have hunknown := addAttribute_unknown parseDate expireAfter c (.inl rfl) hcomma hdollar
        p.cStrValueA
      simp only [attributeTurn, if_neg hne, hpair, hunknown]
      rfl

/-- What a list of attributes does. -/
def applyAll : List Attribute → FullCookie → Option FullCookie
  | [], c => some c
  | a :: l, c => (a.apply c).bind (applyAll l)

/-- **The loop reads the attributes one by one**, up to one that is refused. -/
theorem exec_attributeTurn (dflt : HResult × FullCookie) : ∀ (l : List Attribute) (c : FullCookie),
    (∀ a ∈ l, a.Stored) →
    match applyAll l c with
    | some c' => Loop.exec (attributeTurn parseDate expireAfter) (fun s => s.sA.length) dflt
        ⟨c, (attributesText l).drop 1⟩ = (.sOk, c')
    | none => (Loop.exec (attributeTurn parseDate expireAfter) (fun s => s.sA.length) dflt
        ⟨c, (attributesText l).drop 1⟩).1 = .mxInvalidData := by
  intro l
  induction l with
  | nil => exact fun c _ => Loop.exec_inr dflt rfl
  | cons a l ih =>
    intro c hl
    obtain ⟨ha, hl⟩ := List.forall_mem_cons.mp hl
    have hturn := attributeTurn_eq parseDate expireAfter ha c l
    have hstart : (attributesText (a :: l)).drop 1 = chSpace :: (a.text ++ attributesText l) := rfl
    rw [hstart, applyAll]
    cases happly : a.apply c with
    | none =>
      rw [happly] at hturn
      rw [Loop.exec_inr dflt hturn]
      rfl
    | some c' =>
      rw [happly] at hturn
      rw [Loop.exec_inl (attributeTurn_measure parseDate expireAfter) dflt hturn]
      exact ih c' hl

end Parse

end MxLib.Http.HttpCookie
