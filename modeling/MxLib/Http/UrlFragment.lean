import MxLib.Http.UrlQueries

/-!
# The fragment of a URL

Where a URL is parsed, the text behind its first `#` is its fragment: neither the end of the path
nor the loop over the query parameters passes over that character.  The narrow version decodes
the text, and a character that no escape can contain splits what is decoded.
-/

namespace MxLib.Http

/-! ### Behind the parameters -/

/-- The rest that the narrow loop leaves. -/
theorem parseQuery_rest {fuel : Nat} {szUrlA : List Byte} (hzero : 0 ∉ szUrlA)
    (hfuel : szUrlA.length ≤ fuel) {query query' : List (List WChar × List WChar)}
    {rest : List Byte} (h : parseQuery fuel szUrlA query = .ok (query', rest)) :
    rest = szUrlA.dropWhile (· != 0x23) := by
  induction fuel generalizing szUrlA query with
  | zero =>
    obtain rfl := List.eq_nil_of_length_eq_zero (Nat.le_zero.mp hfuel)
    exact (congrArg Prod.snd (Except.ok.inj h)).symm
  | succ fuel ih =>
    cases szUrlA with
    | nil => exact (congrArg Prod.snd (Except.ok.inj h)).symm
    | cons ch tail =>
      have hch : (ch == 0) = false := beq_eq_false_iff_ne.mpr fun h0 => hzero (h0 ▸ List.mem_cons_self)
      have htail : 0 ∉ tail := fun h0 => hzero (List.mem_cons_of_mem ch h0)
      have hlen : tail.length ≤ fuel := Nat.le_of_succ_le_succ hfuel
      rw [parseQuery] at h
      simp only [hch, findChar_queryEnd hzero, Bool.false_eq_true, if_false] at h
      cases hend : isQueryEnd ch with
      | true =>
        rw [takeWhile_queryEnd hend, List.length_nil, if_pos rfl] at h
        by_cases hhash : ch = 0x23
        · subst hhash
          exact (congrArg Prod.snd (Except.ok.inj h)).symm
        · have hamp : ch = 0x26 := by simpa [isQueryEnd, hhash] using hend
          subst hamp
          rw [if_pos (beq_self_eq_true _)] at h
          rw [ih htail hlen h]
          rfl
      | false =>
        have hpos : ((ch :: tail).takeWhile (!isQueryEnd ·)).length ≠ 0 := by
          rw [takeWhile_item hend]
          exact Nat.succ_ne_zero _
        rw [if_neg hpos, drop_takeWhile_length] at h
        obtain ⟨param, -, hnext⟩ := exists_of_bind_ok h
        rw [← dropWhile_fragment]
        refine ih (fun h0 => hzero ((List.dropWhile_sublist _).subset h0)) ?_ hnext
        rw [dropWhile_item hend]
        exact Nat.le_trans (List.dropWhile_sublist _).length_le hlen

/-- The fragment of a URL whose authority is cut off, and its text. -/
def fragmentTextA (rest : List Byte) : List Byte := (rest.dropWhile (· != 0x23)).drop 1

def fragmentTextW (rest : List WChar) : List WChar := (rest.dropWhile (· != 0x23)).drop 1

theorem dropWhile_eq_nil_or_cons {α : Type} (p : α → Bool) (l : List α) :
    l.dropWhile p = [] ∨ ∃ ch r, l.dropWhile p = ch :: r ∧ p ch = false := by
  induction l with
  | nil => exact Or.inl rfl
  | cons ch l ih =>
    cases hp : p ch with
    | true =>
      rw [List.dropWhile_cons_of_pos hp]
      exact ih
    | false =>
      rw [List.dropWhile_cons_of_neg (by rw [hp]; exact Bool.false_ne_true)]
      exact Or.inr ⟨ch, l, rfl, hp⟩

/-- **The parameters and the fragment of a narrow URL.** -/
theorem parseParams_fragment {url url' : Url} {rest : List Byte} (hzero : 0 ∉ rest)
    (hurl : url.cStrFragmentW = [])
    (h : parseParams url (rest.drop (pathEnd rest)) = .ok url') :
    decodeText (fragmentTextA rest) = .ok url'.cStrFragmentW := by
  have hdrop : rest.drop (pathEnd rest) = rest.dropWhile (!(ascii "?#").contains ·) := by
    rw [pathEnd, findChar_takeWhile _ hzero, drop_takeWhile_length]
  have hhash : (rest.dropWhile (!(ascii "?#").contains ·)).dropWhile (· != 0x23) =
      rest.dropWhile (· != 0x23) := by
    refine dropWhile_dropWhile (fun ch hch => ?_) rest
    rw [bne_iff_ne]
    rintro rfl
    exact absurd hch (by decide)
  have hzero' : 0 ∉ rest.dropWhile (!(ascii "?#").contains ·) :=
    fun h0 => hzero ((List.dropWhile_sublist _).subset h0)
  rw [hdrop] at h
  obtain ⟨⟨query, r⟩, hquery, h⟩ := exists_of_bind_ok h
  obtain ⟨fragment, hfragment, h⟩ := exists_of_bind_ok h
  obtain rfl := Except.ok.inj h
  have hr : r = rest.dropWhile (· != 0x23) := by
    rw [← hhash]
    rw [queryPart] at hquery
    rcases dropWhile_eq_nil_or_cons (!(ascii "?#").contains ·) rest with hnil | ⟨ch, t, hcons, hch⟩
    · rw [hnil] at hquery ⊢
      exact (congrArg Prod.snd (Except.ok.inj hquery)).symm
    · rw [hcons] at hquery hzero' ⊢
      by_cases hmark : ch = 0x3F
      · subst hmark
        exact parseQuery_rest (fun h0 => hzero' (List.mem_cons_of_mem _ h0)) (Nat.le_succ _) hquery
      · rw [charAt_cons_zero, if_neg (by simpa using hmark)] at hquery
        have hch23 : ch = 0x23 := by
          have hall : ∀ ch : Byte, ((ascii "?#").contains ch == (ch == 0x3F || ch == 0x23)) = true :=
            forall_byte (by decide)
          have hfact := beq_iff_eq.mp (hall ch)
          have hin : (ascii "?#").contains ch = true := by simpa using hch
          rw [hin, eq_comm, Bool.or_eq_true, beq_iff_eq, beq_iff_eq] at hfact
          exact hfact.resolve_left hmark
        subst hch23
        exact (congrArg Prod.snd (Except.ok.inj hquery)).symm
  dsimp only at hfragment ⊢
  rw [hurl, hr, fragmentPart] at hfragment
  rw [fragmentTextA, ← hfragment]
  rcases dropWhile_eq_nil_or_cons (fun ch : Byte => ch != 0x23) rest with hnil | ⟨ch, t, hcons, hch⟩
  · rw [hnil]
    rfl
  · have hch23 : ch = 0x23 := by simpa using hch
    rw [hcons, hch23, charAt_cons_zero, if_pos (beq_self_eq_true _), List.drop_one, List.tail_cons]
    split
    · next hnil =>
      rw [hnil]
      rfl
    · rfl

/-! ### Wide URLs -/

theorem findCharW_takeWhile (szToFindW : List WChar) {l : List WChar} (hzero : 0 ∉ l) :
    (findCharW szToFindW [] l).getD l.length = (l.takeWhile (!szToFindW.contains ·)).length := by
  induction l with
  | nil => rfl
  | cons ch l ih =>
    have hch : (ch == 0) = false := beq_eq_false_iff_ne.mpr fun h => hzero (h ▸ List.mem_cons_self)
    rw [findCharW, hch, if_neg Bool.false_ne_true]
    cases hfind : szToFindW.contains ch with
    | true =>
      rw [if_pos rfl, List.takeWhile_cons_of_neg (by rw [hfind]; exact Bool.false_ne_true)]
      rfl
    | false =>
      rw [if_neg Bool.false_ne_true, List.contains_nil, if_neg Bool.false_ne_true,
        List.takeWhile_cons_of_pos (by rw [hfind]; rfl), List.length_cons, List.length_cons,
        ← ih fun h => hzero (List.mem_cons_of_mem ch h)]
      cases findCharW szToFindW [] l with
      | none => rfl
      | some k => rfl

/-- The rest that the wide loop leaves. -/
theorem parseQueryW_rest {fuel : Nat} {szUrlW : List WChar} (hzero : 0 ∉ szUrlW)
    (hfuel : szUrlW.length ≤ fuel) (behind : List WChar) (query : List (List WChar × List WChar)) :
    (parseQueryW behind fuel szUrlW query).2 = szUrlW.dropWhile (· != 0x23) := by
  induction fuel generalizing szUrlW query with
  | zero =>
    obtain rfl := List.eq_nil_of_length_eq_zero (Nat.le_zero.mp hfuel)
    rfl
  | succ fuel ih =>
    cases szUrlW with
    | nil => rfl
    | cons ch tail =>
      have hch : (ch == 0) = false := beq_eq_false_iff_ne.mpr fun h0 => hzero (h0 ▸ List.mem_cons_self)
      have htail : 0 ∉ tail := fun h0 => hzero (List.mem_cons_of_mem ch h0)
      have hlen : tail.length ≤ fuel := Nat.le_of_succ_le_succ hfuel
      rw [parseQueryW]
      simp only [hch, findCharW_takeWhile _ hzero, Bool.false_eq_true, if_false]
      cases hend : (wide "#&").contains ch with
      | true =>
        rw [List.takeWhile_cons_of_neg (by rw [hend]; exact Bool.false_ne_true), List.length_nil,
          if_pos rfl]
        by_cases hamp : ch = 0x26
        · subst hamp
          rw [if_pos (beq_self_eq_true _), ih htail hlen]
          rfl
        · have hhash : ch = 0x23 := by
            have hor : ch = 0x23 ∨ ch = 0x26 := by simpa [wide] using hend
            exact hor.resolve_right hamp
          subst hhash
          rfl
      | false =>
        have hp : (!(wide "#&").contains ch) = true := by rw [hend]; rfl
        have hsub : ∀ c : WChar, (!(wide "#&").contains c) = true → (c != 0x23) = true := by
          intro c hc
          rw [bne_iff_ne]
          rintro rfl
          exact absurd hc (by decide)
        have hskip : (ch :: tail).dropWhile (· != 0x23) = tail.dropWhile (· != 0x23) :=
          List.dropWhile_cons_of_pos (hsub ch hp)
        have htake : (ch :: tail).takeWhile (!(wide "#&").contains ·) =
            ch :: tail.takeWhile (!(wide "#&").contains ·) := List.takeWhile_cons_of_pos hp
        rw [htake, List.length_cons, if_neg (Nat.succ_ne_zero _), List.drop_succ_cons, drop_takeWhile_length, ih, dropWhile_dropWhile hsub, hskip]
        · exact fun h0 => htail ((List.dropWhile_sublist _).subset h0)
        · exact Nat.le_trans (List.dropWhile_sublist _).length_le hlen

/-- **The parameters and the fragment of a wide URL.** -/
theorem parseParamsW_fragment {url : Url} {rest : List WChar} (hzero : 0 ∉ rest)
    (hurl : url.cStrFragmentW = []) (behind : List WChar) :
    (parseParamsW url (rest.drop (pathEndW rest)) behind).cStrFragmentW = fragmentTextW rest := by
  have hdrop : rest.drop (pathEndW rest) = rest.dropWhile (!(wide "?#").contains ·) := by
    rw [pathEndW, findCharW_takeWhile _ hzero, drop_takeWhile_length]
  have hhash : (rest.dropWhile (!(wide "?#").contains ·)).dropWhile (· != 0x23) =
      rest.dropWhile (· != 0x23) := by
    refine dropWhile_dropWhile (fun ch hch => ?_) rest
    rw [bne_iff_ne]
    rintro rfl
    exact absurd hch (by decide)
  have hzero' : 0 ∉ rest.dropWhile (!(wide "?#").contains ·) :=
    fun h0 => hzero ((List.dropWhile_sublist _).subset h0)
  have hr : (queryPartW (rest.drop (pathEndW rest)) behind).2 = rest.dropWhile (· != 0x23) := by
    rw [hdrop, ← hhash, queryPartW]
    rcases dropWhile_eq_nil_or_cons (!(wide "?#").contains ·) rest with hnil | ⟨ch, t, hcons, hch⟩
    · rw [hnil]
      rfl
    · rw [hcons] at hzero' ⊢
      by_cases hmark : ch = 0x3F
      · subst hmark
        exact parseQueryW_rest (fun h0 => hzero' (List.mem_cons_of_mem _ h0)) (Nat.le_succ _) _ _
      · have hch23 : ch = 0x23 := by
          have hor : ¬ ch = 0x3F → ch = 0x23 := by simpa [wide] using hch
          exact hor hmark
        subst hch23
        rfl
  have hstored : (parseParamsW url (rest.drop (pathEndW rest)) behind).cStrFragmentW =
      fragmentPartW url.cStrFragmentW (queryPartW (rest.drop (pathEndW rest)) behind).2 := rfl
  rw [hstored, hurl, hr, fragmentPartW, fragmentTextW]
  rcases dropWhile_eq_nil_or_cons (fun ch : WChar => ch != 0x23) rest with hnil | ⟨ch, t, hcons, hch⟩
  · rw [hnil]
    rfl
  · have hch23 : ch = 0x23 := by simpa using hch
    rw [hcons, hch23]
    rfl

/-! ### What an escape cannot contain -/

/-- More turns than there are characters make no difference. -/
theorem decodeFrom_enough {fuel fuel' : Nat} {szUrlA : List Byte} (h : szUrlA.length ≤ fuel)
    (h' : szUrlA.length ≤ fuel') (cStrDestA : List Byte) :
    decodeFrom fuel szUrlA cStrDestA = decodeFrom fuel' szUrlA cStrDestA := by
  induction fuel generalizing fuel' szUrlA cStrDestA with
  | zero =>
    obtain rfl := List.eq_nil_of_length_eq_zero (Nat.le_zero.mp h)
    cases fuel' with
    | zero => rfl
    | succ fuel' => rfl
  | succ fuel ih =>
    cases szUrlA with
    | nil =>
      cases fuel' with
      | zero => rfl
      | succ fuel' => rfl
    | cons ch rest =>
      cases fuel' with
      | zero => cases h'
      | succ fuel' =>
        have hlen : rest.length ≤ fuel := Nat.le_of_succ_le_succ h
        have hlen' : rest.length ≤ fuel' := Nat.le_of_succ_le_succ h'
        have hdrop : ∀ n dest, decodeFrom fuel ((ch :: rest).drop (n + 1)) dest =
            decodeFrom fuel' ((ch :: rest).drop (n + 1)) dest := by
          intro n dest
          refine ih ?_ ?_ dest
          · exact Nat.le_trans (List.drop_sublist n rest).length_le hlen
          · exact Nat.le_trans (List.drop_sublist n rest).length_le hlen'
        rw [decodeFrom, decodeFrom]
        simp only [hdrop, ih hlen hlen']

/-- `Decode`, behind what was decoded before. -/
def decodeOnto (szUrlA cStrDestA : List Byte) : Except HResult (List Byte) :=
  decodeFrom szUrlA.length szUrlA cStrDestA

theorem decodeOnto_cons (ch : Byte) (rest cStrDestA : List Byte) :
    decodeOnto (ch :: rest) cStrDestA =
      if ch == 0x2B then decodeOnto rest (cStrDestA ++ [0x20])
      else if ch == 0x25 then
        if (ch :: rest).length ≥ 3 && decodePct (ch :: rest) != 0 then
          decodeOnto (rest.drop 2) (cStrDestA ++ [decodePct (ch :: rest)])
        else if (ch :: rest).length ≥ 6 && decodePctU (ch :: rest) != 0 then
          match utf8Encode [decodePctU (ch :: rest)] with
          | .error hRes => .error hRes
          | .ok cStrTempA => decodeOnto (rest.drop 5) (cStrDestA ++ szStr cStrTempA)
        else decodeOnto rest (cStrDestA ++ [0x25])
      else if ch &&& 0x80 != 0 then .error .mxInvalidData
      else decodeOnto rest (cStrDestA ++ [ch]) := by
  have hdrop : ∀ n dest, decodeFrom rest.length (rest.drop n) dest =
      decodeFrom (rest.drop n).length (rest.drop n) dest := fun n dest =>
    decodeFrom_enough (List.drop_sublist n rest).length_le (Nat.le_refl _) dest
  rw [decodeOnto, List.length_cons, decodeFrom]
  simp only [decodeOnto, List.drop_succ_cons, hdrop]
  rfl

/-- The characters that no escape contains. -/
structure IsOutside (ch : Byte) : Prop where
  digit : isHexaDigit ch = none
  lower : ch ≠ 0x75
  upper : ch ≠ 0x55
  plus : ch ≠ 0x2B
  percent : ch ≠ 0x25
  ascii : ch &&& 0x80 = 0

/-- A sequence of three characters does not reach beyond `c`. -/
theorem decodePct_outside {c : Byte} (hc : IsOutside c) (x y : List Byte) :
    ((0x25 :: (x ++ c :: y)).length ≥ 3 && decodePct (0x25 :: (x ++ c :: y)) != 0) =
        ((0x25 :: x).length ≥ 3 && decodePct (0x25 :: x) != 0) ∧
      (((0x25 :: x).length ≥ 3 && decodePct (0x25 :: x) != 0) = true →
        decodePct (0x25 :: (x ++ c :: y)) = decodePct (0x25 :: x) ∧
          (x ++ c :: y).drop 2 = x.drop 2 ++ c :: y) := by
  rcases x with _ | ⟨d0, _ | ⟨d1, x⟩⟩
  · simp [decodePct, charAt, hc.digit]
  · simp [decodePct, charAt, hc.digit]
  · simp [decodePct, charAt]

theorem decodePctU_outside {c : Byte} (hc : IsOutside c) (x y : List Byte) :
    ((0x25 :: (x ++ c :: y)).length ≥ 6 && decodePctU (0x25 :: (x ++ c :: y)) != 0) =
        ((0x25 :: x).length ≥ 6 && decodePctU (0x25 :: x) != 0) ∧
      (((0x25 :: x).length ≥ 6 && decodePctU (0x25 :: x) != 0) = true →
        decodePctU (0x25 :: (x ++ c :: y)) = decodePctU (0x25 :: x) ∧
          (x ++ c :: y).drop 5 = x.drop 5 ++ c :: y) := by
  rcases x with _ | ⟨v, _ | ⟨d0, _ | ⟨d1, _ | ⟨d2, _ | ⟨d3, x⟩⟩⟩⟩⟩
  · simp [decodePctU, charAt, hc.lower, hc.upper]
  · simp [decodePctU, charAt, hc.digit]
  · simp [decodePctU, charAt, hc.digit]
  · simp [decodePctU, charAt, hc.digit]
  · simp [decodePctU, charAt, hc.digit]
  · simp [decodePctU, charAt]

/-- **A text is decoded up to such a character, and then behind it.** -/
theorem decodeOnto_append {c : Byte} (hc : IsOutside c) (x y cStrDestA : List Byte) :
    decodeOnto (x ++ c :: y) cStrDestA =
      (decodeOnto x cStrDestA).bind fun cStrTempA => decodeOnto y (cStrTempA ++ [c]) := by
  induction hn : x.length using Nat.strongRecOn generalizing x cStrDestA with
  | ind n ih =>
    cases x with
    | nil =>
      rw [List.nil_append, decodeOnto_cons, if_neg (by simpa using hc.plus),
        if_neg (by simpa using hc.percent), if_neg (by simp [hc.ascii])]
      rfl
    | cons ch x =>
      rw [List.length_cons] at hn
      have hx : ∀ dest, decodeOnto (x ++ c :: y) dest =
          (decodeOnto x dest).bind fun cStrTempA => decodeOnto y (cStrTempA ++ [c]) :=
        fun dest => ih x.length (by omega) x dest rfl
      have hdrop : ∀ k dest, decodeOnto (x.drop k ++ c :: y) dest =
          (decodeOnto (x.drop k) dest).bind fun cStrTempA => decodeOnto y (cStrTempA ++ [c]) := by
        intro k dest
        refine ih (x.drop k).length ?_ (x.drop k) dest rfl
        rw [List.length_drop]
        omega
      rw [List.cons_append, decodeOnto_cons, decodeOnto_cons]
      by_cases hplus : (ch == 0x2B) = true
      · rw [if_pos hplus, if_pos hplus, hx]
      rw [if_neg hplus, if_neg hplus]
      by_cases hpercent : (ch == 0x25) = true
      · obtain rfl := beq_iff_eq.mp hpercent
        obtain ⟨hcond, hpct⟩ := decodePct_outside hc x y
        obtain ⟨hcondU, hpctU⟩ := decodePctU_outside hc x y
        rw [if_pos hpercent, if_pos hpercent, hcond, hcondU]
        by_cases h3 : ((0x25 :: x).length ≥ 3 && decodePct (0x25 :: x) != 0) = true
        · obtain ⟨hvalue, hrest⟩ := hpct h3
          rw [if_pos h3, if_pos h3, hvalue, hrest, hdrop]
        rw [if_neg h3, if_neg h3]
        by_cases h6 : ((0x25 :: x).length ≥ 6 && decodePctU (0x25 :: x) != 0) = true
        · obtain ⟨hvalue, hrest⟩ := hpctU h6
          rw [if_pos h6, if_pos h6, hvalue, hrest]
          cases utf8Encode [decodePctU (0x25 :: x)] with
          | error hRes => rfl
          | ok cStrTempA => exact hdrop _ _
        · rw [if_neg h6, if_neg h6, hx]
      · rw [if_neg hpercent, if_neg hpercent]
        by_cases hhigh : (ch &&& 0x80 != 0) = true
        · rw [if_pos hhigh, if_pos hhigh]
          rfl
        · rw [if_neg hhigh, if_neg hhigh, hx]

/-- What was decoded before stays in front. -/
theorem decodeFrom_dest (fuel : Nat) (szUrlA cStrDestA : List Byte) :
    decodeFrom fuel szUrlA cStrDestA = (decodeFrom fuel szUrlA []).map (cStrDestA ++ ·) := by
  induction fuel generalizing szUrlA cStrDestA with
  | zero => exact congrArg Except.ok (List.append_nil _).symm
  | succ fuel ih =>
    have hnext : ∀ s dest bs : List Byte, decodeFrom fuel s (dest ++ bs) =
        (decodeFrom fuel s bs).map (dest ++ ·) := by
      intro s dest bs
      rw [ih s (dest ++ bs), ih s bs]
      cases decodeFrom fuel s [] with
      | error hRes => rfl
      | ok cStrTempA => exact congrArg Except.ok (List.append_assoc _ _ _)
    cases szUrlA with
    | nil => exact congrArg Except.ok (List.append_nil _).symm
    | cons ch rest =>
      rw [decodeFrom, decodeFrom]
      simp only [hnext, List.nil_append]
      split
      · rfl
      split
      · split
        · rfl
        split
        · cases utf8Encode [decodePctU (ch :: rest)] with
          | error hRes => rfl
          | ok cStrTempA => rfl
        · rfl
      split
      · rfl
      · rfl

theorem decode_split {c : Byte} (hc : IsOutside c) {x y w : List Byte}
    (h : decode (x ++ c :: y) = .ok w) :
    ∃ u v, decode x = .ok u ∧ decode y = .ok v ∧ w = u ++ c :: v := by
  have happ : decode (x ++ c :: y) =
      (decode x).bind fun cStrTempA => (decode y).map ((cStrTempA ++ [c]) ++ ·) := by
    have hsplit := decodeOnto_append hc x y []
    simp only [decodeOnto] at hsplit
    rw [decode, hsplit]
    refine congrArg ((decode x).bind ·) (funext fun cStrTempA => ?_)
    exact decodeFrom_dest _ _ _
  rw [happ] at h
  obtain ⟨u, hu, h⟩ := exists_of_bind_ok h
  obtain ⟨v, hv, rfl⟩ := exists_of_map_ok h
  exact ⟨u, v, hu, hv, by rw [List.append_assoc, List.singleton_append]⟩

/-- **A character that no escape contains splits what a text is decoded to.** -/
theorem decodeText_split {c : Byte} (hc : IsOutside c) {x y : List Byte} {w : List WChar}
    (h : decodeText (x ++ c :: y) = .ok w) :
    ∃ u v, decodeText x = .ok u ∧ decodeText y = .ok v ∧ w = u ++ c.toUInt16 :: v := by
  have hascii : c.toNat < 0x80 := (and_80_eq_zero_iff c).mp hc.ascii
  rw [decodeText] at h
  cases hdec : decode (x ++ c :: y) with
  | error hRes =>
    rw [hdec] at h
    cases h
  | ok b =>
    rw [hdec] at h
    obtain ⟨bx, bY, hbx, hbY, rfl⟩ := decode_split hc hdec
    obtain ⟨u, v, hu, hv, rfl⟩ := utf8Decode_split hascii h
    refine ⟨u, v, ?_, ?_, rfl⟩
    · rw [decodeText, hbx]
      exact hu
    · rw [decodeText, hbY]
      exact hv

end MxLib.Http
