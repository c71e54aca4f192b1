import MxLib.Http.UrlEncoding
import MxLib.Http.UrlTraversal

/-!
# The components of a URL

What `ToString` writes of the path, the port, the query parameters and the fragment is
read back by the parts of `ParseFromString`.  All but the port are encoded, so the
separators around them are the first ones found.
-/

namespace MxLib.Http

open MxLib.Library.Segments

/-! ### Characters that are found -/

/-- None of the characters ends a search for `szToFindA`. -/
def Clear (szToFindA szStopCharA l : List Byte) : Prop :=
  ∀ ch ∈ l, ch ≠ 0 ∧ ch ∉ szToFindA ∧ ch ∉ szStopCharA

theorem findChar_append {szToFindA szStopCharA l : List Byte} (h : Clear szToFindA szStopCharA l)
    (r : List Byte) : findChar szToFindA szStopCharA (l ++ r) =
      (findChar szToFindA szStopCharA r).map (· + l.length) := by
  induction l with
  | nil => simp
  | cons ch l ih =>
    obtain ⟨⟨hzero, hfind, hstop⟩, hl⟩ := List.forall_mem_cons.mp h
    rw [List.cons_append, findChar, if_neg (by simpa using hzero),
      if_neg (by simpa [List.contains_iff_mem] using hfind),
      if_neg (by simpa [List.contains_iff_mem] using hstop), ih hl, Option.map_map]
    rfl

theorem findChar_eq_none {szToFindA szStopCharA l : List Byte} (h : Clear szToFindA szStopCharA l) :
    findChar szToFindA szStopCharA l = none := by
  have happ := findChar_append h []
  rwa [List.append_nil, findChar, Option.map_none] at happ

theorem findChar_append_cons {szToFindA szStopCharA l : List Byte}
    (h : Clear szToFindA szStopCharA l) {ch : Byte} (hzero : ch ≠ 0) (hch : ch ∈ szToFindA)
    (r : List Byte) : findChar szToFindA szStopCharA (l ++ ch :: r) = some l.length := by
  rw [findChar_append h, findChar, if_neg (by simpa using hzero),
    if_pos (List.contains_iff_mem.mpr hch), Option.map_some, Nat.zero_add]

/-- A search that finds the end of the text, or the first character behind `l`. -/
theorem findChar_getD {szToFindA szStopCharA l r : List Byte} (h : Clear szToFindA szStopCharA l)
    (hr : r = [] ∨ ∃ ch r', r = ch :: r' ∧ ch ≠ 0 ∧ ch ∈ szToFindA) :
    (findChar szToFindA szStopCharA (l ++ r)).getD (l ++ r).length = l.length := by
  rcases hr with rfl | ⟨ch, r, rfl, hzero, hch⟩
  · rw [List.append_nil, findChar_eq_none h, Option.getD_none]
  · rw [findChar_append_cons h hzero hch, Option.getD_some]

/-- The characters that separate the components. -/
def separators : List Byte := ascii ":?#&=@\\|"

theorem isEncoded_clear {ch : Byte} (h : IsEncoded (ascii "/") ch) : ch ≠ 0 ∧ ch ∉ separators := by
  have hall : ∀ ch : Byte, (!isUnreservedChar ch ||
      (ch != 0 && !separators.contains ch)) = true := forall_byte (by decide)
  have hch := hall ch
  rcases h with h | h | rfl
  · rw [h, Bool.not_true, Bool.false_or, Bool.and_eq_true, bne_iff_ne, Bool.not_eq_true',
      ← Bool.not_eq_true, List.contains_iff_mem] at hch
    exact hch
  · rw [List.mem_singleton.mp h]
    decide
  · decide

theorem isEncoded_slash {ch : Byte} (h : IsEncoded [] ch) : IsEncoded (ascii "/") ch :=
  h.imp_right fun h => h.imp_left fun h => absurd h List.not_mem_nil

theorem clear_encoded {s : List WChar} {szToFindA : List Byte}
    (hfind : (szToFindA.all separators.contains) = true) : Clear szToFindA [] (encoded [] s) :=
  fun ch hch =>
    have hclear := isEncoded_clear (isEncoded_slash (isEncoded_of_mem hch))
    ⟨hclear.1, fun h => hclear.2 (List.contains_iff_mem.mp (List.all_eq_true.mp hfind ch h)),
      List.not_mem_nil⟩

theorem szStr_of_isKept {s : List WChar} (h : IsKeptText s) : szStr s = s :=
  szStr_of_ne_zero fun ch hch => (h ch hch).1

/-! ### Query parameters -/

theorem allowedPlain_nil : AllowedPlain [] := fun _ h => absurd h List.not_mem_nil

def itemEncoded (item : List WChar × List WChar) : List Byte :=
  encoded [] item.1 ++ if item.2 = [] then [] else 0x3D :: encoded [] item.2

def queryEncoded : Byte → List (List WChar × List WChar) → List Byte
  | _, [] => []
  | sep, item :: items => sep :: (itemEncoded item ++ queryEncoded 0x26 items)

/-- A query parameter that can be stored. -/
structure IsItem (item : List WChar × List WChar) : Prop where
  name_ne : item.1 ≠ []
  name : IsKeptText item.1
  value : IsKeptText item.2

theorem itemText_eq {item : List WChar × List WChar} (h : IsItem item) :
    itemText item = .ok (itemEncoded item) := by
  obtain ⟨name, value⟩ := item
  rw [itemText, szStr_of_isKept h.name, szStr_of_isKept h.value, toStringEncode_eq h.name,
    toStringEncode_eq h.value, itemEncoded]
  by_cases hvalue : value = []
  · subst hvalue
    rw [if_pos rfl, List.append_nil]
    rfl
  · have hne : charAt value 0 ≠ 0 := by
      have hempty := isEmptyStr_of_ne_zero (fun ch hch => (h.value ch hch).1) hvalue
      exact beq_eq_false_iff_ne.mp hempty
    rw [if_neg hvalue]
    exact if_pos (bne_iff_ne.mpr hne)

theorem queryText_eq {items : List (List WChar × List WChar)} (h : ∀ item ∈ items, IsItem item)
    (sep : Byte) : queryText sep items = .ok (queryEncoded sep items) := by
  induction items generalizing sep with
  | nil => rfl
  | cons item items ih =>
    obtain ⟨hitem, hitems⟩ := List.forall_mem_cons.mp h
    rw [queryText, itemText_eq hitem, ih hitems]
    rfl

theorem clear_itemEncoded (item : List WChar × List WChar) : Clear (ascii "#&") [] (itemEncoded item) := by
  have henc : ∀ s, Clear (ascii "#&") [] (encoded [] s) :=
    fun s => clear_encoded (by decide)
  intro ch hch
  rw [itemEncoded, List.mem_append] at hch
  rcases hch with hch | hch
  · exact henc _ ch hch
  · split at hch
    · exact absurd hch List.not_mem_nil
    · rcases List.mem_cons.mp hch with rfl | hch
      · decide
      · exact henc _ ch hch

/-- The parameter is cut at its equals sign. -/
theorem addQueryString_item {item : List WChar × List WChar} (h : IsItem item) {i : Nat}
    (hi : (findChar (ascii "=") [] (itemEncoded item)).getD (itemEncoded item).length = i) :
    addQueryString ((itemEncoded item).take i) ((itemEncoded item).drop (i + 1)) = .ok item := by
  obtain ⟨name, value⟩ := item
  have hclear : Clear (ascii "=") [] (encoded [] name) := clear_encoded (by decide)
  have hname := decodeText_encoded allowedPlain_nil h.name
  have hvalue := decodeText_encoded allowedPlain_nil h.value
  have hadd : addQueryString (encoded [] name) (encoded [] value) = .ok (name, value) := by
    rw [addQueryString, if_neg (encoded_ne_nil h.name_ne), hname, hvalue]
    exact if_neg h.name_ne
  rw [itemEncoded] at hi ⊢
  by_cases hnil : value = []
  · subst hnil
    rw [if_pos rfl, List.append_nil, findChar_eq_none hclear, Option.getD_none] at hi
    rw [if_pos rfl, List.append_nil, ← hi, List.take_length,
      List.drop_eq_nil_of_le (Nat.le_succ _)]
    exact hadd
  · rw [if_neg hnil, findChar_append_cons hclear (by decide) (by decide), Option.getD_some] at hi
    rw [if_neg hnil, ← hi, List.take_left, drop_append_cons]
    exact hadd

theorem length_itemEncoded_pos {item : List WChar × List WChar} (h : IsItem item) :
    0 < (itemEncoded item).length := by
  rw [itemEncoded]
  exact List.length_pos_of_ne_nil (List.append_ne_nil_of_left_ne_nil (encoded_ne_nil h.name_ne) _)

theorem parseQuery_item {item : List WChar × List WChar} (h : IsItem item) {rest : List Byte}
    (hrest : rest = [] ∨ ∃ ch r, rest = ch :: r ∧ ch ≠ 0 ∧ ch ∈ ascii "#&") (fuel : Nat)
    (query : List (List WChar × List WChar)) :
    parseQuery (fuel + 1) (itemEncoded item ++ rest) query = parseQuery fuel rest (query ++ [item]) := by
  have hlen := (length_itemEncoded_pos h).ne'
  have hne : itemEncoded item ≠ [] := mt List.length_eq_zero_iff.mpr hlen
  have hclear := clear_itemEncoded item
  have hpos := findChar_getD hclear hrest
  have hadd := addQueryString_item h rfl
  have htake : (itemEncoded item ++ rest).take (itemEncoded item).length = itemEncoded item :=
    List.take_left
  have hdrop : (itemEncoded item ++ rest).drop (itemEncoded item).length = rest := List.drop_left
  obtain ⟨ch, tail, hcons⟩ := List.exists_cons_of_ne_nil
    (List.append_ne_nil_of_left_ne_nil hne rest)
  have hzero : ch ≠ 0 := by
    obtain ⟨ch', tail', hitem⟩ := List.exists_cons_of_ne_nil hne
    rw [hitem, List.cons_append] at hcons
    rw [← (List.cons.inj hcons).1]
    exact (hclear ch' (by rw [hitem]; exact List.mem_cons_self)).1
  rw [hcons] at hpos htake hdrop ⊢
  rw [parseQuery, if_neg (by simpa using hzero), hpos, if_neg hlen, htake, hdrop]
  dsimp only
  rw [hadd]
  rfl

/-- What stands behind the query parameters. -/
def fragmentEncoded (cStrFragmentW : List WChar) : List Byte :=
  if cStrFragmentW = [] then [] else 0x23 :: encoded [] cStrFragmentW

theorem fragmentEncoded_cases (cStrFragmentW : List WChar) : fragmentEncoded cStrFragmentW = [] ∨
    ∃ ch r, fragmentEncoded cStrFragmentW = ch :: r ∧ ch = 0x23 := by
  rw [fragmentEncoded]
  split
  · exact Or.inl rfl
  · exact Or.inr ⟨_, _, rfl, rfl⟩

theorem queryEncoded_cases (sep : Byte) (items : List (List WChar × List WChar))
    (cStrFragmentW : List WChar) :
    queryEncoded sep items ++ fragmentEncoded cStrFragmentW = [] ∨
      ∃ ch r, queryEncoded sep items ++ fragmentEncoded cStrFragmentW = ch :: r ∧
        (ch = sep ∨ ch = 0x23) := by
  cases items with
  | nil =>
    refine (fragmentEncoded_cases cStrFragmentW).imp (fun h => by rw [h]; rfl) ?_
    rintro ⟨ch, r, h, hch⟩
    exact ⟨ch, r, by rw [h]; rfl, Or.inr hch⟩
  | cons item items => exact Or.inr ⟨sep, _, rfl, Or.inl rfl⟩

theorem queryRest_cases (items : List (List WChar × List WChar)) (cStrFragmentW : List WChar) :
    queryEncoded 0x26 items ++ fragmentEncoded cStrFragmentW = [] ∨
      ∃ ch r, queryEncoded 0x26 items ++ fragmentEncoded cStrFragmentW = ch :: r ∧ ch ≠ 0 ∧
        ch ∈ ascii "#&" := by
  refine (queryEncoded_cases 0x26 items cStrFragmentW).imp_right ?_
  rintro ⟨ch, r, h, rfl | rfl⟩
  · exact ⟨_, r, h, by decide, by decide⟩
  · exact ⟨_, r, h, by decide, by decide⟩

theorem parseQuery_items {items : List (List WChar × List WChar)} (h : ∀ item ∈ items, IsItem item)
    (cStrFragmentW : List WChar) {fuel : Nat} (query : List (List WChar × List WChar))
    (hfuel : (queryEncoded 0x26 items ++ fragmentEncoded cStrFragmentW).length ≤ fuel) :
    parseQuery fuel (queryEncoded 0x26 items ++ fragmentEncoded cStrFragmentW) query =
      .ok (query ++ items, fragmentEncoded cStrFragmentW) := by
  induction items generalizing fuel query with
  | nil =>
    rw [List.append_nil, queryEncoded, List.nil_append]
    cases fuel with
    | zero => rfl
    | succ fuel =>
      rcases fragmentEncoded_cases cStrFragmentW with hnil | ⟨ch, r, hcons, rfl⟩
      · rw [hnil]
        rfl
      · rw [hcons, parseQuery, if_neg (by decide)]
        rfl
  | cons item items ih =>
    obtain ⟨hitem, hitems⟩ := List.forall_mem_cons.mp h
    rw [queryEncoded, List.cons_append, List.append_assoc, List.length_cons, List.length_append] at hfuel
    have hlen := length_itemEncoded_pos hitem
    obtain ⟨fuel, rfl⟩ : ∃ n, fuel = n + 2 := ⟨fuel - 2, by omega⟩
    have hskip : parseQuery (fuel + 2) (queryEncoded 0x26 (item :: items) ++
          fragmentEncoded cStrFragmentW) query =
        parseQuery (fuel + 1) (itemEncoded item ++
          (queryEncoded 0x26 items ++ fragmentEncoded cStrFragmentW)) query := by
      rw [queryEncoded, List.cons_append, List.append_assoc, parseQuery, if_neg (by decide)]
      rfl
    rw [hskip, parseQuery_item hitem (queryRest_cases items cStrFragmentW), ih hitems _ (by omega), List.append_assoc,
      List.singleton_append]

theorem queryPart_eq {items : List (List WChar × List WChar)} (h : ∀ item ∈ items, IsItem item)
    (cStrFragmentW : List WChar) :
    queryPart (queryEncoded 0x3F items ++ fragmentEncoded cStrFragmentW) =
      .ok (items, fragmentEncoded cStrFragmentW) := by
  cases items with
  | nil =>
    rw [queryEncoded, List.nil_append, queryPart, if_neg]
    rcases fragmentEncoded_cases cStrFragmentW with hnil | ⟨ch, r, hcons, rfl⟩
    · rw [hnil]
      decide
    · rw [hcons]
      exact Bool.false_ne_true
  | cons item items =>
    obtain ⟨hitem, hitems⟩ := List.forall_mem_cons.mp h
    rw [queryPart, if_pos (by rfl), queryEncoded, List.cons_append, List.drop_succ_cons,
      List.drop_zero, List.length_cons, List.append_assoc,
      parseQuery_item hitem (queryRest_cases items cStrFragmentW),
      parseQuery_items hitems _ _ (by simp only [List.length_append]; omega)]
    rfl

theorem fragmentText_eq {cStrFragmentW : List WChar} (h : IsKeptText cStrFragmentW) :
    fragmentText cStrFragmentW = .ok (fragmentEncoded cStrFragmentW) := by
  rw [fragmentText, fragmentEncoded]
  by_cases hnil : cStrFragmentW = []
  · subst hnil
    rfl
  · have hempty : isEmptyStr cStrFragmentW = false :=
      isEmptyStr_of_ne_zero (fun ch hch => (h ch hch).1) hnil
    rw [if_neg hnil, hempty, if_neg Bool.false_ne_true, toStringEncode_eq h]
    rfl

theorem fragmentPart_eq {cStrFragmentW : List WChar} (h : IsKeptText cStrFragmentW) :
    fragmentPart [] (fragmentEncoded cStrFragmentW) = .ok cStrFragmentW := by
  rw [fragmentEncoded]
  by_cases hnil : cStrFragmentW = []
  · subst hnil
    rfl
  · rw [if_neg hnil, fragmentPart, if_pos (by rfl), List.drop_succ_cons, List.drop_zero,
      if_neg (encoded_ne_nil hnil), decodeText_encoded allowedPlain_nil h]

/-- **The parameters and the fragment are read back.** -/
theorem parseParams_eq {url : Url} (hfragment : url.cStrFragmentW = [])
    {items : List (List WChar × List WChar)} (hitems : ∀ item ∈ items, IsItem item)
    {cStrFragmentW : List WChar} (h : IsKeptText cStrFragmentW) :
    parseParams url (queryEncoded 0x3F items ++ fragmentEncoded cStrFragmentW) =
      .ok { url with cQueryStringsList := items, cStrFragmentW := cStrFragmentW } := by
  rw [parseParams, queryPart_eq hitems]
  change (do let cStrFragmentW ← fragmentPart url.cStrFragmentW (fragmentEncoded cStrFragmentW); _) = _
  rw [hfragment, fragmentPart_eq h]
  rfl

/-! ### Paths -/

theorem allowedPlain_slash : AllowedPlain (ascii "/") := by
  intro ch hch
  rw [List.mem_singleton.mp hch]
  decide

/-- **A path that is reduced is normalized**, where it cannot be the name of a file. -/
theorem normalizePath_of_reduced {cStrPathW szSchemeW : List WChar}
    (hfn : canBeFilename szSchemeW = false) (hzero : (0 : WChar) ∉ cStrPathW)
    (h : reducePath cStrPathW szSchemeW = .ok cStrPathW) :
    IsText cStrPathW ∧ normalizePath cStrPathW szSchemeW = cStrPathW := by
  have hnormalize : ∀ p : List WChar, (0 : WChar) ∉ p →
      normalizePath p szSchemeW = collapse slashW (p.map toSlash) := fun p hp => by
    have heq := normalizePath_eq (t := []) hp rfl szSchemeW
    rwa [List.append_nil, List.append_nil, hfn] at heq
  obtain ⟨hl, hl'⟩ := isText_map_toSlash hzero
  have htext : IsText (collapse slashW (cStrPathW.map toSlash)) :=
    ⟨fun h => hl (mem_collapse h), fun h => hl' (mem_collapse h)⟩
  have hcollapsed : Collapsed slashW (collapse slashW (cStrPathW.map toSlash)) := collapsed_collapse _
  -- the path and what it is normalized to are reduced to the same path
  have hreduce : reducePath (collapse slashW (cStrPathW.map toSlash)) szSchemeW = .ok cStrPathW := by
    by_cases hempty : isEmptyStr cStrPathW = true
    · rw [eq_nil_of_isEmptyStr hzero hempty]
      rfl
    · have hempty' : ¬ isEmptyStr (collapse slashW (cStrPathW.map toSlash)) = true := by
        intro hcontra
        have hnil := eq_nil_of_isEmptyStr htext.1 hcontra
        have hhead : (collapse slashW (cStrPathW.map toSlash)).head? = (cStrPathW.map toSlash).head? :=
          head_collapse _
        rw [hnil, List.head?_nil, eq_comm, List.head?_eq_none_iff, List.map_eq_nil_iff] at hhead
        rw [hhead] at hempty
        exact hempty isEmptyStr_nil
      rw [reducePath, if_neg hempty, hnormalize _ hzero] at h
      rw [reducePath, if_neg hempty', hnormalize _ htext.1, map_toSlash htext,
        collapse_of_collapsed hcollapsed]
      exact h
  obtain ⟨suf', hR, hresolved⟩ := reducePath_front (t := [])
    (show Front (canBeFilename szSchemeW) [] _ from
      .plain fun htrue => by rw [hfn] at htrue; cases htrue) hcollapsed htext rfl
    (by rw [List.nil_append, List.append_nil]; exact hreduce)
  rw [List.nil_append, List.append_nil] at hR
  have htext' : IsText cStrPathW := by
    refine ⟨hzero, fun hback => ?_⟩
    rw [hR] at hback
    rcases hresolved.mem _ hback with h | h
    · exact absurd h (by decide)
    · exact htext.2 h
  refine ⟨htext', ?_⟩
  rw [hnormalize _ hzero, map_toSlash htext', hR, collapse_of_collapsed hresolved.collapsed]

/-- No escape in an encoded path stands for a character that is not allowed there. -/
theorem hasDisallowed_encoded {cStrPathW : List WChar} (hkept : IsKeptText cStrPathW)
    (htext : IsText cStrPathW) :
    hasDisallowedEscapedSequences (encoded (ascii "/") cStrPathW) = false := by
  have hnot : ∀ d0 d1 t, (∀ b : Byte, b ≠ 0 → b ≠ 0x2F → b ≠ 0x5C → encodeByte b ≠ [0x25, d0, d1]) →
      (0 : Byte) ∉ (0x25 :: d0 :: d1 :: t : List Byte) →
      strNFindA (0x25 :: d0 :: d1 :: t) (encoded (ascii "/") cStrPathW) = false := by
    intro d0 d1 t hb hzero
    refine Bool.eq_false_iff.mpr fun hfind => ?_
    obtain ⟨b, u, hu, hmem, hcopied, hbyte⟩ :=
      exists_encodeByte_of_infix allowedPlain_slash (isInfix_of_strNFindA hzero hfind)
    obtain ⟨hb0, hbslash, hbback⟩ := byte_of_not_copied (hkept u hu).1 hcopied
      (by rintro rfl; exact htext.2 hu) hmem
    exact hb b hb0 hbslash hbback hbyte
  have hpct : ∀ (b d0 d1 : Byte), encodeByte b = [0x25, d0, d1] → b = decodePct [0x25, d0, d1] := by
    intro b d0 d1 h
    rw [← h, ← List.append_nil (encodeByte b), decodePct_encodeByte]
  have h00 := hnot 0x30 0x30 [] (fun b hb _ _ h => hb (hpct b _ _ h)) (by decide)
  have h2F := hnot 0x32 0x46 [] (fun b _ hb _ h => hb (hpct b _ _ h)) (by decide)
  have h5C := hnot 0x35 0x43 [] (fun b _ _ hb h => hb (hpct b _ _ h)) (by decide)
  have hu := fun t => hnot 0x75 0x30 t (fun b hb _ _ h => hb (hpct b _ _ h))
  rw [hasDisallowedEscapedSequences]
  simp only [Bool.or_eq_false_iff]
  exact ⟨⟨⟨⟨⟨h00, h2F⟩, h5C⟩, hu _ (by decide)⟩, hu _ (by decide)⟩, hu _ (by decide)⟩

theorem not_mem_of_encoded {s : List WChar} {ch : Byte} (hch : ch ∈ separators) :
    ch ∉ encoded (ascii "/") s := fun h => (isEncoded_clear (isEncoded_of_mem h)).2 hch

theorem charAt_ne {l : List Byte} {ch : Byte} (hzero : ch ≠ 0) (h : ch ∉ l) (k : Nat) :
    charAt l k ≠ ch := by
  rw [charAt, List.getD_eq_getElem?_getD]
  cases hk : l[k]? with
  | none => exact fun heq => hzero heq.symm
  | some c =>
    rintro rfl
    exact h (List.mem_of_getElem? hk)

theorem slashed_eq {l : List Byte} (h : 0x5C ∉ l) : pathText.slashed l = l := by
  induction l with
  | nil => rfl
  | cons ch l ih =>
    obtain ⟨hch, hl⟩ := not_or.mp (List.mem_cons.not.mp h)
    rw [pathText.slashed, ih hl, if_neg (c := (ch == 0x5C) = true) (by simpa using Ne.symm hch)]
    split <;> rfl

/-- An encoded path has neither a backslash nor a drive. -/
theorem pathText_encoded (s : List WChar) :
    pathText (encoded (ascii "/") s) = encoded (ascii "/") s := by
  have hcolon : ∀ k, charAt (encoded (ascii "/") s) k ≠ 0x3A :=
    charAt_ne (by decide) (not_mem_of_encoded (by decide))
  have hpipe : ∀ k, charAt (encoded (ascii "/") s) k ≠ 0x7C :=
    charAt_ne (by decide) (not_mem_of_encoded (by decide))
  rw [pathText, slashed_eq (not_mem_of_encoded (by decide)), if_neg]
  simp [hcolon, hpipe]

/-- The path of a URL that is read back. -/
structure IsUrlPath (cStrPathW szSchemeW : List WChar) : Prop where
  canBeFilename : canBeFilename szSchemeW = false
  slash : charAt cStrPathW 0 = slashW
  kept : IsKeptText cStrPathW
  reduced : reducePath cStrPathW szSchemeW = .ok cStrPathW

theorem IsUrlPath.ne_nil {cStrPathW szSchemeW : List WChar} (h : IsUrlPath cStrPathW szSchemeW) :
    cStrPathW ≠ [] := by
  rintro rfl
  exact absurd h.slash (by decide)

theorem IsUrlPath.normalized {cStrPathW szSchemeW : List WChar} (h : IsUrlPath cStrPathW szSchemeW) :
    IsText cStrPathW ∧ normalizePath cStrPathW szSchemeW = cStrPathW :=
  normalizePath_of_reduced h.canBeFilename (fun hz => (h.kept 0 hz).1 rfl) h.reduced

/-- **The path is read back.** -/
theorem setPath_encoded {cStrPathW szSchemeW : List WChar} (h : IsUrlPath cStrPathW szSchemeW) :
    setPath (encoded (ascii "/") cStrPathW) szSchemeW = .ok cStrPathW := by
  obtain ⟨htext, hnorm⟩ := h.normalized
  rw [setPath, if_neg (encoded_ne_nil h.ne_nil), hasDisallowed_encoded h.kept htext,
    if_neg Bool.false_ne_true, decodeText_encoded allowedPlain_slash h.kept]
  exact congrArg Except.ok ((if_neg h.ne_nil).trans hnorm)

theorem pathPart_eq {url : Url} (h : IsUrlPath url.cStrPathW url.cStrSchemeW) :
    pathPart (ascii "/") url addAll = .ok (encoded (ascii "/") url.cStrPathW) := by
  have hempty : isEmptyStr url.cStrPathW = false :=
    isEmptyStr_of_ne_zero (fun ch hch => (h.kept ch hch).1) h.ne_nil
  rw [pathPart, hempty, szStr_of_isKept h.kept]
  change (do let cStrTempW ← reducePath url.cStrPathW url.cStrSchemeW; _) = _
  rw [h.reduced]
  exact toStringEncode_eq h.kept

theorem head_encoded_path {cStrPathW szSchemeW : List WChar} (h : IsUrlPath cStrPathW szSchemeW) :
    ∃ r, encoded (ascii "/") cStrPathW = 0x2F :: r := by
  cases cStrPathW with
  | nil => exact absurd rfl h.ne_nil
  | cons u s =>
    obtain rfl : u = slashW := h.slash
    exact ⟨encoded (ascii "/") s, rfl⟩

/-! ### Ports -/

theorem decimal_of_lt {n : Nat} (h : n < 10) : decimal n = [UInt8.ofNat (0x30 + n)] := by
  have hchar : ∀ d < 10, UInt8.ofNat (Nat.digitChar d).toNat = UInt8.ofNat (0x30 + d) := by decide
  rw [decimal, Nat.toDigits_of_lt_base h, List.map_singleton, hchar n h]

theorem decimal_of_le {n : Nat} (h : 10 ≤ n) :
    decimal n = decimal (n / 10) ++ [UInt8.ofNat (0x30 + n % 10)] := by
  have hlt : n % 10 < 10 := Nat.mod_lt n (by decide)
  rw [← decimal_of_lt hlt, decimal, decimal, decimal, Nat.toDigits_of_base_le (by decide) h,
    Nat.toDigits_of_lt_base hlt]
  exact List.map_append

theorem parsePort_digit {d : Nat} (h : d < 10) (nPort : Nat) (rest : List Byte)
    (hle : nPort * 10 + d ≤ 65535) :
    parsePort nPort (UInt8.ofNat (0x30 + d) :: rest) = parsePort (nPort * 10 + d) rest := by
  have hdigit : (0x30 ≤ UInt8.ofNat (0x30 + d) && UInt8.ofNat (0x30 + d) ≤ 0x39) = true ∧
      (UInt8.ofNat (0x30 + d)).toNat - 0x30 = d := by
    revert h
    clear hle
    revert d
    decide
  rw [parsePort, if_pos hdigit.1, hdigit.2, if_neg (by omega)]

/-- **The digits of a port are read.** -/
theorem parsePort_decimal {n : Nat} (h : n ≤ 65535) (rest : List Byte) :
    parsePort 0 (decimal n ++ rest) = parsePort n rest := by
  induction n using Nat.strong_induction_on generalizing rest with
  | _ n ih =>
    by_cases hlt : n < 10
    · rw [decimal_of_lt hlt, List.singleton_append, parsePort_digit hlt 0 rest (by omega),
        Nat.zero_mul, Nat.zero_add]
    · rw [decimal_of_le (by omega), List.append_assoc, List.singleton_append,
        ih (n / 10) (by omega) (by omega), parsePort_digit (Nat.mod_lt n (by decide)) _ _ (by omega)]
      congr 1
      omega

theorem mem_decimal {n : Nat} {ch : Byte} (h : ch ∈ decimal n) : 0x30 ≤ ch ∧ ch ≤ 0x39 := by
  induction n using Nat.strong_induction_on with
  | _ n ih =>
    have hdigit : ∀ d < 10, 0x30 ≤ UInt8.ofNat (0x30 + d) ∧ UInt8.ofNat (0x30 + d) ≤ 0x39 := by decide
    by_cases hlt : n < 10
    · rw [decimal_of_lt hlt, List.mem_singleton] at h
      rw [h]
      exact hdigit n hlt
    · rw [decimal_of_le (by omega), List.mem_append, List.mem_singleton] at h
      rcases h with h | rfl
      · exact ih (n / 10) (by omega) h
      · exact hdigit _ (Nat.mod_lt n (by decide))

end MxLib.Http
