import MxLib.Http.HeaderBase

/-!
# Text in quotes

`BuildQuotedString` puts a backslash before each quote and each backslash of a text,
and `GetQuotedString` takes them away again.  For narrow text the two fit
(`quoteA`).  Wide text is transliterated to ISO-8859-1 after the characters to escape
are found, so a character that becomes a quote or a backslash has no backslash before
it: such a quote ends the quoted string, and such a backslash hides the character
behind it (`readsQuoted_iff`).
-/

namespace MxLib.Http

open MxLib.Library

/-! ### What is read -/

/-- What `GetQuotedString` returns for text without control characters, from the given
place in the quotes on. -/
def scanQuoted : List Byte → List Byte → QuotedResult
  | [], cStrA => ⟨.eInvalidArg, cStrA, []⟩
  | [ch], cStrA =>
    if ch == chQuote then ⟨.sOk, cStrA, []⟩
    else if ch == chBackslash then ⟨.eInvalidArg, cStrA, []⟩
    else ⟨.eInvalidArg, cStrA ++ [ch], []⟩
  | ch :: esc :: rest, cStrA =>
    if ch == chQuote then ⟨.sOk, cStrA, esc :: rest⟩
    else if ch == chBackslash then
      if esc == 0 then ⟨.eInvalidArg, cStrA, esc :: rest⟩ else scanQuoted rest (cStrA ++ [esc])
    else scanQuoted (esc :: rest) (cStrA ++ [ch])

theorem scanQuoted_quote (rest cStrA : List Byte) :
    scanQuoted (chQuote :: rest) cStrA = ⟨.sOk, cStrA, rest⟩ := by
  cases rest <;> simp [scanQuoted]

theorem scanQuoted_escape {esc : Byte} (hesc : esc ≠ 0) (rest cStrA : List Byte) :
    scanQuoted (chBackslash :: esc :: rest) cStrA = scanQuoted rest (cStrA ++ [esc]) := by
  simp [scanQuoted, show chBackslash ≠ chQuote by decide, hesc]

theorem scanQuoted_plain {ch : Byte} (hq : ch ≠ chQuote) (hb : ch ≠ chBackslash)
    (rest cStrA : List Byte) : scanQuoted (ch :: rest) cStrA = scanQuoted rest (cStrA ++ [ch]) := by
  cases rest with
  | nil => simp [scanQuoted, hq, hb]
  | cons esc rest => simp [scanQuoted, hq, hb]

/-- Plain text can be taken as a whole. -/
theorem scanQuoted_dropWhile (sA : List Byte) : ∀ cStrA,
    scanQuoted (sA.dropWhile isQuotedText) (cStrA ++ sA.takeWhile isQuotedText) =
      scanQuoted sA cStrA := by
  induction sA with
  | nil => intro cStrA; simp
  | cons ch rest ih =>
    intro cStrA
    by_cases h : isQuotedText ch = true
    · obtain ⟨hq, hb⟩ := isQuotedText_ne h
      rw [List.dropWhile_cons, if_pos h, List.takeWhile_cons, if_pos h, scanQuoted_plain hq hb,
        ← ih, List.append_assoc, List.singleton_append]
    · rw [List.dropWhile_cons, if_neg h, List.takeWhile_cons, if_neg h, List.append_nil]

/-- What is returned after a turn of the loop. -/
def afterTurn : QuotedScan ⊕ QuotedResult → QuotedResult
  | .inl t => scanQuoted t.sA t.cStrA
  | .inr r => r

theorem afterTurn_quotedStop (sA cStrA : List Byte) :
    afterTurn (quotedStop sA cStrA) = scanQuoted sA cStrA := by
  cases sA with
  | nil => rfl
  | cons ch rest =>
    by_cases hb : ch = chBackslash
    · subst hb
      cases rest with
      | nil => rfl
      | cons esc rest =>
        by_cases he : esc = 0
        · subst he
          rfl
        · rw [quotedStop_escape he, scanQuoted_escape he]
          rfl
    · rw [quotedStop_of_ne hb]
      rfl

theorem afterTurn_quotedTurn (sA cStrA : List Byte) :
    afterTurn (quotedTurn ⟨sA, cStrA⟩) = scanQuoted sA cStrA := by
  cases sA with
  | nil => rfl
  | cons c tail =>
    by_cases hc : c = chQuote
    · rw [hc, scanQuoted_quote]
      rfl
    · rw [quotedTurn_of_ne hc, afterTurn_quotedStop, scanQuoted_dropWhile]

/-- **Text without control characters is read character by character.** -/
theorem run_quotedTurn (n : Nat) : ∀ {sA : List Byte} (cStrA : List Byte), sA.length < n →
    quotedTextOk sA = true →
    Loop.run quotedTurn n ⟨sA, cStrA⟩ = some (scanQuoted sA cStrA) := by
  induction n with
  | zero => intro sA cStrA hn _; omega
  | succ n ih =>
    intro sA cStrA hn hok
    have hafter := afterTurn_quotedTurn sA cStrA
    cases hturn : quotedTurn ⟨sA, cStrA⟩ with
    | inl t =>
      obtain ⟨hok', hlt⟩ := quotedTurn_progress hok hturn
      have hlt' : t.sA.length < sA.length := hlt
      rw [Loop.run_succ_inl hturn, ← hafter, hturn]
      exact ih t.cStrA (by omega) hok'
    | inr r =>
      rw [Loop.run_succ_inr hturn, ← hafter, hturn]
      rfl

/-- The text between two quotes is read as the given one, up to the closing quote. -/
def ReadsQuoted (text cStrA : List Byte) : Prop :=
  ∃ fuel, getQuotedString fuel (chQuote :: (text ++ [chQuote])) = some ⟨.sOk, cStrA, []⟩

/-- No character below a space ends the inner loop. -/
def Printable (text : List Byte) : Prop := ∀ ch ∈ text, 0x20 ≤ ch

theorem quotedTextOk_of_printable (text : List Byte) (h : Printable text) :
    quotedTextOk text = true := by
  induction hn : text.length using Nat.strongRecOn generalizing text with
  | ind n ih =>
    match text, h with
    | [], _ => rfl
    | ch :: rest, h =>
      by_cases hq : ch = chQuote
      · rw [hq, quotedTextOk_quote]
      · by_cases hb : ch = chBackslash
        · subst hb
          match rest, h with
          | [], _ => decide
          | esc :: rest, h =>
            have hlt : rest.length < n := by
              rw [← hn, List.length_cons, List.length_cons]
              omega
            rw [quotedTextOk_escape, ih rest.length hlt rest
              (fun c hc => h c (by simp [hc])) rfl, Bool.or_true]
        · have hplain : isQuotedText ch = true := by
            have hch := h ch List.mem_cons_self
            simp [isQuotedText, hq, hb, hch]
          rw [quotedTextOk_plain hplain]
          exact ih rest.length (by rw [← hn]; simp) rest
            (fun c hc => h c (List.mem_cons_of_mem ch hc)) rfl

/-- For printable text the scan has one result. -/
theorem readsQuoted_iff_scan {text : List Byte} (h : Printable text) (cStrA : List Byte) :
    ReadsQuoted text cStrA ↔ scanQuoted (text ++ [chQuote]) [] = ⟨.sOk, cStrA, []⟩ := by
  have hok : quotedTextOk (text ++ [chQuote]) = true := by
    refine quotedTextOk_of_printable _ fun ch hch => ?_
    rcases List.mem_append.mp hch with hch | hch
    · exact h ch hch
    · rw [List.mem_singleton.mp hch]
      decide
  have hrun := run_quotedTurn ((text ++ [chQuote]).length + 1) [] (Nat.lt_succ_self _) hok
  simp only [ReadsQuoted, getQuotedString, beq_self_eq_true, if_true]
  constructor
  · rintro ⟨fuel, hfuel⟩
    exact Loop.run_unique hrun hfuel
  · intro hscan
    exact ⟨_, hrun.trans (by rw [hscan])⟩

/-! ### What is written -/

/-- A character of narrow text in quotes. -/
def quoteA (ch : Byte) : List Byte := if isPlainA ch then [ch] else [chBackslash, ch]

/-- A unit of wide text in quotes. -/
def quoteW (ch : WChar) : List Byte := if isPlainW ch then isoUnit ch else [chBackslash, ch.toUInt8]

section Quote

variable {α : Type} {isPlain : α → Bool} {copy : List α → List Byte} {toByte : α → Byte}
  {quote : α → List Byte}

theorem quoteTurn_nil (cStrA : List Byte) :
    quoteTurn isPlain copy toByte ([], cStrA) = .inr cStrA := rfl

/-- A turn makes the text that is left shorter, and quotes what it takes. -/
theorem quoteTurn_cons (hcopy : ∀ l, (∀ ch ∈ l, isPlain ch = true) → copy l = l.flatMap quote)
    (hquote : ∀ ch, isPlain ch = false → quote ch = [chBackslash, toByte ch]) (ch : α)
    (rest : List α) (cStrA : List Byte) :
    ∃ szStr' cStrA', quoteTurn isPlain copy toByte (ch :: rest, cStrA) = .inl (szStr', cStrA') ∧
      szStr'.length < (ch :: rest).length ∧
      cStrA' ++ szStr'.flatMap quote = cStrA ++ (ch :: rest).flatMap quote := by
  have hsplit := List.takeWhile_append_dropWhile (p := isPlain) (l := ch :: rest)
  have hrun := hcopy ((ch :: rest).takeWhile isPlain) 
    fun c hc => List.all_eq_true.mp List.all_takeWhile c hc
  cases hdrop : (ch :: rest).dropWhile isPlain with
  | nil =>
    refine ⟨[], cStrA ++ copy ((ch :: rest).takeWhile isPlain), ?_, Nat.succ_pos _, ?_⟩
    · simp only [quoteTurn, hdrop]
    · rw [hdrop, List.append_nil] at hsplit
      rw [hrun, hsplit, List.flatMap_nil, List.append_nil]
  | cons c tail =>
    have hc : isPlain c = false := by
      have hhead := List.head_dropWhile_not isPlain (l := ch :: rest) (by simp [hdrop])
      simpa [hdrop] using hhead
    refine ⟨tail, cStrA ++ copy ((ch :: rest).takeWhile isPlain) ++ [chBackslash, toByte c],
      ?_, ?_, ?_⟩
    · simp only [quoteTurn, hdrop]
    · have hlen := (List.dropWhile_sublist (p := isPlain) (l := ch :: rest)).length_le
      rw [hdrop, List.length_cons] at hlen
      omega
    · rw [hdrop] at hsplit
      rw [hrun, ← hquote c hc, ← hsplit, List.flatMap_append, List.flatMap_cons]
      simp only [hsplit, List.append_assoc]

/-- **The loop quotes character by character.** -/
theorem exec_quoteTurn (hcopy : ∀ l, (∀ ch ∈ l, isPlain ch = true) → copy l = l.flatMap quote)
    (hquote : ∀ ch, isPlain ch = false → quote ch = [chBackslash, toByte ch]) (n : Nat) :
    ∀ (szStr : List α) (cStrA dflt : List Byte), szStr.length ≤ n →
      Loop.exec (quoteTurn isPlain copy toByte) (fun c => c.1.length) dflt (szStr, cStrA) =
        cStrA ++ szStr.flatMap quote := by
  have hm : ∀ c c' : List α × List Byte, quoteTurn isPlain copy toByte c = .inl c' →
      c'.1.length < c.1.length := by
    rintro ⟨szStr, cStrA⟩ c' h
    cases szStr with
    | nil => cases h
    | cons ch rest =>
      obtain ⟨szStr', cStrA', hturn, hlt, -⟩ := quoteTurn_cons hcopy hquote ch rest cStrA
      rw [hturn] at h
      cases h
      exact hlt
  induction n with
  | zero =>
    intro szStr cStrA dflt hn
    obtain rfl := List.length_eq_zero_iff.mp (Nat.le_zero.mp hn)
    rw [Loop.exec_inr dflt (quoteTurn_nil cStrA), List.flatMap_nil, List.append_nil]
  | succ n ih =>
    intro szStr cStrA dflt hn
    cases szStr with
    | nil => rw [Loop.exec_inr dflt (quoteTurn_nil cStrA), List.flatMap_nil, List.append_nil]
    | cons ch rest =>
      obtain ⟨szStr', cStrA', hturn, hlt, hout⟩ := quoteTurn_cons hcopy hquote ch rest cStrA
      rw [Loop.exec_inl hm dflt hturn, ih szStr' cStrA' dflt (by omega), hout]

end Quote

theorem buildQuotedStringA_eq (szStrA : List Byte) :
    buildQuotedStringA szStrA false = szStrA.flatMap quoteA := by
  rw [buildQuotedStringA, Bool.false_and, if_neg (by decide)]
  refine exec_quoteTurn ?_ ?_ _ szStrA [] [] (Nat.le_refl _)
  · intro l hl
    induction l with
    | nil => rfl
    | cons ch l ih =>
      obtain ⟨hch, hl⟩ := List.forall_mem_cons.mp hl
      rw [List.flatMap_cons, quoteA, if_pos hch, ← ih hl]
      rfl
  · intro ch hch
    rw [quoteA, hch]
    rfl

theorem buildQuotedStringW_eq (szStrW : List WChar) :
    buildQuotedStringW szStrW false = szStrW.flatMap quoteW := by
  rw [buildQuotedStringW, Bool.false_and, if_neg (by decide)]
  refine exec_quoteTurn ?_ ?_ _ szStrW [] [] (Nat.le_refl _)
  · intro l hl
    induction l with
    | nil => rfl
    | cons ch l ih =>
      obtain ⟨hch, hl⟩ := List.forall_mem_cons.mp hl
      rw [List.flatMap_cons, quoteW, if_pos hch, ← ih hl]
      rfl
  · intro ch hch
    rw [quoteW, hch]
    rfl

/-! ### The transliteration -/

/-- The units that become a quote or a backslash without being one. -/
def hiddenSpecials : List WChar := [0x02B9, 0x030E, 0x201C, 0x201D, 0x201E, 0xFF02, 0xFF3C]

theorem charAt_of_all {p : Byte → Bool} {l : List Byte} (h : l.all p = true) {k : Nat}
    (hk : k < l.length) : p (charAt l k) = true := by
  rw [charAt, List.getD_eq_getElem?_getD, List.getElem?_eq_getElem hk, Option.getD_some]
  exact List.all_eq_true.mp h _ (List.getElem_mem hk)

theorem toNat_sub_lt {chW a b : WChar} (ha : a ≤ chW) (hb : chW < b) {n : Nat}
    (hn : b.toNat - a.toNat ≤ n) : (chW - a).toNat < n := by
  have hle := UInt16.le_iff_toNat_le.mp ha
  have hlt := UInt16.lt_iff_toNat_lt.mp hb
  rw [UInt16.toNat_sub_of_le _ _ ha]
  omega

/-- Where the transliteration comes from. -/
inductive IsoSource (chW : WChar) : Prop
  | latin : chW < 0x0100 → utf16ToIso88591 chW = chW.toUInt8 → IsoSource chW
  | table {l : List Byte} {k : Nat} : l ∈ [isoFrom0100, isoFrom014C, isoFrom01CD, isoFrom01E4] →
      k < l.length → utf16ToIso88591 chW = charAt l k → IsoSource chW
  | case {c : List WChar × List Byte} : c ∈ isoCases → chW ∈ c.1 →
      utf16ToIso88591 chW = charAt c.2 0 → IsoSource chW
  | wide {k : Nat} : k < 94 → chW = UInt16.ofNat (0xFF01 + k) →
      utf16ToIso88591 chW = charAt isoFromFF01 k → IsoSource chW
  | question : utf16ToIso88591 chW = chQuestion → IsoSource chW

theorem isoSource (chW : WChar) : IsoSource chW := by
  have hlen : isoFrom0100.length = 73 ∧ isoFrom014C.length = 51 ∧ isoFrom01CD.length = 16 ∧
      isoFrom01E4.length = 10 := by
    rw [isoFrom0100, isoFrom014C, isoFrom01CD, isoFrom01E4, ascii_eq_map (by rfl),
      ascii_eq_map (by rfl), ascii_eq_map (by rfl), ascii_eq_map (by rfl)]
    decide
  obtain ⟨h1, h2, h3, h4⟩ := hlen
  by_cases h0100 : chW < 0x0100
  · exact .latin h0100 (by rw [utf16ToIso88591, if_pos h0100])
  by_cases h0149 : chW < 0x0149
  · refine .table (l := isoFrom0100) (by simp) ?_
      (by rw [utf16ToIso88591, if_neg h0100, if_pos h0149])
    exact toNat_sub_lt (UInt16.not_lt.mp h0100) h0149 (by rw [h1]; decide)
  by_cases h014C : chW < 0x014C
  · exact .question (by rw [utf16ToIso88591, if_neg h0100, if_neg h0149, if_pos h014C])
  by_cases h017F : chW < 0x017F
  · refine .table (l := isoFrom014C) (by simp) ?_
      (by rw [utf16ToIso88591, if_neg h0100, if_neg h0149, if_neg h014C, if_pos h017F])
    exact toNat_sub_lt (UInt16.not_lt.mp h014C) h017F (by rw [h2]; decide)
  by_cases h01CD : (chW ≥ 0x01CD && chW < 0x01DC) = true
  · have hbounds : 0x01CD ≤ chW ∧ chW < 0x01DC := by simpa using h01CD
    refine .table (l := isoFrom01CD) (by simp) ?_ (by
      rw [utf16ToIso88591, if_neg h0100, if_neg h0149, if_neg h014C, if_neg h017F, if_pos h01CD])
    exact toNat_sub_lt hbounds.1 hbounds.2 (by rw [h3]; decide)
  by_cases h01E4 : (chW ≥ 0x01E4 && chW < 0x01ED) = true
  · have hbounds : 0x01E4 ≤ chW ∧ chW < 0x01ED := by simpa using h01E4
    refine .table (l := isoFrom01E4) (by simp) ?_ (by
      rw [utf16ToIso88591, if_neg h0100, if_neg h0149, if_neg h014C, if_neg h017F, if_neg h01CD,
        if_pos h01E4])
    exact toNat_sub_lt hbounds.1 hbounds.2 (by rw [h4]; decide)
  have hrest := utf16ToIso88591.eq_1 chW
  rw [if_neg h0100, if_neg h0149, if_neg h014C, if_neg h017F, if_neg h01CD,
    if_neg h01E4] at hrest
  cases hfind : isoCases.find? (fun c => c.1.contains chW) with
  | some c =>
    rw [hfind] at hrest
    have hmem : chW ∈ c.1 := by simpa using List.find?_some hfind
    exact .case (List.mem_of_find?_eq_some hfind) hmem hrest
  | none =>
    rw [hfind] at hrest
    by_cases hwide : (chW ≥ 0xFF01 && chW ≤ 0xFF5E) = true
    · have hbounds : 0xFF01 ≤ chW ∧ chW ≤ 0xFF5E := by simpa using hwide
      have hlo := UInt16.le_iff_toNat_le.mp hbounds.1
      have hhi := UInt16.le_iff_toNat_le.mp hbounds.2
      have hsub := UInt16.toNat_sub_of_le _ _ hbounds.1
      have hlo' : 0xFF01 ≤ chW.toNat := hlo
      have hhi' : chW.toNat ≤ 0xFF5E := hhi
      have hsub' : (chW - 0xFF01).toNat = chW.toNat - 0xFF01 := hsub
      refine .wide (k := chW.toNat - 0xFF01) (by omega) ?_ ?_
      · rw [Nat.add_sub_cancel' hlo', UInt16.ofNat_toNat]
      · rw [← hsub', hrest]
        exact if_pos hwide
    · exact .question (by rw [hrest]; exact if_neg hwide)

theorem isoFromFF01_eq : isoFromFF01 = (List.range' 0x21 94).map UInt8.ofNat := by
  rw [isoFromFF01, ascii_eq_map (by rfl), ascii_eq_map (by rfl)]
  decide

/-- The tables hold printable bytes, and neither a quote nor a backslash. -/
theorem isoTables_plain : ([isoFrom0100, isoFrom014C, isoFrom01CD, isoFrom01E4].all fun l =>
    l.all fun b => decide (0x20 ≤ b) && isPlainA b) = true := by
  rw [isoFrom0100, isoFrom014C, isoFrom01CD, isoFrom01E4, ascii_eq_map (by rfl),
    ascii_eq_map (by rfl), ascii_eq_map (by rfl), ascii_eq_map (by rfl)]
  decide

theorem charAt_isoTables {l : List Byte} {k : Nat}
    (hl : l ∈ [isoFrom0100, isoFrom014C, isoFrom01CD, isoFrom01E4]) (hk : k < l.length) :
    0x20 ≤ charAt l k ∧ isPlainA (charAt l k) = true := by
  have hall := charAt_of_all (List.all_eq_true.mp isoTables_plain l hl) hk
  rwa [Bool.and_eq_true, decide_eq_true_iff] at hall

/-- Printable text stays printable. -/
theorem printable_utf16ToIso88591 {chW : WChar} (h : 0x20 ≤ chW) :
    0x20 ≤ utf16ToIso88591 chW := by
  have hcases : (isoCases.all fun c => decide (0x20 ≤ charAt c.2 0)) = true := by decide
  have hwide : ((List.range 94).all fun k => decide (0x20 ≤ charAt isoFromFF01 k)) = true := by
    rw [isoFromFF01_eq]
    decide
  cases isoSource chW with
  | latin hlt heq =>
    have hlo : 0x20 ≤ chW.toNat := UInt16.le_iff_toNat_le.mp h
    have hhi : chW.toNat < 0x0100 := UInt16.lt_iff_toNat_lt.mp hlt
    rw [heq, UInt8.le_iff_toNat_le, UInt16.toNat_toUInt8, Nat.mod_eq_of_lt hhi]
    exact hlo
  | table hl hk heq =>
    rw [heq]
    exact (charAt_isoTables hl hk).1
  | case hc _ heq =>
    rw [heq]
    simpa using List.all_eq_true.mp hcases _ hc
  | wide hk _ heq =>
    rw [heq]
    simpa using List.all_eq_true.mp hwide _ (List.mem_range.mpr hk)
  | question heq =>
    rw [heq]
    decide

/-- **The units that become a quote or a backslash without being one.** -/
theorem isPlainA_utf16ToIso88591 {chW : WChar} (h : isPlainW chW = true) :
    isPlainA (utf16ToIso88591 chW) = false ↔ chW ∈ hiddenSpecials := by
  have hhidden : (hiddenSpecials.all fun u => !isPlainA (utf16ToIso88591 u)) = true := by
    decide
  have hcases : (isoCases.all fun c => c.1.all fun u =>
      isPlainA (charAt c.2 0) || hiddenSpecials.contains u) = true := by decide
  have hwide : ((List.range 94).all fun k => isPlainA (charAt isoFromFF01 k) ||
      hiddenSpecials.contains (UInt16.ofNat (0xFF01 + k))) = true := by
    rw [isoFromFF01_eq]
    decide
  refine ⟨fun hspecial => ?_, fun hmem => by simpa using List.all_eq_true.mp hhidden _ hmem⟩
  cases isoSource chW with
  | latin hlt heq =>
    rw [heq] at hspecial
    have hhi : chW.toNat < 0x0100 := UInt16.lt_iff_toNat_lt.mp hlt
    have hback : chW = chW.toUInt8.toUInt16 := by
      apply UInt16.toNat_inj.mp
      rw [UInt8.toNat_toUInt16, UInt16.toNat_toUInt8, Nat.mod_eq_of_lt hhi]
    have hor : chW.toUInt8 = chQuote ∨ chW.toUInt8 = chBackslash := by
      simpa [isPlainA, or_iff_not_imp_left] using hspecial
    rcases hor with hq | hb
    · rw [hback, hq] at h
      exact absurd h (by decide)
    · rw [hback, hb] at h
      exact absurd h (by decide)
  | table hl hk heq =>
    rw [heq, (charAt_isoTables hl hk).2] at hspecial
    cases hspecial
  | case hc hmem heq =>
    have hall := List.all_eq_true.mp (List.all_eq_true.mp hcases _ hc) _ hmem
    rw [← heq, hspecial] at hall
    simpa using hall
  | wide hk hchW heq =>
    have hall := List.all_eq_true.mp hwide _ (List.mem_range.mpr hk)
    rw [← heq, hspecial, ← hchW] at hall
    simpa using hall
  | question heq =>
    rw [heq] at hspecial
    exact absurd hspecial (by decide)

/-! ### Reading what was written -/

/-- The scan keeps what it has read. -/
theorem prefix_scanQuoted (n : Nat) : ∀ sA cStrA : List Byte, sA.length ≤ n →
    cStrA <+: (scanQuoted sA cStrA).cStrA := by
  induction n with
  | zero =>
    intro sA cStrA hn
    obtain rfl := List.length_eq_zero_iff.mp (Nat.le_zero.mp hn)
    exact List.prefix_refl _
  | succ n ih =>
    intro sA cStrA hn
    cases sA with
    | nil => exact List.prefix_refl _
    | cons ch rest =>
      rw [List.length_cons] at hn
      by_cases hq : ch = chQuote
      · have hread : (scanQuoted (ch :: rest) cStrA).cStrA = cStrA := by rw [hq, scanQuoted_quote]
        exact hread.symm ▸ List.prefix_refl cStrA
      · by_cases hb : ch = chBackslash
        · subst hb
          cases rest with
          | nil => exact List.prefix_refl _
          | cons esc rest =>
            rw [List.length_cons] at hn
            by_cases he : esc = 0
            · subst he
              exact List.prefix_refl _
            · rw [scanQuoted_escape he]
              exact (List.prefix_append cStrA [esc]).trans (ih rest _ (by omega))
        · rw [scanQuoted_plain hq hb]
          exact (List.prefix_append cStrA [ch]).trans (ih rest _ (by omega))

/-- A character that was read is the next one of the result. -/
theorem eq_of_scanQuoted {sA cStrA tail rest : List Byte} {ch b : Byte} {hRes : HResult}
    (h : scanQuoted sA (cStrA ++ [ch]) = ⟨hRes, cStrA ++ (b :: tail), rest⟩) : ch = b := by
  have hpre := prefix_scanQuoted _ sA (cStrA ++ [ch]) (Nat.le_refl _)
  rw [h] at hpre
  have hcons := (List.prefix_append_right_inj cStrA).mp hpre
  exact (List.cons_prefix_cons.mp hcons).1

/-- What becomes of a unit. -/
inductive Quoting (ch : WChar) : Prop
  | quote : quoteW ch = [chBackslash, chQuote] → isoUnit ch = [chQuote] →
      ch ∉ hiddenSpecials → Quoting ch
  | backslash : quoteW ch = [chBackslash, chBackslash] → isoUnit ch = [chBackslash] →
      ch ∉ hiddenSpecials → Quoting ch
  | dropped : quoteW ch = [] → isoUnit ch = [] → ch ∉ hiddenSpecials → Quoting ch
  | plain {b : Byte} : quoteW ch = [b] → isoUnit ch = [b] → b ≠ chQuote → b ≠ chBackslash →
      ch ∉ hiddenSpecials → Quoting ch
  | hiddenQuote : quoteW ch = [chQuote] → isoUnit ch = [chQuote] → ch ∈ hiddenSpecials → Quoting ch
  | hiddenBackslash : quoteW ch = [chBackslash] → isoUnit ch = [chBackslash] →
      ch ∈ hiddenSpecials → Quoting ch

theorem quoting (ch : WChar) : Quoting ch := by
  by_cases hplain : isPlainW ch = true
  · have hquote : quoteW ch = isoUnit ch := by rw [quoteW, if_pos hplain]
    have hspecial := isPlainA_utf16ToIso88591 hplain
    by_cases hmark : (utf16ToIso88591 ch != chQuestion) = true
    · have hiso : isoUnit ch = [utf16ToIso88591 ch] := by rw [isoUnit, if_pos hmark]
      by_cases hq : utf16ToIso88591 ch = chQuote
      · rw [hq] at hiso hspecial
        exact .hiddenQuote (hquote.trans hiso) hiso (hspecial.mp rfl)
      · by_cases hb : utf16ToIso88591 ch = chBackslash
        · rw [hb] at hiso hspecial
          exact .hiddenBackslash (hquote.trans hiso) hiso (hspecial.mp rfl)
        · refine .plain (hquote.trans hiso) hiso hq hb fun hmem => ?_
          have hnot := hspecial.mpr hmem
          simp [isPlainA, hq, hb] at hnot
    · have hno : ch ∉ hiddenSpecials := by
        intro hmem
        have hnot := hspecial.mpr hmem
        have hmark' : utf16ToIso88591 ch = chQuestion := by simpa using hmark
        rw [hmark'] at hnot
        exact absurd hnot (by decide)
      by_cases hlit : (ch == 0x3F) = true
      · have hiso : isoUnit ch = [chQuestion] := by rw [isoUnit, if_neg hmark, if_pos hlit]
        exact .plain (hquote.trans hiso) hiso (by decide) (by decide) hno
      · have hiso : isoUnit ch = [] := by rw [isoUnit, if_neg hmark, if_neg hlit]
        exact .dropped (hquote.trans hiso) hiso hno
  · have hor : ch = 0x22 ∨ ch = 0x5C := by
      simpa [isPlainW, or_iff_not_imp_left] using hplain
    rcases hor with rfl | rfl
    · exact .quote (by decide) (by decide) (by decide)
    · exact .backslash (by decide) (by decide) (by decide)

theorem toIso88591_cons (ch : WChar) (szStrW : List WChar) :
    toIso88591 (ch :: szStrW) = isoUnit ch ++ toIso88591 szStrW := List.flatMap_cons

theorem replicate_append_cons (n : Nat) (b : Byte) (l : List Byte) :
    List.replicate n b ++ b :: l = b :: (List.replicate n b ++ l) := by
  rw [← List.singleton_append, ← List.append_assoc, ← List.replicate_succ', List.replicate_succ,
    List.cons_append]

/-- A scan that stops at a quote leaves the closing one. -/
theorem scanQuoted_quote_ne (l cStrA cStrA' : List Byte) :
    scanQuoted (chQuote :: (l ++ [chQuote])) cStrA ≠ ⟨.sOk, cStrA', []⟩ := by
  intro h
  rw [scanQuoted_quote] at h
  simpa using congrArg QuotedResult.sA h

/-- **After a backslash that has none before it the scan never gets the text.**  It is
behind by at least one backslash, whether or not it takes the next character as it
is. -/
theorem scanQuoted_ne (szStrW : List WChar) : ∀ (n : Nat) (cStrA : List Byte),
    scanQuoted (szStrW.flatMap quoteW ++ [chQuote]) cStrA ≠
        ⟨.sOk, cStrA ++ (chBackslash :: (List.replicate n chBackslash ++ toIso88591 szStrW)), []⟩ ∧
      scanQuoted (chBackslash :: (szStrW.flatMap quoteW ++ [chQuote])) cStrA ≠
        ⟨.sOk, cStrA ++ (chBackslash :: (List.replicate n chBackslash ++ toIso88591 szStrW)), []⟩ := by
  have hne : chQuote ≠ chBackslash := by decide
  have hesc : chBackslash ≠ 0 := by decide
  induction szStrW with
  | nil =>
    intro n cStrA
    constructor
    · intro h
      rw [List.flatMap_nil, List.nil_append, scanQuoted_quote] at h
      simpa using congrArg QuotedResult.cStrA h
    · intro h
      rw [List.flatMap_nil, List.nil_append, scanQuoted_escape (by decide)] at h
      exact hne (eq_of_scanQuoted h)
  | cons ch szStrW ih =>
    intro n cStrA
    have hmore : List.replicate n chBackslash ++ ([chBackslash] ++ toIso88591 szStrW) =
        chBackslash :: (List.replicate n chBackslash ++ toIso88591 szStrW) :=
      replicate_append_cons n chBackslash _
    have hnext : cStrA ++ (chBackslash :: (List.replicate n chBackslash ++
          ([chBackslash] ++ toIso88591 szStrW))) =
        cStrA ++ [chBackslash] ++
          (chBackslash :: (List.replicate n chBackslash ++ toIso88591 szStrW)) := by
      rw [hmore, List.append_assoc, List.singleton_append]
    rw [toIso88591_cons, List.flatMap_cons, List.append_assoc]
    cases quoting ch with
    | quote hquote hiso _ =>
      rw [hquote, hiso]
      constructor
      · intro h
        exact hne (eq_of_scanQuoted ((scanQuoted_escape (by decide) _ _).symm.trans h))
      · intro h
        have hscan := (scanQuoted_escape hesc _ _).symm.trans h
        exact scanQuoted_quote_ne _ _ _ hscan
    | backslash hquote hiso _ =>
      rw [hquote, hiso, hnext]
      constructor
      · intro h
        exact (ih n _).1 ((scanQuoted_escape hesc _ _).symm.trans h)
      · intro h
        exact (ih n _).2 ((scanQuoted_escape hesc _ _).symm.trans h)
    | dropped hquote hiso _ =>
      rw [hquote, hiso]
      exact ih n cStrA
    | @plain b hquote hiso hq hb _ =>
      rw [hquote, hiso]
      constructor
      · intro h
        exact hb (eq_of_scanQuoted ((scanQuoted_plain hq hb _ _).symm.trans h))
      · intro h
        by_cases hzero : b = 0
        · subst hzero
          simp [scanQuoted, show chBackslash ≠ chQuote by decide] at h
        · exact hb (eq_of_scanQuoted ((scanQuoted_escape hzero _ _).symm.trans h))
    | hiddenQuote hquote hiso _ =>
      rw [hquote, hiso]
      constructor
      · exact scanQuoted_quote_ne _ _ _
      · intro h
        exact hne (eq_of_scanQuoted ((scanQuoted_escape (by decide) _ _).symm.trans h))
    | hiddenBackslash hquote hiso _ =>
      rw [hquote, hiso]
      constructor
      · rw [hmore, ← List.cons_append, ← List.replicate_succ]
        exact (ih (n + 1) cStrA).2
      · rw [hnext]
        intro h
        exact (ih n _).1 ((scanQuoted_escape hesc _ _).symm.trans h)

/-- **Wide text in quotes is read back exactly when** it has none of the units that
become a quote or a backslash without being one. -/
theorem scanQuoted_quoteW_iff (szStrW : List WChar) : ∀ cStrA,
    scanQuoted (szStrW.flatMap quoteW ++ [chQuote]) cStrA =
        ⟨.sOk, cStrA ++ toIso88591 szStrW, []⟩ ↔
      ∀ ch ∈ szStrW, ch ∉ hiddenSpecials := by
  induction szStrW with
  | nil =>
    intro cStrA
    rw [List.flatMap_nil, List.nil_append, scanQuoted_quote]
    simp [toIso88591]
  | cons ch szStrW ih =>
    intro cStrA
    rw [toIso88591_cons, List.flatMap_cons, List.append_assoc, List.forall_mem_cons]
    have hstep : ∀ b : Byte, cStrA ++ ([b] ++ toIso88591 szStrW) =
        cStrA ++ [b] ++ toIso88591 szStrW := fun b => (List.append_assoc _ _ _).symm
    cases quoting ch with
    | quote hquote hiso hmem =>
      rw [hquote, hiso, hstep, and_iff_right hmem, ← ih]
      exact Eq.congr_left (scanQuoted_escape (by decide) _ _)
    | backslash hquote hiso hmem =>
      rw [hquote, hiso, hstep, and_iff_right hmem, ← ih]
      exact Eq.congr_left (scanQuoted_escape (by decide) _ _)
    | dropped hquote hiso hmem =>
      rw [hquote, hiso, and_iff_right hmem]
      exact ih cStrA
    | plain hquote hiso hq hb hmem =>
      rw [hquote, hiso, hstep, and_iff_right hmem, ← ih]
      exact Eq.congr_left (scanQuoted_plain hq hb _ _)
    | hiddenQuote hquote hiso hmem =>
      rw [hquote, hiso]
      exact ⟨fun h => absurd h (scanQuoted_quote_ne _ _ _), fun h => absurd hmem h.1⟩
    | hiddenBackslash hquote hiso hmem =>
      rw [hquote, hiso]
      exact ⟨fun h => absurd h (scanQuoted_ne szStrW 0 cStrA).2, fun h => absurd hmem h.1⟩

theorem scanQuoted_quoteA (szStrA : List Byte) : ∀ cStrA,
    scanQuoted (szStrA.flatMap quoteA ++ [chQuote]) cStrA = ⟨.sOk, cStrA ++ szStrA, []⟩ := by
  induction szStrA with
  | nil =>
    intro cStrA
    rw [List.flatMap_nil, List.nil_append, scanQuoted_quote, List.append_nil]
  | cons ch szStrA ih =>
    intro cStrA
    have hstep : scanQuoted (quoteA ch ++ (szStrA.flatMap quoteA ++ [chQuote])) cStrA =
        scanQuoted (szStrA.flatMap quoteA ++ [chQuote]) (cStrA ++ [ch]) := by
      rw [quoteA]
      by_cases hplain : isPlainA ch = true
      · have hne : ch ≠ chQuote ∧ ch ≠ chBackslash := by simpa [isPlainA] using hplain
        rw [if_pos hplain]
        exact scanQuoted_plain hne.1 hne.2 _ _
      · have hor : ch = chQuote ∨ ch = chBackslash := by
          simpa [isPlainA, or_iff_not_imp_left] using hplain
        have hzero : ch ≠ 0 := by rcases hor with rfl | rfl <;> decide
        rw [if_neg hplain]
        exact scanQuoted_escape hzero _ _
    rw [List.flatMap_cons, List.append_assoc, hstep, ih, List.append_assoc, List.singleton_append]

/-! ### Both overloads -/

/-- What `BuildQuotedString` makes of a narrow or a wide text, in quotes in any case. -/
def buildQuoted : List Byte ⊕ List WChar → List Byte
  | .inl szStrA => buildQuotedStringA szStrA false
  | .inr szStrW => buildQuotedStringW szStrW false

/-- The bytes a text stands for. -/
def plainBytes : List Byte ⊕ List WChar → List Byte
  | .inl szStrA => szStrA
  | .inr szStrW => toIso88591 szStrW

def NoControl : List Byte ⊕ List WChar → Prop
  | .inl szStrA => ∀ ch ∈ szStrA, 0x20 ≤ ch
  | .inr szStrW => ∀ ch ∈ szStrW, 0x20 ≤ ch

/-- The wide text has no unit that becomes a quote or a backslash. -/
def NoHiddenSpecial : List Byte ⊕ List WChar → Prop
  | .inl _ => True
  | .inr szStrW => ∀ ch ∈ szStrW, ch ∉ hiddenSpecials

theorem printable_buildQuoted {szStr : List Byte ⊕ List WChar} (h : NoControl szStr) :
    Printable (buildQuoted szStr) := by
  cases szStr with
  | inl szStrA =>
    rw [buildQuoted, buildQuotedStringA_eq]
    intro b hb
    obtain ⟨ch, hch, hb⟩ := List.mem_flatMap.mp hb
    rw [quoteA] at hb
    split at hb
    · rw [List.mem_singleton.mp hb]
      exact h ch hch
    · rcases List.mem_cons.mp hb with rfl | hb
      · decide
      · rw [List.mem_singleton.mp hb]
        exact h ch hch
  | inr szStrW =>
    rw [buildQuoted, buildQuotedStringW_eq]
    intro b hb
    obtain ⟨ch, hch, hb⟩ := List.mem_flatMap.mp hb
    have hiso : ∀ b ∈ isoUnit ch, 0x20 ≤ b := by
      intro b hb
      rw [isoUnit] at hb
      split_ifs at hb
      · rw [List.mem_singleton.mp hb]
        exact printable_utf16ToIso88591 (h ch hch)
      · rw [List.mem_singleton.mp hb]
        decide
      · exact absurd hb List.not_mem_nil
    cases quoting ch with
    | quote hquote _ _ =>
      rw [hquote] at hb
      rcases List.mem_cons.mp hb with rfl | hb
      · decide
      · rw [List.mem_singleton.mp hb]
        decide
    | backslash hquote _ _ =>
      rw [hquote] at hb
      rcases List.mem_cons.mp hb with rfl | hb
      · decide
      · rw [List.mem_singleton.mp hb]
        decide
    | dropped hquote hiso' _ => exact hiso b (by rw [hiso', ← hquote]; exact hb)
    | plain hquote hiso' _ _ _ => exact hiso b (by rw [hiso', ← hquote]; exact hb)
    | hiddenQuote hquote hiso' _ => exact hiso b (by rw [hiso', ← hquote]; exact hb)
    | hiddenBackslash hquote hiso' _ => exact hiso b (by rw [hiso', ← hquote]; exact hb)

/-- **Text in quotes is read back, up to the closing quote, exactly when** it is narrow
or has none of the seven units that become a quote or a backslash. -/
theorem readsQuoted_iff (szStr : List Byte ⊕ List WChar) (h : NoControl szStr) :
    ReadsQuoted (buildQuoted szStr) (plainBytes szStr) ↔ NoHiddenSpecial szStr := by
  rw [readsQuoted_iff_scan (printable_buildQuoted h)]
  cases szStr with
  | inl szStrA =>
    rw [buildQuoted, buildQuotedStringA_eq]
    exact ⟨fun _ => trivial, fun _ => scanQuoted_quoteA szStrA []⟩
  | inr szStrW =>
    rw [buildQuoted, buildQuotedStringW_eq]
    exact scanQuoted_quoteW_iff szStrW []

/-- A text with a quote, a backslash and a letter of the tables. -/
theorem readsQuoted_latin :
    ReadsQuoted (buildQuoted (.inr [0x22, 0x5C, 0x0107])) (plainBytes (.inr [0x22, 0x5C, 0x0107])) :=
  (readsQuoted_iff (.inr [0x22, 0x5C, 0x0107]) (by simp [NoControl])).mpr
    (by simp [NoHiddenSpecial, hiddenSpecials])

/-- A left double quotation mark ends the quoted string before the letter behind it. -/
theorem readsQuoted_quotationMark :
    NoControl (.inr [0x201C, 0x61]) ∧ buildQuoted (.inr [0x201C, 0x61]) = ascii "\"a" ∧
      ¬ ReadsQuoted (buildQuoted (.inr [0x201C, 0x61])) (plainBytes (.inr [0x201C, 0x61])) := by
  have hcontrol : NoControl (.inr [0x201C, 0x61]) := by simp [NoControl]
  have htext : buildQuoted (.inr [0x201C, 0x61]) = ascii "\"a" := by decide
  refine ⟨hcontrol, htext, ?_⟩
  rw [readsQuoted_iff_scan (printable_buildQuoted hcontrol), htext]
  decide

end MxLib.Http
