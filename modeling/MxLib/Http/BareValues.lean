import MxLib.Http.HeaderParamList

/-!
# Values without quotes

`BuildQuotedString` escapes a value and leaves the quotes around it to its caller, and
the headers with parameters do not write them.  Where such a text is read, the quoted
form of a value never begins: each quote in it has a backslash before it (`QuoteSafe`).
So what is read of a value is a token, or the rest of the text in the extended form
(`readsBare_of_takes`), and neither of the two is a value that needs quotes
(`not_isSuffix_escaped`).
-/

namespace MxLib.Http

open MxLib.Library

/-! ### Escaped values -/

/-- Each quote of the text has a backslash before it, and `prev` is before the text. -/
def noBareQuote (prev : Byte) : List Byte → Bool
  | [] => true
  | ch :: rest => (ch != chQuote || prev == chBackslash) && noBareQuote ch rest

/-- No quote of the text can begin a value, whatever is before it. -/
def QuoteSafe (text : List Byte) : Prop := ∀ prev, noBareQuote prev text = true

theorem quoteSafe_nil : QuoteSafe [] := fun _ => rfl

theorem noBareQuote_append (a : List Byte) : ∀ {b : List Byte} {prev : Byte},
    noBareQuote prev a = true → QuoteSafe b → noBareQuote prev (a ++ b) = true := by
  induction a with
  | nil =>
    intro b prev _ hb
    exact hb prev
  | cons ch a ih =>
    intro b prev ha hb
    rw [noBareQuote, Bool.and_eq_true] at ha
    rw [List.cons_append, noBareQuote, ha.1, Bool.true_and]
    exact ih ha.2 hb

theorem QuoteSafe.append {a b : List Byte} (ha : QuoteSafe a) (hb : QuoteSafe b) :
    QuoteSafe (a ++ b) :=
  fun prev => noBareQuote_append a (ha prev) hb

theorem quoteSafe_of_ne {a : List Byte} (h : ∀ ch ∈ a, ch ≠ chQuote) : QuoteSafe a := by
  induction a with
  | nil => exact quoteSafe_nil
  | cons ch a ih =>
    obtain ⟨hch, ha⟩ := List.forall_mem_cons.mp h
    intro prev
    simp [noBareQuote, hch, ih ha ch]

theorem QuoteSafe.cons {ch : Byte} {a : List Byte} (hch : ch ≠ chQuote) (ha : QuoteSafe a) :
    QuoteSafe (ch :: a) :=
  QuoteSafe.append (quoteSafe_of_ne fun _ hc => List.mem_singleton.mp hc ▸ hch) ha

theorem quoteSafe_token {t : List Byte} (h : t.all isTokenChar = true) : QuoteSafe t := by
  refine quoteSafe_of_ne fun ch hch => ?_
  rintro rfl
  exact absurd (List.all_eq_true.mp h _ hch) (by decide)

theorem quoteSafe_flatMap_of {α : Type} {l : List α} {f : α → List Byte}
    (h : ∀ a ∈ l, QuoteSafe (f a)) : QuoteSafe (l.flatMap f) := by
  induction l with
  | nil => exact quoteSafe_nil
  | cons a l ih =>
    obtain ⟨ha, hl⟩ := List.forall_mem_cons.mp h
    rw [List.flatMap_cons]
    exact ha.append (ih hl)

/-- An escaped value. -/
theorem quoteSafe_flatMap (v : List Byte) : QuoteSafe (v.flatMap quoteA) := by
  refine quoteSafe_flatMap_of fun ch _ prev => ?_
  rw [quoteA]
  by_cases hplain : isPlainA ch = true
  · have hne : ch ≠ chQuote ∧ ch ≠ chBackslash := by simpa [isPlainA] using hplain
    rw [if_pos hplain]
    simp [noBareQuote, hne.1]
  · rw [if_neg hplain]
    simp [noBareQuote, show chBackslash ≠ chQuote by decide]

theorem noBareQuote_suffix {prev ch : Byte} {rest : List Byte} (text : List Byte)
    (h : noBareQuote prev text = true) (hsuf : (ch :: chQuote :: rest) <:+ text) :
    ch = chBackslash := by
  induction text generalizing prev with
  | nil => cases List.suffix_nil.mp hsuf
  | cons c text ih =>
    rw [noBareQuote, Bool.and_eq_true] at h
    rcases List.suffix_cons_iff.mp hsuf with hhere | hlater
    · obtain ⟨rfl, rfl⟩ := List.cons.inj hhere
      have hquote := h.2
      rw [noBareQuote, Bool.and_eq_true] at hquote
      simpa using hquote.1
    · exact ih h.2 hlater

/-- Escapes add backslashes and nothing else. -/
theorem count_quoteA (v : List Byte) :
    (v.flatMap quoteA).length + v.count chBackslash =
      (v.flatMap quoteA).count chBackslash + v.length := by
  induction v with
  | nil => rfl
  | cons ch v ih =>
    have hone : (quoteA ch).length + [ch].count chBackslash =
        (quoteA ch).count chBackslash + 1 := by
      rw [quoteA]
      by_cases hplain : isPlainA ch = true
      · have hne : ch ≠ chQuote ∧ ch ≠ chBackslash := by simpa [isPlainA] using hplain
        rw [if_pos hplain, List.length_singleton, Nat.add_comm]
      · have hor : ch = chQuote ∨ ch = chBackslash := by
          simpa [isPlainA, or_iff_not_imp_left] using hplain
        rw [if_neg hplain]
        rcases hor with rfl | rfl
        · decide
        · decide
    have hcount : (ch :: v).count chBackslash = [ch].count chBackslash + v.count chBackslash := by
      rw [← List.singleton_append, List.count_append]
    rw [List.flatMap_cons, List.length_append, List.count_append, hcount, List.length_cons]
    omega

theorem length_le_escaped (v : List Byte) : v.length ≤ (v.flatMap quoteA).length := by
  induction v with
  | nil => exact Nat.le_refl _
  | cons ch v ih =>
    have hone : 1 ≤ (quoteA ch).length := by
      rw [quoteA]
      split
      · exact Nat.le_refl _
      · exact Nat.le_succ _
    rw [List.flatMap_cons, List.length_append, List.length_cons]
    omega

/-- **A value is not found again behind an apostrophe of its escaped text**: what the
escapes put in front of it is backslashes. -/
theorem not_isSuffix_escaped {v text : List Byte} (hfound : (chApostrophe :: v) <:+ text)
    (hwritten : (chEquals :: v.flatMap quoteA) <:+ text) : False := by
  have hlen : (chApostrophe :: v).length ≤ (chEquals :: v.flatMap quoteA).length :=
    Nat.succ_le_succ (length_le_escaped v)
  have hsuf := List.suffix_of_suffix_length_le hfound hwritten hlen
  rcases List.suffix_cons_iff.mp hsuf with hsame | ⟨Q, hQ⟩
  · exact absurd (List.cons.inj hsame).1 (by decide)
  · have hcount := count_quoteA v
    have hv : (chApostrophe :: v).count chBackslash = v.count chBackslash :=
      List.count_cons_of_ne (by decide)
    have hle : Q.count chBackslash ≤ Q.length := List.count_le_length
    rw [← hQ, List.length_append, List.count_append, List.length_cons, hv] at hcount
    omega

/-! ### What is read -/

/-- A value that was read where no quote can begin one: a token, the rest of the text
behind an apostrophe, or the cursor is left at a percent sign. -/
inductive ReadsBare (text : List Byte) (p : ParamResult) : Prop
  | token (t : List Byte) : t.all isTokenChar = true → p.cStrValueW = t.map UInt8.toUInt16 →
      ReadsBare text p
  | extended (t : List Byte) : (chApostrophe :: t) <:+ text →
      p.cStrValueW = t.map UInt8.toUInt16 → p.sA = [] → ReadsBare text p
  | stopped (rest : List Byte) : p.sA = chPercent :: rest → ReadsBare text p

/-- The cursor is behind a character other than a backslash. -/
def BehindPlain (text sA : List Byte) : Prop := ∃ ch, ch ≠ chBackslash ∧ (ch :: sA) <:+ text

section Read

variable {text : List Byte}

theorem BehindPlain.isSuffix {sA : List Byte} (h : BehindPlain text sA) : sA <:+ text := by
  obtain ⟨ch, -, hsuf⟩ := h
  exact (List.suffix_cons ch sA).trans hsuf

theorem BehindPlain.skipSpaces {sA : List Byte} (h : BehindPlain text sA) :
    BehindPlain text (skipSpaces sA) := by
  induction sA with
  | nil => exact h
  | cons ch sA ih =>
    by_cases hblank : isBlank ch = true
    · have hnext : BehindPlain text sA := by
        refine ⟨ch, ?_, h.isSuffix⟩
        rintro rfl
        exact absurd hblank (by decide)
      have hskip : Http.skipSpaces (ch :: sA) = Http.skipSpaces sA := by
        rw [Http.skipSpaces, List.dropWhile_cons, if_pos hblank]
        rfl
      rw [hskip]
      exact ih hnext
    · rw [skipSpaces_cons (by simpa using hblank)]
      exact h

/-- No quote stands there. -/
theorem BehindPlain.charAt_ne {sA : List Byte} (h : BehindPlain text sA) (hsafe : QuoteSafe text) :
    charAt sA 0 ≠ chQuote := by
  obtain ⟨ch, hne, hsuf⟩ := h
  cases sA with
  | nil => decide
  | cons c rest =>
    rintro hquote
    rw [charAt_cons_zero] at hquote
    subst hquote
    exact hne (noBareQuote_suffix text (hsafe 0) hsuf)

theorem behindPlain_drop {sA : List Byte} {n : Nat} {ch : Byte} (hsuf : sA <:+ text)
    (hne : ch ≠ chBackslash) (hlt : n < sA.length) (hch : charAt sA n = ch) :
    BehindPlain text (sA.drop (n + 1)) := by
  refine ⟨ch, hne, ?_⟩
  have hget : sA[n] = ch := by
    rw [← hch, charAt, List.getD_eq_getElem?_getD, List.getElem?_eq_getElem hlt, Option.getD_some]
  rw [← hget, ← List.drop_eq_getElem_cons hlt]
  exact (List.drop_suffix n sA).trans hsuf

theorem lowerA_eq_apostrophe {ch : Byte} (h : lowerA ch = chApostrophe) : ch = chApostrophe := by
  revert h
  refine forall_byte (P := fun ch => lowerA ch = chApostrophe → ch = chApostrophe) ?_ ch
  decide

/-- The character set ends with an apostrophe. -/
theorem charAt_of_strNCompareA {sA pat : List Byte} {n : Nat} (hzero : ∀ ch ∈ sA, ch ≠ 0)
    (hpat : szStr pat = pat) (hn : pat.length = n + 1) (hlt : n < sA.length)
    (hlast : charAt pat n = chApostrophe) (h : strNCompareA sA pat (n + 1) true = true) :
    charAt sA n = chApostrophe := by
  rw [strNCompareA, szStr_of_ne_zero hzero, hpat] at h
  simp only [if_true, beq_iff_eq] at h
  have hget := congrArg (fun l => l[n]?) h
  simp only [List.getElem?_map, List.getElem?_take_of_lt (Nat.lt_succ_self n)] at hget
  rw [List.getElem?_eq_getElem hlt, List.getElem?_eq_getElem (show n < pat.length by omega)] at hget
  have hpatLast : pat[n] = chApostrophe := by
    rw [← hlast, charAt, List.getD_eq_getElem?_getD, List.getElem?_eq_getElem, Option.getD_some]
  simp only [Option.map_some, Option.some.injEq, hpatLast] at hget
  rw [charAt, List.getD_eq_getElem?_getD, List.getElem?_eq_getElem hlt, Option.getD_some]
  exact lowerA_eq_apostrophe hget

/-- The character set keeps the cursor behind a plain character. -/
theorem BehindPlain.extendedCharset {sA : List Byte} (h : BehindPlain text sA)
    (hzero : ∀ ch ∈ sA, ch ≠ 0) (b : Bool) : BehindPlain text (extendedCharset b sA).2 := by
  rw [Http.extendedCharset]
  split
  next hutf8 =>
    simp only [Bool.and_eq_true, decide_eq_true_eq] at hutf8
    exact behindPlain_drop h.isSuffix (by decide) (by omega) (charAt_of_strNCompareA
      hzero rfl rfl (by omega) rfl hutf8.2)
  · split
    next hiso =>
      simp only [Bool.and_eq_true, decide_eq_true_eq] at hiso
      exact behindPlain_drop h.isSuffix (by decide) (by omega) (charAt_of_strNCompareA
        hzero rfl rfl (by omega) rfl hiso.2)
    · exact h

theorem toUInt16_extended {t : List Byte} (hascii : ∀ ch ∈ t, ch.toNat < 0x80) (b bExt : Bool)
    (name sA : List Byte) :
    convertCharset b bExt name ⟨.sOk, t, sA⟩ =
      ⟨.sOk, name, t.map UInt8.toUInt16, skipSpaces sA, bExt⟩ := by
  cases b with
  | false => rfl
  | true => rw [convertCharset_utf8, utf8Decode_ascii hascii]

theorem isExtendedText_of_printable {ch : Byte} (h : isPrintable ch = true)
    (hne : ch ≠ chPercent) : isExtendedText ch = true := by
  revert h hne
  refine forall_byte (P := fun ch => isPrintable ch = true → ch ≠ chPercent →
    isExtendedText ch = true) ?_ ch
  decide

/-- The value behind a character set, in the extended form. -/
theorem readsBare_extended {b : Bool} {name body : List Byte}
    (hprint : ∀ ch ∈ body, isPrintable ch = true) (hsuf : (chApostrophe :: body) <:+ text) :
    ReadsBare text (convertCharset b true name (extendedValue (chApostrophe :: body))) := by
  have hascii : ∀ ch ∈ body.takeWhile isExtendedText, ch.toNat < 0x80 :=
    fun ch hch => isPrintable_lt (hprint ch ((List.takeWhile_prefix _).subset hch))
  rw [extendedValue_apostrophe, toUInt16_extended hascii]
  cases hdrop : body.dropWhile isExtendedText with
  | nil =>
    have hwhole := List.takeWhile_append_dropWhile (p := isExtendedText) (l := body)
    rw [hdrop, List.append_nil] at hwhole
    exact .extended body hsuf (by rw [hwhole]) rfl
  | cons ch rest =>
    have hch : isExtendedText ch = false := by
      have hhead := List.head_dropWhile_not isExtendedText (l := body) (by simp [hdrop])
      simpa [hdrop] using hhead
    have hmem : ch ∈ body :=
      (List.dropWhile_suffix isExtendedText).subset (hdrop ▸ List.mem_cons_self)
    have hpercent : ch = chPercent := by
      by_contra hne
      rw [isExtendedText_of_printable (hprint ch hmem) hne] at hch
      cases hch
    subst hpercent
    exact .stopped rest (skipSpaces_cons (show isBlank chPercent = false by decide) rest)

theorem isSuffix_convertCharset (b bExt : Bool) (name : List Byte) (value : QuotedResult) :
    (convertCharset b bExt name value).sA <:+ value.sA := by
  have hskip : Http.skipSpaces value.sA <:+ value.sA := List.dropWhile_suffix _
  rw [convertCharset]
  split
  · exact List.suffix_refl _
  · split
    · split
      · exact List.suffix_refl _
      · exact hskip
    · exact hskip

/-- **What a value can be**, where each quote has a backslash before it. -/
theorem readsBare_of_value {fuel : Nat} {b bExt : Bool} {name sA : List Byte} {p : ParamResult}
    (hsafe : QuoteSafe text) (hprint : ∀ ch ∈ text, isPrintable ch = true)
    (hcursor : BehindPlain text sA) (h : getParamValue fuel b bExt name sA = some p) :
    ReadsBare text p ∧ p.sA <:+ text := by
  have hzero : ∀ ch ∈ sA, ch ≠ 0 :=
    fun ch hch => isPrintable_ne_zero (hprint ch (hcursor.isSuffix.subset hch))
  obtain ⟨b', sA', hcursor', h'⟩ : ∃ b' sA', BehindPlain text sA' ∧
      (if bExt && charAt sA' 0 == chApostrophe then
          some (convertCharset b' bExt name (extendedValue sA'))
        else (plainValue fuel sA').map (convertCharset b' bExt name)) = some p := by
    cases bExt with
    | false => exact ⟨b, sA, hcursor, h⟩
    | true => exact ⟨_, _, hcursor.extendedCharset hzero b, h⟩
  by_cases hext : (bExt && charAt sA' 0 == chApostrophe) = true
  · rw [if_pos hext, Option.some.injEq] at h'
    rw [Bool.and_eq_true, beq_iff_eq] at hext
    cases sA' with
    | nil => exact absurd hext.2 (by decide)
    | cons ch body =>
      obtain rfl : ch = chApostrophe := hext.2
      rw [← h', hext.1]
      refine ⟨readsBare_extended (fun c hc => hprint c ?_) hcursor'.isSuffix, ?_⟩
      · exact hcursor'.isSuffix.subset (List.mem_cons_of_mem _ hc)
      · have hrest : (extendedValue (chApostrophe :: body)).sA <:+ body := by
          rw [extendedValue_apostrophe]
          exact List.dropWhile_suffix _
        exact ((isSuffix_convertCharset b' true name _).trans hrest).trans
          ((List.suffix_cons _ body).trans hcursor'.isSuffix)
  · rw [if_neg hext, plainValue, if_neg (by simpa using hcursor'.charAt_ne hsafe),
      Option.map_some, Option.some.injEq] at h'
    have hall : (getToken sA').1.all isTokenChar = true := List.all_takeWhile
    have hascii : ∀ ch ∈ (getToken sA').1, ch.toNat < 0x80 :=
      fun ch hch => isTokenChar_lt (List.all_eq_true.mp hall ch hch)
    rw [← h', toUInt16_extended hascii]
    exact ⟨.token _ hall rfl, ((List.dropWhile_suffix _).trans (List.dropWhile_suffix _)).trans
      hcursor'.isSuffix⟩

/-- **What a parameter can be**: its value, if there is one, and the cursor behind it. -/
theorem readsBare_of_param {fuel : Nat} {sA : List Byte} {p : ParamResult}
    (hsafe : QuoteSafe text) (hprint : ∀ ch ∈ text, isPrintable ch = true) (hsuf : sA <:+ text)
    (h : getParamNameAndValue fuel true sA = some p) :
    ReadsBare text p ∧ p.sA <:+ text := by
  have hbehindName : (getToken sA).2 <:+ text := (List.dropWhile_suffix _).trans hsuf
  have hbehindBlanks : Http.skipSpaces (getToken sA).2 <:+ text :=
    (List.dropWhile_suffix _).trans hbehindName
  simp only [getParamNameAndValue] at h
  split at h
  · cases h
    exact ⟨.token [] rfl rfl, hbehindName⟩
  · split at h
    · cases h
      exact ⟨.token [] rfl rfl, List.nil_suffix⟩
    next ch rest hrest =>
      rw [hrest] at hbehindBlanks
      split at h
      · cases h
        exact ⟨.token [] rfl rfl, hrest ▸ hbehindBlanks⟩
      next hequals =>
        obtain rfl : ch = chEquals := by simpa using hequals
        have hbehind : BehindPlain text rest := ⟨chEquals, by decide, hbehindBlanks⟩
        exact readsBare_of_value hsafe hprint hbehind.skipSpaces h

end Read

/-! ### The values of a list -/

/-- A value that needs no quotes. -/
def IsTokenValue (szValueW : List WChar) : Prop :=
  ∃ t : List Byte, t.all isTokenChar = true ∧ szValueW = t.map UInt8.toUInt16

/-- All values are tokens, but for one at the end that is the rest of the text. -/
def BareList (text : List Byte) (l : ParamsList) : Prop :=
  (∀ e ∈ l, IsTokenValue e.2) ∨
    ∃ (l' : ParamsList) (name t : List Byte), l = l' ++ [(name, t.map UInt8.toUInt16)] ∧
      (chApostrophe :: t) <:+ text ∧ ∀ e ∈ l', IsTokenValue e.2

theorem szStr_tokenValue {szValueW : List WChar} (h : IsTokenValue szValueW) :
    szStr szValueW = szValueW := by
  obtain ⟨t, ht, rfl⟩ := h
  exact szStr_map_toUInt16 fun ch hch => isTokenChar_ne_zero (List.all_eq_true.mp ht ch hch)

/-- A list with another parameter: its value is a token, or it is the last there is. -/
theorem bareList_concat {text : List Byte} (hprint : ∀ ch ∈ text, isPrintable ch = true)
    {l : ParamsList} (hl : ∀ e ∈ l, IsTokenValue e.2) {p : ParamResult} (h : ReadsBare text p)
    (hstop : ∀ rest, p.sA ≠ chPercent :: rest) (name : List Byte) :
    (∀ e ∈ l ++ [(name, szStr p.cStrValueW)], IsTokenValue e.2) ∨
      (p.sA = [] ∧ BareList text (l ++ [(name, szStr p.cStrValueW)])) := by
  cases h with
  | token t ht hvalue =>
    have htoken : IsTokenValue p.cStrValueW := ⟨t, ht, hvalue⟩
    refine Or.inl fun e he => ?_
    rcases List.mem_append.mp he with he | he
    · exact hl e he
    · rw [List.mem_singleton.mp he, szStr_tokenValue htoken]
      exact htoken
  | extended t hsuf hvalue hend =>
    refine Or.inr ⟨hend, Or.inr ⟨l, name, t, ?_, hsuf, hl⟩⟩
    have hzero : ∀ ch ∈ t, ch ≠ 0 := fun ch hch =>
      isPrintable_ne_zero (hprint ch (hsuf.subset (List.mem_cons_of_mem _ hch)))
    rw [hvalue, szStr_map_toUInt16 hzero]
  | stopped rest hstopped => exact absurd hstopped (hstop rest)

/-- **What the loop reads**, from a cursor in the text. -/
theorem run_bareList {isSeparator : Byte → Bool} (hsep : isSeparator chPercent = false)
    {text : List Byte} (hsafe : QuoteSafe text) (hprint : ∀ ch ∈ text, isPrintable ch = true)
    {fuel : Nat} (n : Nat) : ∀ {s : ParamListScan} {r : ParamListResult}, s.sA <:+ text →
      (∀ e ∈ s.aParamsList, IsTokenValue e.2) →
      Loop.run (paramListTurn isSeparator fuel) n s = some (some r) → r.hRes.failed = false →
      BareList text r.aParamsList := by
  induction n with
  | zero => intro s r _ _ h _; cases h
  | succ n ih =>
    intro s r hsuf hl h hok
    rcases run_paramList_ok isSeparator h hok with
      ⟨-, hlist⟩ | ⟨aParamsList, sA, ⟨p, hget, -, hlist, hsA⟩, hstop, hrest⟩
    · exact Or.inl fun e he => hl e (hlist ▸ he)
    · have hsuf' : skipSpaces s.sA <:+ text := (List.dropWhile_suffix _).trans hsuf
      obtain ⟨hreads, hnext⟩ := readsBare_of_param hsafe hprint hsuf' hget
      rw [hsA] at hnext
      have hstop' : ∀ rest, p.sA ≠ chPercent :: rest := by
        intro rest hrest
        have htrue := hstop chPercent rest (hsA ▸ hrest)
        rw [hsep] at htrue
        cases htrue
      have hbare := bareList_concat hprint hl hreads hstop' (szStr p.cStrTokenA)
      rw [← hlist] at hbare
      rcases hrest with ⟨-, hend⟩ | ⟨m, hm, hrun⟩
      · rw [hend]
        rcases hbare with hall | ⟨-, hbare⟩
        · exact Or.inl hall
        · exact hbare
      · obtain rfl : n = m := by omega
        have htail : sA.tail <:+ text := (List.tail_suffix sA).trans hnext
        rcases hbare with hall | ⟨hend, hbare⟩
        · exact ih htail hall hrun hok
        · -- nothing is left to read
          rw [hsA] at hend
          rcases run_paramList_ok isSeparator hrun hok with
            ⟨-, hlist'⟩ | ⟨_, _, ⟨q, hget', hfailed, -, -⟩, -, -⟩
          · exact hlist'.symm ▸ hbare
          · rw [hend] at hget'
            have hnone : getParamNameAndValue fuel true [] =
                some ⟨.mxInvalidData, [], [], [], false⟩ := rfl
            rw [show skipSpaces ([] : List Byte).tail = [] from rfl, hnone] at hget'
            cases hget'
            cases hfailed

/-! ### The parameters that are written -/

/-- A parameter as the setters take it, with a printable value. -/
structure BareParam where
  name : ParamName
  value : List Byte
  notEmpty : value ≠ []
  isPrintable : value.all isPrintable = true

def BareParam.entry (p : BareParam) : List Byte × List WChar :=
  (p.name.text, p.value.map UInt8.toUInt16)

/-- What the headers write for a parameter. -/
def BareParam.written (p : BareParam) : List Byte :=
  p.name.text ++ chEquals :: p.value.flatMap quoteA

/-- The value needs no quotes. -/
def BareParam.IsToken (p : BareParam) : Prop := p.value.all isTokenChar = true

instance (p : BareParam) : Decidable p.IsToken := inferInstanceAs (Decidable (_ = true))

theorem BareParam.ne_zero (p : BareParam) : ∀ ch ∈ p.value, ch ≠ 0 :=
  fun ch hch => isPrintable_ne_zero (List.all_eq_true.mp p.isPrintable ch hch)

theorem quoteW_toUInt16 {ch : Byte} (h : isPrintable ch = true) :
    quoteW ch.toUInt16 = quoteA ch := by
  revert h
  refine forall_byte (P := fun ch => isPrintable ch = true → quoteW ch.toUInt16 = quoteA ch) ?_ ch
  decide

theorem isPrintable_quoteA {v : List Byte} (h : v.all isPrintable = true) :
    ∀ ch ∈ v.flatMap quoteA, isPrintable ch = true := by
  intro ch hch
  obtain ⟨c, hc, hch⟩ := List.mem_flatMap.mp hch
  have hprint := List.all_eq_true.mp h c hc
  rw [quoteA] at hch
  split at hch
  · rwa [List.mem_singleton.mp hch]
  · rcases List.mem_cons.mp hch with rfl | hch
    · decide
    · rwa [List.mem_singleton.mp hch]

theorem isPrintable_token {t : List Byte} (h : t.all isTokenChar = true) :
    ∀ ch ∈ t, isPrintable ch = true := by
  intro ch hch
  have htoken := List.all_eq_true.mp h ch hch
  revert htoken
  refine forall_byte (P := fun ch => isTokenChar ch = true → isPrintable ch = true) ?_ ch
  decide

/-- **What `BuildQuotedString` writes for a value.** -/
theorem buildQuotedStringW_entry (p : BareParam) :
    szStr (buildQuotedStringW (szStr p.entry.2) false) = p.value.flatMap quoteA := by
  have hquote : (p.value.map UInt8.toUInt16).flatMap quoteW = p.value.flatMap quoteA := by
    rw [List.flatMap_map]
    exact List.flatMap_congr fun ch hch =>
      quoteW_toUInt16 (List.all_eq_true.mp p.isPrintable ch hch)
  rw [BareParam.entry, szStr_map_toUInt16 p.ne_zero, buildQuotedStringW_eq, hquote]
  exact szStr_of_ne_zero fun ch hch => isPrintable_ne_zero (isPrintable_quoteA p.isPrintable ch hch)

theorem quoteSafe_written (p : BareParam) : QuoteSafe p.written :=
  (quoteSafe_token p.name.isToken).append (.cons (by decide) (quoteSafe_flatMap p.value))

theorem isPrintable_written (p : BareParam) : ∀ ch ∈ p.written, isPrintable ch = true := by
  intro ch hch
  rcases List.mem_append.mp hch with hch | hch
  · exact isPrintable_token p.name.isToken ch hch
  · rcases List.mem_cons.mp hch with rfl | hch
    · decide
    · exact isPrintable_quoteA p.isPrintable ch hch

/-- A value that needs no quotes is written as it is. -/
theorem flatMap_quoteA_token {t : List Byte} (h : t.all isTokenChar = true) :
    t.flatMap quoteA = t := by
  induction t with
  | nil => rfl
  | cons ch t ih =>
    rw [List.all_cons, Bool.and_eq_true] at h
    have hplain : isPlainA ch = true := by
      have hch := h.1
      revert hch
      refine forall_byte (P := fun ch => isTokenChar ch = true → isPlainA ch = true) ?_ ch
      decide
    rw [List.flatMap_cons, ih h.2, quoteA, if_pos hplain]
    rfl

/-- The parameter as a reader sees it, if its value needs no quotes. -/
def BareParam.paramText (before : Blanks) (p : BareParam) (h : p.IsToken) : ParamText :=
  ⟨before, p.name, .token ⟨p.value, h⟩ p.notEmpty, .none⟩

theorem written_token (before : Blanks) (p : BareParam) (h : p.IsToken) (rest : List Byte) :
    (p.paramText before h).text rest = before.text ++ (p.written ++ rest) := by
  rw [BareParam.written, flatMap_quoteA_token h, List.append_assoc]
  rfl

theorem map_toUInt16_injective {v t : List Byte}
    (h : v.map UInt8.toUInt16 = t.map UInt8.toUInt16) : v = t := by
  refine List.map_injective_iff.mpr (fun a b hab => ?_) h
  rw [← UInt8.toNat_inj, ← UInt8.toNat_toUInt16, ← UInt8.toNat_toUInt16, hab]

theorem isToken_of_tokenValue {p : BareParam} (h : IsTokenValue p.entry.2) : p.IsToken := by
  obtain ⟨t, ht, hvalue⟩ := h
  rwa [BareParam.IsToken, map_toUInt16_injective hvalue]

/-- **A list of values that came without quotes has none that needs them**, if the last of
them ends the text. -/
theorem isToken_of_bareList {text : List Byte} {l : List BareParam}
    (h : BareList text (l.map BareParam.entry))
    (hlast : ∀ l' p, l = l' ++ [p] → (chEquals :: p.value.flatMap quoteA) <:+ text) :
    ∀ p ∈ l, p.IsToken := by
  rcases h with hall | ⟨l', name, t, hl, hsuf, -⟩
  · intro p hp
    exact isToken_of_tokenValue (hall _ (List.mem_map_of_mem hp))
  · exfalso
    obtain ⟨l₁, l₂, rfl, -, hl₂⟩ := List.map_eq_append_iff.mp hl
    obtain ⟨p, rfl, hp⟩ := List.map_eq_singleton_iff.mp hl₂
    have hvalue := map_toUInt16_injective (congrArg Prod.snd hp)
    exact not_isSuffix_escaped (hvalue ▸ hsuf) (hlast l₁ p rfl)

/-- **Values that need no quotes make a list as any header has it.** -/
theorem exists_paramTexts (chSeparator : Byte) (before : Blanks) {l : List BareParam}
    (h : ∀ p ∈ l, p.IsToken) : ∃ lt : List ParamText,
      lt.map ParamText.entry = l.map BareParam.entry ∧ (∀ q ∈ lt, q.before = before) ∧
        ∀ tail, moreParams chSeparator tail lt =
          l.flatMap (fun p => chSeparator :: (before.text ++ p.written)) ++ tail := by
  induction l with
  | nil => exact ⟨[], rfl, fun _ hq => absurd hq List.not_mem_nil, fun _ => rfl⟩
  | cons p l ih =>
    obtain ⟨hp, hl⟩ := List.forall_mem_cons.mp h
    obtain ⟨lt, hentries, hbefore, htext⟩ := ih hl
    refine ⟨p.paramText before hp :: lt, ?_, List.forall_mem_cons.mpr ⟨rfl, hbefore⟩,
      fun tail => ?_⟩
    · rw [List.map_cons, List.map_cons, hentries]
      rfl
    · rw [moreParams, htext, written_token, List.flatMap_cons]
      simp only [List.cons_append, List.append_assoc]

end MxLib.Http
