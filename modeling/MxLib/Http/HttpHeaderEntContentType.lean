import MxLib.Http.BareValues

/-!
# Content-Type

`parse` is `CHttpHeaderEntContentType::Parse` and `build` is `Build`.  `Build` asks for
every value in quotes, gets it without them and writes it so, and what is written is read
back only if no value needs the quotes (`contentTypeRoundTrip_iff`).
-/

namespace MxLib.Http

open MxLib.Library

/-- `CHttpHeaderEntContentType` -/
structure ContentType where
  cStrTypeA : List Byte
  aParamsList : ParamsList
deriving DecidableEq

/-- The constructor. -/
def ContentType.create : ContentType := ⟨[], []⟩

def chSlash : Byte := 0x2F

/-- The check of `SetType`. -/
def isContentType (szTypeA : List Byte) : Bool :=
  match (getToken szTypeA).2 with
  | [] => false
  | ch :: szSubtypeA =>
    ch == chSlash && (getToken szSubtypeA).1 != [] && (getToken szSubtypeA).2 == []

/-- `SetType` -/
def ContentType.setType (h : ContentType) (szTypeA : List Byte) : Except HResult ContentType :=
  if szTypeA = [] then .error .mxInvalidData
  else if !isContentType szTypeA then .error .mxInvalidData
  else .ok { h with cStrTypeA := szTypeA }

/-- `AddParam` -/
def ContentType.addParam (h : ContentType) (szNameA : List Byte) (szValueW : List WChar) :
    Except HResult ContentType :=
  (Http.addParam h.aParamsList szNameA szValueW).map fun aParamsList => { h with aParamsList }

/-- What may stand between two parameters. -/
def isTypeSeparator (ch : Byte) : Bool := ch == chSemicolon

/-- `Parse`, with at most `fuel` turns of each loop. -/
def ContentType.parse (fuel : Nat) (h : ContentType) (szValueA : List Byte) :
    Option (HResult × ContentType) :=
  let szStartA := skipSpaces szValueA
  let szValueA := skipUntil szWordEnds szStartA
  let szTypeA := szStartA.take (szStartA.length - szValueA.length)
  if szTypeA = [] then some (.mxInvalidData, h)
  else
    match h.setType szTypeA with
    | .error hRes => some (hRes, h)
    | .ok h =>
      match skipSpaces szValueA with
      | [] => some (.sOk, h)
      | chA :: rest =>
        if chA == chSemicolon then
          (Loop.run (paramListTurn isTypeSeparator fuel) fuel ⟨h.aParamsList, rest⟩).join.map
            fun r => (r.atEnd.1, { h with aParamsList := r.atEnd.2 })
        else some (.mxInvalidData, h)

/-- A parameter as `Build` writes it. -/
def buildTypeParam (p : List Byte × List WChar) : List Byte :=
  ascii "; " ++ szStr p.1 ++ ascii "=" ++ szStr (buildQuotedStringW (szStr p.2) false)

/-- `Build` -/
def ContentType.build (h : ContentType) : List Byte :=
  if isEmptyStr h.cStrTypeA then [] else h.cStrTypeA ++ h.aParamsList.flatMap buildTypeParam

/-! ### The text of a type -/

/-- A type the setter takes. -/
structure TypeName where
  text : List Byte
  isType : isContentType text = true

/-- The parts of a type. -/
theorem exists_of_isContentType {szTypeA : List Byte} (h : isContentType szTypeA = true) :
    ∃ t t' : List Byte, t.all isTokenChar = true ∧ t'.all isTokenChar = true ∧
      szTypeA = t ++ chSlash :: t' := by
  rw [isContentType] at h
  split at h
  · cases h
  next ch szSubtypeA hrest =>
    simp only [Bool.and_eq_true, beq_iff_eq] at h
    obtain ⟨⟨rfl, -⟩, hend⟩ := h
    refine ⟨(getToken szTypeA).1, szSubtypeA, List.all_takeWhile, ?_, ?_⟩
    · have hall : (getToken szSubtypeA).1.all isTokenChar = true := List.all_takeWhile
      have hsplit : (getToken szSubtypeA).1 ++ (getToken szSubtypeA).2 = szSubtypeA :=
        List.takeWhile_append_dropWhile
      rw [hend, List.append_nil] at hsplit
      rwa [hsplit] at hall
    · rw [← hrest]
      exact List.takeWhile_append_dropWhile.symm

/-- The type at the start of a header. -/
def TypeName.word (type : TypeName) : Word where
  text := type.text
  notEmpty := by
    obtain ⟨t, t', -, -, htext⟩ := exists_of_isContentType type.isType
    rw [htext]
    simp
  isWord := by
    obtain ⟨t, t', ht, ht', htext⟩ := exists_of_isContentType type.isType
    rw [htext, List.all_append, List.all_cons, all_isWordChar ht, all_isWordChar ht']
    rfl

/-! ### The round trip -/

/-- A header with a type and parameters, as the setters make it. -/
def ContentType.set (szTypeA : List Byte) (aParams : ParamsList) : Except HResult ContentType := do
  let h ← ContentType.create.setType szTypeA
  aParams.foldlM (fun h p => h.addParam p.1 p.2) h

/-- What `Build` writes for a header that the setters made is read back. -/
def ContentTypeRoundTrip (szTypeA : List Byte) (aParams : ParamsList) : Prop :=
  ∃ h, ContentType.set szTypeA aParams = .ok h ∧
    ∃ n, ∀ fuel ≥ n, ContentType.parse fuel .create h.build = some (.sOk, h)

/-- The header that the setters make. -/
theorem set_entries (type : TypeName) (l : List BareParam) :
    ContentType.set type.text (l.map BareParam.entry) =
      .ok ⟨type.text, l.map BareParam.entry⟩ := by
  have hfold : ∀ (l : List BareParam) (h : ContentType),
      (l.map BareParam.entry).foldlM (fun h p => h.addParam p.1 p.2) h =
        (.ok ⟨h.cStrTypeA, h.aParamsList ++ l.map BareParam.entry⟩ : Except HResult ContentType) := by
    intro l
    induction l with
    | nil =>
      intro h
      rw [List.map_nil, List.append_nil]
      rfl
    | cons p l ih =>
      intro h
      have hadd : h.addParam p.entry.1 p.entry.2 =
          .ok ⟨h.cStrTypeA, h.aParamsList ++ [p.entry]⟩ := by
        have htoken := addParam_token h.aParamsList (t := p.name.toToken) p.name.notEmpty p.entry.2
        have hvalue : szStr p.entry.2 = p.entry.2 := szStr_map_toUInt16 p.ne_zero
        rw [hvalue] at htoken
        rw [ContentType.addParam]
        exact congrArg (Except.map _) htoken
      rw [List.map_cons, List.foldlM_cons, hadd]
      refine (ih _).trans ?_
      simp
  have htype : ContentType.create.setType type.text = .ok ⟨type.text, []⟩ := by
    have hne : type.text ≠ [] := type.word.notEmpty
    rw [ContentType.setType, if_neg hne, type.isType]
    rfl
  rw [ContentType.set, htype]
  exact hfold l _

theorem buildTypeParam_entry (p : BareParam) :
    buildTypeParam p.entry = chSemicolon :: (chSpace :: p.written) := by
  have hname : szStr p.entry.1 = p.name.text := szStr_token p.name.isToken
  rw [buildTypeParam, hname, buildQuotedStringW_entry, List.append_assoc, List.append_assoc]
  rfl

/-- What `Build` writes. -/
theorem build_entries (type : TypeName) (l : List BareParam) :
    ContentType.build ⟨type.text, l.map BareParam.entry⟩ =
      type.text ++ l.flatMap fun p => chSemicolon :: (chSpace :: p.written) := by
  have hempty : isEmptyStr type.text = false :=
    isEmptyStr_of_ne_zero (fun ch hch => (type.word.facts ch hch).1) type.word.notEmpty
  rw [ContentType.build, hempty, List.flatMap_map]
  simp only [buildTypeParam_entry, Bool.false_eq_true, if_false]

/-- **The type is read.** -/
theorem parse_type (fuel : Nat) (type : TypeName) {rest : List Byte}
    (hrest : rest = [] ∨ ∃ tail, rest = chSemicolon :: tail) :
    ContentType.parse fuel .create (type.text ++ rest) =
      if rest = [] then some (.sOk, ⟨type.text, []⟩)
      else (Loop.run (paramListTurn isTypeSeparator fuel) fuel ⟨[], rest.tail⟩).join.map
        fun r => (r.atEnd.1, ⟨type.text, r.atEnd.2⟩) := by
  have hstart : skipSpaces (type.text ++ rest) = type.text ++ rest := skipSpaces_word type.word rest
  have hends : rest = [] ∨ szWordEnds.contains (charAt rest 0) = true := by
    rcases hrest with hnil | ⟨tail, rfl⟩
    · exact Or.inl hnil
    · exact Or.inr rfl
  obtain ⟨huntil, htake⟩ : skipUntil szWordEnds (type.text ++ rest) = rest ∧
      (type.text ++ rest).take ((type.text ++ rest).length - rest.length) = type.text :=
    skipUntil_word type.word hends
  have hne : type.text ≠ [] := type.word.notEmpty
  have htype : ContentType.create.setType type.text = .ok ⟨type.text, []⟩ := by
    rw [ContentType.setType, if_neg hne, type.isType]
    rfl
  simp only [ContentType.parse, hstart, huntil, htake, htype, if_neg hne]
  rcases hrest with rfl | ⟨tail, rfl⟩
  · rfl
  · rw [skipSpaces_cons (by decide), if_neg (List.cons_ne_nil _ _)]
    rfl

theorem written_facts (type : TypeName) (l : List BareParam) :
    QuoteSafe (type.text ++ l.flatMap fun p => chSemicolon :: (chSpace :: p.written)) ∧
      ∀ ch ∈ type.text ++ l.flatMap fun p => chSemicolon :: (chSpace :: p.written),
        isPrintable ch = true := by
  constructor
  · refine QuoteSafe.append (quoteSafe_of_ne fun ch hch => (type.word.facts ch hch).2.1) ?_
    exact quoteSafe_flatMap_of fun p _ => .cons (by decide) (.cons (by decide) (quoteSafe_written p))
  · intro ch hch
    rcases List.mem_append.mp hch with hch | hch
    · exact (type.word.facts ch hch).2.2.2.1
    · obtain ⟨p, -, hch⟩ := List.mem_flatMap.mp hch
      rcases List.mem_cons.mp hch with rfl | hch
      · decide
      · rcases List.mem_cons.mp hch with rfl | hch
        · decide
        · exact isPrintable_written p ch hch

/-- **A type and its parameters are read back from what `Build` writes exactly when no
value needs quotes.** -/
theorem contentTypeRoundTrip_iff (type : TypeName) (l : List BareParam) :
    ContentTypeRoundTrip type.text (l.map BareParam.entry) ↔ ∀ p ∈ l, p.IsToken := by
  rw [ContentTypeRoundTrip, set_entries]
  have hcases : (l.flatMap fun p => chSemicolon :: (chSpace :: p.written)) = [] ∨
      ∃ tail, (l.flatMap fun p => chSemicolon :: (chSpace :: p.written)) = chSemicolon :: tail := by
    cases l with
    | nil => exact Or.inl rfl
    | cons p l => exact Or.inr ⟨_, rfl⟩
  constructor
  · rintro ⟨h, hset, n, hparse⟩
    cases hset
    have hrun := hparse n (Nat.le_refl n)
    rw [build_entries, parse_type n type hcases] at hrun
    obtain ⟨hsafe, hprint⟩ := written_facts type l
    split at hrun
    next hnil =>
      cases l with
      | nil => exact fun p hp => absurd hp List.not_mem_nil
      | cons p l => cases hnil
    · obtain ⟨r, hloop, hr⟩ := Option.map_eq_some_iff.mp hrun
      have hlist : r.aParamsList = l.map BareParam.entry := by
        rw [← atEnd_snd]
        exact congrArg ContentType.aParamsList (Prod.mk.inj hr).2
      have hbare := run_bareList (show isTypeSeparator chPercent = false by decide) hsafe hprint n
        ((List.tail_suffix _).trans (List.suffix_append _ _)) (fun e he => absurd he List.not_mem_nil)
        (Option.join_eq_some_iff.mp hloop) (failed_of_atEnd (Prod.mk.inj hr).1)
      rw [hlist] at hbare
      refine isToken_of_bareList hbare ?_
      rintro l' p rfl
      rw [List.flatMap_append, List.flatMap_singleton, BareParam.written, ← List.append_assoc]
      exact (List.suffix_append (chSemicolon :: chSpace :: p.name.text) _).trans
        (List.suffix_append _ _)
  · intro htoken
    obtain ⟨lt, hentries, -, htext⟩ := exists_paramTexts chSemicolon ⟨[chSpace], rfl⟩ htoken
    have hwritten : (l.flatMap fun p => chSemicolon :: (chSpace :: p.written)) =
        moreParams chSemicolon [] lt := by
      rw [htext, List.append_nil]
      rfl
    refine ⟨_, rfl, (moreParams chSemicolon [] lt).length + 1, fun fuel hfuel => ?_⟩
    rw [build_entries, parse_type fuel type hcases, hwritten, ← hentries]
    cases lt with
    | nil => rfl
    | cons q lt =>
      have htail : (moreParams chSemicolon [] (q :: lt)).tail = paramsText chSemicolon (q :: lt) :=
        rfl
      have hlen : (paramsText chSemicolon (q :: lt)).length < fuel := by
        rw [← htail, List.length_tail]
        omega
      have hcount := length_le_paramsText chSemicolon (q :: lt)
      have hrun := run_paramList isTypeSeparator chSemicolon rfl rfl rfl (q :: lt)
        fuel [] (by omega) hlen
      have hne : moreParams chSemicolon [] (q :: lt) ≠ [] := List.cons_ne_nil _ _
      rw [if_neg hne, htail, hrun]
      rfl

end MxLib.Http
