import Mathlib.Data.Bool.AllAny
import MxLib.Http.HeaderItemList
import MxLib.Http.HttpHeaderEntContentType

/-!
# Entity tags

`CHttpHeaderReqIfXXXMatchBase`, the list of `If-Match` and `If-None-Match`, and
`CHttpHeaderRespETag` with its one tag.  Both read a tag in quotes, or without quotes up to the
next blank, which takes commas too.

`Build` writes the tags without quotes.  So a list of two tags is read back as one, and one tag is
read back if it has no blanks and does not begin with what is read as something else
(`entityTags_iff`).
-/

namespace MxLib.Http

open MxLib.Library

/-- `CEntity`, and the members of `CHttpHeaderRespETag`. -/
structure Entity where
  cStrTagA : List Byte
  bIsWeak : Bool
  deriving DecidableEq

/-- The characters that `SetTag` takes. -/
def isTagChar (ch : Byte) : Bool := !(ch < 0x20 || ch > 0x7E || ch == chQuote)

/-- `SetTag`, of both classes. -/
def setTag (szTagA : List Byte) : Except HResult (List Byte) :=
  if szTagA = [] then .error .mxInvalidData
  else if szTagA.all isTagChar then .ok szTagA
  else .error .mxInvalidData

/-- `AddEntity`: the new entity of the list. -/
def addEntity (cEntitiesList : List Entity) (szTagA : List Byte) : Except HResult Entity :=
  if szTagA = [] then .error .mxInvalidData
  else if cEntitiesList.any fun lpEntity => lpEntity.cStrTagA.length == szTagA.length &&
      strNCompareA lpEntity.cStrTagA szTagA szTagA.length true then .error .mxAlreadyExists
  else (setTag szTagA).map fun cStrTagA => ⟨cStrTagA, false⟩

/-! ### Reading -/

def szBlanks : List Byte := ascii " \t"

/-- What is read of an entity: the code, the flag and the text, and the cursor. -/
structure EntityResult where
  hRes : HResult
  bIsWeak : Bool
  cStrTempA : List Byte
  sA : List Byte
  deriving DecidableEq

/-- Whether an entity is weak. -/
def getWeak : List Byte → Bool × List Byte
  | 0x57 :: 0x2F :: sA => (true, sA)
  | sA => (false, sA)

/-- The part of `Parse` that reads an entity, in quotes or not; it is the same in both classes. -/
def getEntity (fuel : Nat) (szValueA : List Byte) : Option EntityResult :=
  let (bIsWeak, szStartA) := getWeak szValueA
  if szStartA != [] && charAt szStartA 0 != chQuote then
    let sA := skipUntil szBlanks szStartA
    if sA.length = szStartA.length then some ⟨.mxInvalidData, bIsWeak, [], sA⟩
    else some ⟨.sOk, bIsWeak, szStartA.take (szStartA.length - sA.length), sA⟩
  else
    (getQuotedString fuel szStartA).map fun r =>
      if r.hRes.failed then ⟨r.hRes, bIsWeak, r.cStrA, r.sA⟩
      else if isEmptyStr r.cStrA then ⟨.mxInvalidData, bIsWeak, r.cStrA, r.sA⟩
      else ⟨.sOk, bIsWeak, r.cStrA, r.sA⟩

/-- A turn of the loop over the entities, and its exit; `none` stands for a text in quotes that is
never left. -/
def entitiesTurn (fuel : Nat) (s : ItemsScan Entity) : ItemsScan Entity ⊕ Option (ItemsResult Entity) :=
  let sA := skipSpaces s.sA
  if sA = [] then .inr (some ⟨.sOk, s.aItems, s.bGotItem⟩)
  else if charAt sA 0 == chComma then itemsSeparator s.aItems s.bGotItem sA
  else
    match getEntity fuel sA with
    | none => .inr none
    | some r =>
      if r.hRes.failed then .inr (some ⟨r.hRes, s.aItems, true⟩)
      else
        match addEntity s.aItems r.cStrTempA with
        | .error hRes => .inr (some ⟨hRes, s.aItems, true⟩)
        | .ok lpEntity =>
          itemsSeparator (s.aItems ++ [{ lpEntity with bIsWeak := r.bIsWeak }]) true (skipSpaces r.sA)

namespace IfMatch

/-- `CHttpHeaderReqIfXXXMatchBase::Parse`, with at most `fuel` turns of each loop. -/
def parse (fuel : Nat) (cEntitiesList : List Entity) (szValueA : List Byte) :
    Option (HResult × List Entity) :=
  (Loop.run (entitiesTurn fuel) fuel ⟨cEntitiesList, false, szValueA⟩).join.map fun r =>
    if r.hRes.failed then (r.hRes, r.aItems)
    else if !r.bGotItem then (.mxInvalidData, r.aItems)
    else (.sOk, r.aItems)

end IfMatch

namespace ETag

/-- `CHttpHeaderRespETag::Parse` -/
def parse (fuel : Nat) (e : Entity) (szValueA : List Byte) : Option (HResult × Entity) :=
  (getEntity fuel (skipSpaces szValueA)).map fun r =>
    if r.hRes.failed then (r.hRes, e)
    else if skipSpaces r.sA != [] then (.mxInvalidData, e)
    else
      match setTag r.cStrTempA with
      | .error hRes => (hRes, e)
      | .ok cStrTagA => (.sOk, ⟨cStrTagA, r.bIsWeak⟩)

end ETag

/-! ### Writing -/

/-- An entity in the text. -/
def Entity.write (e : Entity) : List Byte :=
  (if e.bIsWeak then ascii "W/" else []) ++ buildQuotedStringA e.cStrTagA false

/-- `CHttpHeaderReqIfXXXMatchBase::Build` -/
def IfMatch.build (cEntitiesList : List Entity) : List Byte :=
  cEntitiesList.foldl (fun cStrDestA lpEntity =>
    (if isEmptyStr cStrDestA then cStrDestA else cStrDestA ++ [chComma]) ++ lpEntity.write) []

/-- `CHttpHeaderRespETag::Build` -/
def ETag.build (e : Entity) : List Byte := if isEmptyStr e.cStrTagA then [] else e.write

/-! ### Tags in quotes -/

/-- A tag of printable characters, without quotes and backslashes. -/
structure TagText where
  text : List Byte
  valid : ∀ ch ∈ text, isTagChar ch = true ∧ ch ≠ chBackslash

/-- An entity with such a tag. -/
structure TagEntity where
  tag : TagText
  bIsWeak : Bool

def TagEntity.entity (e : TagEntity) : Entity := ⟨e.tag.text, e.bIsWeak⟩

/-- An entity of a list, with the blanks around it. -/
structure Listed extends TagEntity where
  before : Blanks
  after : Blanks

/-- An entity with its tag in quotes, in front of `rest`. -/
def TagEntity.quoted (e : TagEntity) (rest : List Byte) : List Byte :=
  (if e.bIsWeak then ascii "W/" else []) ++ chQuote :: (e.tag.text ++ chQuote :: rest)

def Listed.write (i : Listed) (rest : List Byte) : List Byte :=
  i.before.text ++ i.quoted (i.after.text ++ rest)

/-- What follows the first entity of a list. -/
def moreListed : List Listed → List Byte
  | [] => []
  | i :: l => chComma :: i.write (moreListed l)

/-- The entities of a list with commas between them. -/
def listedText : List Listed → List Byte
  | [] => []
  | i :: l => i.write (moreListed l)

/-- Two tags are the same but for the case of their letters. -/
def SameTag (szTagA szTagA' : List Byte) : Prop := szTagA.map lowerA = szTagA'.map lowerA

/-- **A list is read as it is written.** -/
def ParsesAsWritten (l : List Listed) : Prop :=
  ∀ fuel, (listedText l).length < fuel →
    IfMatch.parse fuel [] (listedText l) = some (.sOk, l.map fun i => i.entity)

theorem TagText.facts (t : TagText) : ∀ ch ∈ t.text, ch ≠ 0 ∧ isQuotedText ch = true := by
  intro ch hch
  obtain ⟨htag, hslash⟩ := t.valid ch hch
  simp only [isTagChar, Bool.not_eq_true', Bool.or_eq_false_iff, decide_eq_false_iff_not,
    beq_eq_false_iff_ne] at htag
  obtain ⟨⟨hlow, -⟩, hquote⟩ := htag
  have hle : 0x20 ≤ ch := UInt8.not_lt.mp hlow
  refine ⟨?_, ?_⟩
  · rintro rfl
    exact hlow (by decide)
  · rw [isQuotedText, decide_eq_true hle, bne_iff_ne.mpr hslash, bne_iff_ne.mpr hquote]
    rfl

theorem contains_szBlanks (ch : Byte) : szBlanks.contains ch = isBlank ch := by
  rw [show szBlanks = [chSpace, chTab] by decide, isBlank]
  simp only [List.contains_cons, List.contains_nil, Bool.or_false]

/-- The scan of a tag in quotes. -/
theorem scanQuoted_tag (t : TagText) (rest cStrA : List Byte) :
    scanQuoted (t.text ++ chQuote :: rest) cStrA = ⟨.sOk, cStrA ++ t.text, rest⟩ := by
  have hall := fun ch hch => (t.facts ch hch).2
  generalize t.text = text at hall
  induction text generalizing cStrA with
  | nil => rw [List.nil_append, List.append_nil, scanQuoted_quote]
  | cons ch text ih =>
    obtain ⟨hq, hb⟩ := isQuotedText_ne (hall ch List.mem_cons_self)
    rw [List.cons_append, scanQuoted_plain hq hb, ih _ fun c hc => hall c (List.mem_cons_of_mem ch hc),
      List.append_assoc, List.singleton_append]

theorem quotedTextOk_tag (t : TagText) (rest : List Byte) :
    quotedTextOk (t.text ++ chQuote :: rest) = true := by
  have hall := fun ch hch => (t.facts ch hch).2
  generalize t.text = text at hall
  induction text with
  | nil => exact quotedTextOk_quote rest
  | cons ch text ih =>
    rw [List.cons_append, quotedTextOk_plain (hall ch List.mem_cons_self)]
    exact ih fun c hc => hall c (List.mem_cons_of_mem ch hc)

theorem getWeak_quoted (e : TagEntity) (rest : List Byte) :
    getWeak (e.quoted rest) = (e.bIsWeak, chQuote :: (e.tag.text ++ chQuote :: rest)) := by
  rw [TagEntity.quoted]
  cases e.bIsWeak <;> rfl

/-- **An entity in quotes is read.** -/
theorem getEntity_quoted {fuel : Nat} (e : TagEntity) {rest : List Byte}
    (hfuel : (e.quoted rest).length < fuel) :
    getEntity fuel (e.quoted rest) =
      some ⟨if e.tag.text = [] then .mxInvalidData else .sOk, e.bIsWeak, e.tag.text, rest⟩ := by
  have hlen : (e.tag.text ++ chQuote :: rest).length < fuel := by
    rw [TagEntity.quoted, List.length_append, List.length_cons] at hfuel
    omega
  have hscan : getQuotedString fuel (chQuote :: (e.tag.text ++ chQuote :: rest)) =
      some ⟨.sOk, e.tag.text, rest⟩ := by
    rw [getQuotedString]
    simp only [beq_self_eq_true, if_true]
    rw [run_quotedTurn fuel [] hlen (quotedTextOk_tag e.tag rest), scanQuoted_tag, List.nil_append]
  have hempty : isEmptyStr e.tag.text = decide (e.tag.text = []) := by
    cases htext : e.tag.text with
    | nil => rfl
    | cons ch text =>
      have hzero := (e.tag.facts ch (by rw [htext]; exact List.mem_cons_self)).1
      simpa [isEmptyStr, charAt] using hzero
  rw [getEntity, getWeak_quoted]
  simp only [hscan, Option.map_some, hempty]
  by_cases htext : e.tag.text = []
  · simp [htext, charAt]
  · simp [htext, charAt]

/-! ### Lists in quotes -/

/-- Whether `AddEntity` finds a tag in the list. -/
theorem addEntity_eq {es : List Entity} (hzero : ∀ e ∈ es, ∀ ch ∈ e.cStrTagA, ch ≠ 0) {t : TagText}
    (hne : t.text ≠ []) :
    (addEntity es t.text = .ok ⟨t.text, false⟩ ∧ ∀ e ∈ es, ¬ SameTag e.cStrTagA t.text) ∨
      (addEntity es t.text = .error .mxAlreadyExists ∧ ∃ e ∈ es, SameTag e.cStrTagA t.text) := by
  have hfound : (es.any fun e => e.cStrTagA.length == t.text.length &&
      strNCompareA e.cStrTagA t.text t.text.length true) = true ↔ ∃ e ∈ es, SameTag e.cStrTagA t.text := by
    rw [List.any_eq_true]
    refine exists_congr fun e => and_congr_right fun he => ?_
    rw [strNCompareA, szStr_of_ne_zero (hzero e he), szStr_of_ne_zero fun ch hch => (t.facts ch hch).1]
    simp only [if_true, Bool.and_eq_true, beq_iff_eq, List.take_length]
    constructor
    · rintro ⟨hlen, hsame⟩
      rwa [← hlen, List.take_length] at hsame
    · intro hsame
      have hlen : e.cStrTagA.length = t.text.length := by
        have := congrArg List.length hsame
        rwa [List.length_map, List.length_map] at this
      refine ⟨hlen, ?_⟩
      rwa [← hlen, List.take_length]
  rw [addEntity, if_neg hne]
  by_cases hdup : ∃ e ∈ es, SameTag e.cStrTagA t.text
  · rw [if_pos (hfound.mpr hdup)]
    exact .inr ⟨rfl, hdup⟩
  · rw [if_neg fun h => hdup (hfound.mp h), setTag, if_neg hne,
      if_pos (List.all_eq_true.mpr fun ch hch => (t.valid ch hch).1)]
    exact .inl ⟨rfl, fun e he hsame => hdup ⟨e, he, hsame⟩⟩

/-- What the loop makes of a list, entity by entity. -/
def record : List Entity → List Listed → Option (List Entity)
  | es, [] => some es
  | es, i :: l =>
    if i.tag.text = [] then none
    else
      match addEntity es i.tag.text with
      | .error _ => none
      | .ok lpEntity => record (es ++ [{ lpEntity with bIsWeak := i.bIsWeak }]) l

/-- The tag of an entity is not that of one before it. -/
def Differ (i j : Listed) : Prop := ¬ SameTag i.tag.text j.tag.text

theorem record_eq_some_iff {es es' : List Entity} (hzero : ∀ e ∈ es, ∀ ch ∈ e.cStrTagA, ch ≠ 0)
    {l : List Listed} :
    record es l = some es' ↔ es' = es ++ l.map (fun i => i.entity) ∧ (∀ i ∈ l, i.tag.text ≠ []) ∧
      l.Pairwise Differ ∧ ∀ e ∈ es, ∀ i ∈ l, ¬ SameTag e.cStrTagA i.tag.text := by
  induction l generalizing es with
  | nil => simp [record, eq_comm]
  | cons i l ih =>
    rw [record]
    by_cases hne : i.tag.text = []
    · rw [if_pos hne]
      refine ⟨nofun, fun h => absurd hne (h.2.1 i List.mem_cons_self)⟩
    rw [if_neg hne]
    rcases addEntity_eq hzero hne with ⟨hadd, hnew⟩ | ⟨hadd, e, he, hsame⟩
    · rw [hadd]
      have hzero' : ∀ e ∈ es ++ [i.entity], ∀ ch ∈ e.cStrTagA, ch ≠ 0 := by
        intro e he
        rcases List.mem_append.mp he with he | he
        · exact hzero e he
        · rw [List.mem_singleton.mp he]
          exact fun ch hch => (i.tag.facts ch hch).1
      refine (ih hzero').trans ?_
      rw [List.map_cons, List.append_assoc, List.singleton_append, List.pairwise_cons,
        List.forall_mem_cons]
      refine and_congr_right fun _ => ?_
      constructor
      · rintro ⟨hrest, hpair, hcross⟩
        refine ⟨⟨hne, hrest⟩, ⟨?_, hpair⟩, ?_⟩
        · exact fun j hj => hcross i.entity (by simp) j hj
        · intro e he j hj
          rcases List.mem_cons.mp hj with rfl | hj
          · exact hnew e he
          · exact hcross e (List.mem_append_left _ he) j hj
      · rintro ⟨⟨-, hrest⟩, ⟨hfirst, hpair⟩, hcross⟩
        refine ⟨hrest, hpair, ?_⟩
        intro e he j hj
        rcases List.mem_append.mp he with he | he
        · exact hcross e he j (List.mem_cons_of_mem i hj)
        · rw [List.mem_singleton.mp he]
          exact hfirst j hj
    · rw [hadd]
      refine ⟨nofun, fun h => absurd hsame (h.2.2.2 e he i List.mem_cons_self)⟩

theorem endsItem_moreListed (l : List Listed) : EndsItem (moreListed l) := by
  cases l with
  | nil => exact .inl rfl
  | cons i l => exact .inr ⟨_, rfl⟩

/-- A turn of the loop at an entity in quotes. -/
theorem entitiesTurn_listed {fuel : Nat} (es : List Entity) (bGotItem : Bool) (i : Listed)
    {tail : List Byte} (htail : EndsItem tail) (hfuel : (i.write tail).length < fuel) :
    entitiesTurn fuel ⟨es, bGotItem, i.write tail⟩ =
      if i.tag.text = [] then .inr (some ⟨.mxInvalidData, es, true⟩)
      else
        match addEntity es i.tag.text with
        | .error hRes => .inr (some ⟨hRes, es, true⟩)
        | .ok lpEntity => itemsSeparator (es ++ [{ lpEntity with bIsWeak := i.bIsWeak }]) true tail := by
  have hlen : (i.quoted (i.after.text ++ tail)).length < fuel := by
    rw [Listed.write, List.length_append] at hfuel
    omega
  have hstart : skipSpaces (i.write tail) = i.quoted (i.after.text ++ tail) := by
    rw [Listed.write, skipSpaces_blanks, TagEntity.quoted]
    cases i.bIsWeak <;> exact skipSpaces_cons (by decide) _
  have hchar : i.quoted (i.after.text ++ tail) ≠ [] ∧
      (charAt (i.quoted (i.after.text ++ tail)) 0 == chComma) = false := by
    rw [TagEntity.quoted]
    cases i.bIsWeak <;> exact ⟨List.cons_ne_nil _ _, rfl⟩
  rw [entitiesTurn]
  simp only [hstart, if_neg hchar.1, hchar.2, getEntity_quoted i.toTagEntity hlen]
  rw [skipSpaces_blanks, skipSpaces_end htail]
  by_cases htext : i.tag.text = []
  · rw [if_pos htext, if_pos htext]
    rfl
  · rw [if_neg htext, if_neg htext]
    rfl

theorem failed_setTag {szTagA : List Byte} {hRes : HResult} (h : setTag szTagA = .error hRes) :
    hRes.failed = true := by
  rw [setTag] at h
  split at h
  · cases h
    rfl
  · split at h
    · cases h
    · cases h
      rfl

theorem failed_addEntity {es : List Entity} {szTagA : List Byte} {hRes : HResult}
    (h : addEntity es szTagA = .error hRes) : hRes.failed = true := by
  rw [addEntity] at h
  split at h
  · cases h
    rfl
  split at h
  · cases h
    rfl
  exact failed_setTag (eq_error_of_map h)

/-- The turn at an entity in quotes does what `record` does. -/
theorem entitiesTurn_record {fuel : Nat} (es : List Entity) (bGotItem : Bool) (i : Listed)
    {tail : List Byte} (htail : EndsItem tail) (hfuel : (i.write tail).length < fuel) :
    (∃ hRes, entitiesTurn fuel ⟨es, bGotItem, i.write tail⟩ = .inr (some ⟨hRes, es, true⟩) ∧
      hRes.failed = true ∧ ∀ l, record es (i :: l) = none) ∨
    ∃ es', entitiesTurn fuel ⟨es, bGotItem, i.write tail⟩ = itemsSeparator es' true tail ∧
      ∀ l, record es (i :: l) = record es' l := by
  have hturn := entitiesTurn_listed es bGotItem i htail hfuel
  by_cases htext : i.tag.text = []
  · rw [if_pos htext] at hturn
    exact .inl ⟨_, hturn, rfl, fun l => by rw [record, if_pos htext]⟩
  · rw [if_neg htext] at hturn
    cases hadd : addEntity es i.tag.text with
    | error hRes =>
      rw [hadd] at hturn
      exact .inl ⟨_, hturn, failed_addEntity hadd, fun l => by rw [record, if_neg htext, hadd]⟩
    | ok lpEntity =>
      rw [hadd] at hturn
      exact .inr ⟨_, hturn, fun l => by rw [record, if_neg htext, hadd]⟩

theorem write_ne_nil (i : Listed) (rest : List Byte) : i.write rest ≠ [] := by
  rw [Listed.write, TagEntity.quoted]
  simp

/-- **The loop reads the entities one by one.** -/
theorem run_listed {fuel : Nat} (l : List Listed) : ∀ (i : Listed) (es : List Entity) (bGotItem : Bool)
    (n : Nat), (i.write (moreListed l)).length < fuel → l.length < n →
    ∃ r, Loop.run (entitiesTurn fuel) n ⟨es, bGotItem, i.write (moreListed l)⟩ = some (some r) ∧
      match record es (i :: l) with
      | none => r.hRes.failed = true
      | some es' => r = ⟨.sOk, es', true⟩ := by
  induction l with
  | nil =>
    intro i es bGotItem n hfuel hn
    obtain ⟨n, rfl⟩ := Nat.exists_eq_add_one.mpr hn
    rcases entitiesTurn_record es bGotItem i (endsItem_moreListed []) hfuel with
      ⟨hRes, hturn, hfailed, hrecord⟩ | ⟨es', hturn, hrecord⟩
    · rw [hrecord]
      exact ⟨_, Loop.run_succ_inr hturn n, hfailed⟩
    · rw [hrecord]
      exact ⟨_, Loop.run_succ_inr hturn n, rfl⟩
  | cons j l ih =>
    intro i es bGotItem n hfuel hn
    obtain ⟨n, rfl⟩ := Nat.exists_eq_add_one.mpr (Nat.zero_lt_of_lt hn)
    rcases entitiesTurn_record es bGotItem i (endsItem_moreListed (j :: l)) hfuel with
      ⟨hRes, hturn, hfailed, hrecord⟩ | ⟨es', hturn, hrecord⟩
    · rw [hrecord]
      exact ⟨_, Loop.run_succ_inr hturn n, hfailed⟩
    · have hlen : (j.write (moreListed l)).length < fuel := by
        rw [moreListed, Listed.write, TagEntity.quoted] at hfuel
        simp only [List.length_append, List.length_cons] at hfuel
        omega
      rw [moreListed, itemsSeparator, if_pos (beq_self_eq_true chComma),
        if_neg (write_ne_nil j _)] at hturn
      rw [hrecord, moreListed, Loop.run_succ_inl hturn]
      exact ih j es' true n hlen (by simpa using hn)

theorem length_le_moreListed (l : List Listed) : l.length ≤ (moreListed l).length := by
  induction l with
  | nil => exact Nat.le_refl 0
  | cons i l ih =>
    rw [moreListed, Listed.write, TagEntity.quoted]
    simp only [List.length_append, List.length_cons]
    omega

/-- **A list in quotes is read as it is written** if and only if it is not empty, no tag is, and no
tag comes again in any case of its letters. -/
theorem parsesAsWritten_iff (l : List Listed) :
    ParsesAsWritten l ↔ l ≠ [] ∧ (∀ i ∈ l, i.tag.text ≠ []) ∧ l.Pairwise Differ := by
  cases l with
  | nil =>
    refine ⟨fun h => ?_, fun h => absurd rfl h.1⟩
    cases h 1 (by decide)
  | cons i l =>
    have hlen : l.length ≤ (i.write (moreListed l)).length := by
      have hmore := length_le_moreListed l
      rw [Listed.write, TagEntity.quoted]
      simp only [List.length_append, List.length_cons]
      omega
    have hparse : ∀ fuel, (i.write (moreListed l)).length < fuel →
        (IfMatch.parse fuel [] (listedText (i :: l)) = some (.sOk, (i :: l).map fun i => i.entity) ↔
          record [] (i :: l) = some ((i :: l).map fun i => i.entity)) := by
      intro fuel hfuel
      obtain ⟨r, hrun, hr⟩ := run_listed l i [] false fuel hfuel (by omega)
      rw [IfMatch.parse, listedText, hrun]
      cases hrecord : record [] (i :: l) with
      | none =>
        rw [hrecord] at hr
        simp only [Option.join_some, Option.map_some, hr, if_true, reduceCtorEq, iff_false]
        intro heq
        have hcode := congrArg (fun x => x.map Prod.fst) heq
        simp only [Option.map_some, Option.some.injEq] at hcode
        rw [hcode] at hr
        cases hr
      | some es' =>
        rw [hrecord] at hr
        simp only at hr
        rw [hr]
        simp [HResult.failed, HResult.succeeded]
    have hrecord := @record_eq_some_iff [] ((i :: l).map fun i => i.entity) nofun (i :: l)
    rw [List.nil_append] at hrecord
    constructor
    · intro h
      have hsome := (hparse _ (Nat.lt_succ_self _)).mp (h _ (Nat.lt_succ_self _))
      obtain ⟨-, hne, hpair, -⟩ := hrecord.mp hsome
      exact ⟨List.cons_ne_nil i l, hne, hpair⟩
    · rintro ⟨-, hne, hpair⟩ fuel hfuel
      exact (hparse fuel hfuel).mpr (hrecord.mpr ⟨rfl, hne, hpair, nofun⟩)

/-! ### Tags without quotes -/

/-- **A header with these entities is read back** from what `Build` writes. -/
def IfMatchRoundTrip (l : List TagEntity) : Prop :=
  ∀ fuel, (IfMatch.build (l.map TagEntity.entity)).length < fuel →
    IfMatch.parse fuel [] (IfMatch.build (l.map TagEntity.entity)) = some (.sOk, l.map TagEntity.entity)

/-- **A tag is read back** from what `Build` writes. -/
def ETagRoundTrip (e : TagEntity) : Prop :=
  ∀ fuel, (ETag.build e.entity).length < fuel →
    ETag.parse fuel ⟨[], false⟩ (ETag.build e.entity) = some (.sOk, e.entity)

/-- The tag is not empty and has no blanks. -/
def TagText.IsWord (t : TagText) : Prop := t.text ≠ [] ∧ ∀ ch ∈ t.text, isBlank ch = false

/-- The text begins with what makes an entity weak. -/
def LooksWeak (szTagA : List Byte) : Prop := ascii "W/" <+: szTagA

theorem getWeak_weak (u : List Byte) : getWeak (ascii "W/" ++ u) = (true, u) := rfl

theorem getWeak_strong {sA : List Byte} (h : ¬ LooksWeak sA) : getWeak sA = (false, sA) := by
  unfold getWeak
  split
  · rename_i u
    exact absurd ⟨u, rfl⟩ h
  · rfl

/-- What is left of a text that does not look weak is the text. -/
theorem getWeak_cases (sA : List Byte) :
    (∃ u, sA = ascii "W/" ++ u ∧ getWeak sA = (true, u)) ∨
      (¬ LooksWeak sA ∧ getWeak sA = (false, sA)) := by
  by_cases h : LooksWeak sA
  · obtain ⟨u, rfl⟩ := h
    exact .inl ⟨u, rfl, getWeak_weak u⟩
  · exact .inr ⟨h, getWeak_strong h⟩

theorem write_entity (e : TagEntity) :
    e.entity.write = (if e.bIsWeak then ascii "W/" else []) ++ e.tag.text := by
  have hplain : e.tag.text.flatMap quoteA = e.tag.text := by
    have hall := fun ch hch => isQuotedText_ne (e.tag.facts ch hch).2
    generalize e.tag.text = text at hall
    induction text with
    | nil => rfl
    | cons ch text ih =>
      obtain ⟨hq, hb⟩ := hall ch List.mem_cons_self
      have hch : isPlainA ch = true := by
        rw [isPlainA, bne_iff_ne.mpr hq, bne_iff_ne.mpr hb]
        rfl
      rw [List.flatMap_cons, quoteA, if_pos hch, ih fun c hc => hall c (List.mem_cons_of_mem ch hc)]
      rfl
  rw [Entity.write, buildQuotedStringA_eq]
  exact congrArg (_ ++ ·) hplain

theorem skipUntil_szBlanks (sA : List Byte) :
    skipUntil szBlanks sA = sA.dropWhile fun ch => !isBlank ch := by
  rw [skipUntil]
  simp only [contains_szBlanks]

theorem take_dropWhile (p : Byte → Bool) (sA : List Byte) :
    sA.take (sA.length - (sA.dropWhile p).length) = sA.takeWhile p := by
  have hsplit := List.takeWhile_append_dropWhile (p := p) (l := sA)
  have hlen := congrArg List.length hsplit
  rw [List.length_append] at hlen
  have htake : (sA.takeWhile p ++ sA.dropWhile p).take (sA.takeWhile p).length = sA.takeWhile p :=
    List.take_left' rfl
  rwa [hsplit, show (sA.takeWhile p).length = sA.length - (sA.dropWhile p).length by omega] at htake

/-- What is read of an entity without quotes: what is up to the next blank. -/
theorem getEntity_bare {fuel : Nat} {sA u : List Byte} {bIsWeak : Bool}
    (hweak : getWeak sA = (bIsWeak, u)) (hne : u ≠ []) (hquote : chQuote ∉ u) :
    getEntity fuel sA = some (if u.takeWhile (fun ch => !isBlank ch) = [] then ⟨.mxInvalidData, bIsWeak, [], u⟩
      else ⟨.sOk, bIsWeak, u.takeWhile fun ch => !isBlank ch, u.dropWhile fun ch => !isBlank ch⟩) := by
  have hstart : (u != [] && charAt u 0 != chQuote) = true := by
    cases u with
    | nil => exact absurd rfl hne
    | cons ch u =>
      have hch : ch ≠ chQuote := fun heq => hquote (heq ▸ List.mem_cons_self)
      simpa [charAt] using hch
  have hsplit := List.takeWhile_append_dropWhile (p := fun ch => !isBlank ch) (l := u)
  rw [getEntity, hweak]
  simp only [hstart, if_true, skipUntil_szBlanks, take_dropWhile]
  by_cases hnil : u.takeWhile (fun ch => !isBlank ch) = []
  · rw [hnil, List.nil_append] at hsplit
    rw [hsplit, if_pos rfl, if_pos hnil]
  · have hlen : (u.dropWhile fun ch => !isBlank ch).length ≠ u.length := by
      intro heq
      have := congrArg List.length hsplit
      rw [List.length_append, heq] at this
      exact hnil (List.length_eq_zero_iff.mp (by omega))
    rw [if_neg hlen, if_neg hnil]

theorem exists_getWeak (sA : List Byte) : ∃ bIsWeak u, getWeak sA = (bIsWeak, u) ∧ u <:+ sA := by
  rcases getWeak_cases sA with ⟨u, hsA, hweak⟩ | ⟨-, hweak⟩
  · exact ⟨true, u, hweak, ⟨ascii "W/", hsA.symm⟩⟩
  · exact ⟨false, sA, hweak, List.suffix_refl sA⟩

/-- Nothing is read where the text ends. -/
theorem getEntity_end {fuel : Nat} {sA : List Byte} {bIsWeak : Bool} (hweak : getWeak sA = (bIsWeak, [])) :
    getEntity fuel sA = some ⟨.eInvalidArg, bIsWeak, [], []⟩ := by
  rw [getEntity, hweak]
  rfl

/-- A word is read as a whole. -/
theorem getEntity_word {fuel : Nat} {sA u : List Byte} {bIsWeak : Bool} (hweak : getWeak sA = (bIsWeak, u))
    (hne : u ≠ []) (hquote : chQuote ∉ u) (hblank : ∀ ch ∈ u, isBlank ch = false) :
    getEntity fuel sA = some ⟨.sOk, bIsWeak, u, []⟩ := by
  have hall : ∀ ch ∈ u, (!isBlank ch) = true := by
    intro ch hch
    rw [hblank ch hch]
    rfl
  rw [getEntity_bare hweak hne hquote, List.takeWhile_eq_self_iff.mpr hall,
    List.dropWhile_eq_nil_iff.mpr hall, if_neg hne]

/-- What is read without quotes has no blanks, and leaves the rest of the text. -/
theorem getEntity_noQuote {fuel : Nat} {sA : List Byte} (hquote : chQuote ∉ sA) :
    ∃ r, getEntity fuel sA = some r ∧
      (r.hRes.failed = false → r.cStrTempA ≠ [] ∧ (∀ ch ∈ r.cStrTempA, isBlank ch = false) ∧
        r.sA <:+ sA) := by
  obtain ⟨bIsWeak, u, hweak, hsuffix⟩ := exists_getWeak sA
  by_cases hne : u = []
  · subst hne
    exact ⟨_, getEntity_end hweak, nofun⟩
  · refine ⟨_, getEntity_bare hweak hne fun hmem => hquote (hsuffix.subset hmem), ?_⟩
    split
    · exact nofun
    · rename_i hword
      refine fun _ => ⟨hword, ?_, (List.dropWhile_suffix _).trans hsuffix⟩
      intro ch hch
      have hnot := List.mem_takeWhile_imp hch
      exact Bool.not_eq_true' _ ▸ hnot

theorem eq_of_setTag {szTagA cStrTagA : List Byte} (h : setTag szTagA = .ok cStrTagA) :
    szTagA = cStrTagA := by
  rw [setTag] at h
  split at h
  · cases h
  · split at h
    · exact Except.ok.inj h
    · cases h

theorem eq_of_addEntity {es : List Entity} {szTagA : List Byte} {e : Entity}
    (h : addEntity es szTagA = .ok e) : e = ⟨szTagA, false⟩ := by
  rw [addEntity] at h
  split at h
  · cases h
  split at h
  · cases h
  obtain ⟨cStrTagA, hset, rfl⟩ := exists_of_map_ok h
  rw [eq_of_setTag hset]

/-- A list that is read was left without an error, with an item. -/
theorem run_of_parse {fuel : Nat} {sA : List Byte} {es : List Entity}
    (h : IfMatch.parse fuel [] sA = some (.sOk, es)) :
    ∃ r, Loop.run (entitiesTurn fuel) fuel ⟨[], false, sA⟩ = some (some r) ∧ r.hRes.failed = false ∧
      r.bGotItem = true ∧ r.aItems = es := by
  rw [IfMatch.parse, Option.map_eq_some_iff] at h
  obtain ⟨r, hjoin, hr⟩ := h
  refine ⟨r, Option.join_eq_some_iff.mp hjoin, ?_⟩
  split at hr
  · rename_i hfailed
    rw [(Prod.mk.inj hr).1] at hfailed
    cases hfailed
  · rename_i hok
    split at hr
    · cases (Prod.mk.inj hr).1
    · rename_i hgot
      exact ⟨by simpa using hok, by simpa using hgot, (Prod.mk.inj hr).2⟩

theorem suffix_of_itemsSeparator {es : List Entity} {bGotItem : Bool} {sA : List Byte} :
    (∀ t, itemsSeparator es bGotItem sA = .inl t → t.aItems = es ∧ t.sA <:+ sA) ∧
      ∀ r, itemsSeparator es bGotItem sA = .inr (some r) → r.aItems = es := by
  cases sA with
  | nil =>
    refine ⟨(by rintro t ⟨⟩), fun r hr => ?_⟩
    cases hr
    rfl
  | cons ch rest =>
    rw [itemsSeparator]
    split
    · split
      · refine ⟨(by rintro t ⟨⟩), fun r hr => ?_⟩
        cases hr
        rfl
      · refine ⟨fun t ht => ?_, (by rintro r ⟨⟩)⟩
        cases ht
        exact ⟨rfl, List.suffix_cons ch rest⟩
    · refine ⟨(by rintro t ⟨⟩), fun r hr => ?_⟩
      cases hr
      rfl

/-- No tag has blanks. -/
def NoBlanks (es : List Entity) : Prop := ∀ e ∈ es, ∀ ch ∈ e.cStrTagA, isBlank ch = false

theorem noBlanks_nil : NoBlanks [] := by
  intro e he
  cases he

/-- A turn leaves the list as it is, or adds a tag without blanks. -/
theorem noBlanks_turn {fuel : Nat} {s : ItemsScan Entity} (hquote : chQuote ∉ s.sA) (hes : NoBlanks s.aItems) :
    (∀ t, entitiesTurn fuel s = .inl t → chQuote ∉ t.sA ∧ NoBlanks t.aItems) ∧
      ∀ r, entitiesTurn fuel s = .inr (some r) → NoBlanks r.aItems := by
  have hsuffix : skipSpaces s.sA <:+ s.sA := List.dropWhile_suffix _
  have hseparator : ∀ es bGotItem rest, NoBlanks es → rest <:+ s.sA →
      (∀ t, itemsSeparator es bGotItem rest = .inl t → chQuote ∉ t.sA ∧ NoBlanks t.aItems) ∧
        ∀ r, itemsSeparator es bGotItem rest = .inr (some r) → NoBlanks r.aItems := by
    intro es bGotItem rest hes hrest
    obtain ⟨hinl, hinr⟩ := @suffix_of_itemsSeparator es bGotItem rest
    refine ⟨fun t ht => ?_, fun r hr => ?_⟩
    · obtain ⟨hitems, hsA⟩ := hinl t ht
      exact ⟨fun hmem => hquote ((hsA.trans hrest).subset hmem), hitems ▸ hes⟩
    · exact hinr r hr ▸ hes
  have hleave : ∀ hRes bGotItem,
      (∀ t, (.inr (some ⟨hRes, s.aItems, bGotItem⟩) :
        ItemsScan Entity ⊕ Option (ItemsResult Entity)) = .inl t → chQuote ∉ t.sA ∧ NoBlanks t.aItems) ∧
      ∀ r, (.inr (some ⟨hRes, s.aItems, bGotItem⟩) :
        ItemsScan Entity ⊕ Option (ItemsResult Entity)) = .inr (some r) → NoBlanks r.aItems := by
    refine fun hRes bGotItem => ⟨nofun, fun r hr => ?_⟩
    cases hr
    exact hes
  obtain ⟨r, hentity, hread⟩ :=
    @getEntity_noQuote fuel _ fun hmem => hquote (hsuffix.subset hmem)
  rw [entitiesTurn]
  simp only [hentity]
  split
  · exact hleave _ _
  split
  · exact hseparator _ _ _ hes hsuffix
  split
  · exact hleave _ _
  · rename_i hok
    obtain ⟨-, hword, hrest⟩ := hread (by simpa using hok)
    split
    · exact hleave _ _
    · rename_i lpEntity hadd
      obtain rfl := eq_of_addEntity hadd
      refine hseparator _ _ _ ?_ (((List.dropWhile_suffix _).trans hrest).trans hsuffix)
      intro e he
      rcases List.mem_append.mp he with he | he
      · exact hes e he
      · rw [List.mem_singleton.mp he]
        exact hword

/-- **Without quotes no tag has blanks**: what the loop records. -/
theorem noBlanks_of_parse {fuel : Nat} {sA : List Byte} (hquote : chQuote ∉ sA) {es : List Entity}
    (h : IfMatch.parse fuel [] sA = some (.sOk, es)) : NoBlanks es := by
  obtain ⟨r, hrun, -, -, rfl⟩ := run_of_parse h
  refine Loop.run_induct (fun s : ItemsScan Entity => chQuote ∉ s.sA ∧ NoBlanks s.aItems)
    (fun x => ∀ r, x = some r → NoBlanks r.aItems) ?_ ?_ ⟨hquote, noBlanks_nil⟩ hrun r rfl
  · intro s t hs hturn
    exact (noBlanks_turn hs.1 hs.2).1 t hturn
  · rintro s x hs hturn r rfl
    exact (noBlanks_turn hs.1 hs.2).2 r hturn

/-- The loop at a text without quotes and blanks, before any entity. -/
structure AtWord (word : List Byte) (s : ItemsScan Entity) : Prop where
  none : s.aItems = []
  notYet : s.bGotItem = false
  noQuote : chQuote ∉ s.sA
  noBlank : ∀ ch ∈ s.sA, isBlank ch = false
  word_eq : s.sA.dropWhile (· == chComma) = word

/-- The result has the entity that is behind the commas. -/
def TakesWord (word : List Byte) (r : ItemsResult Entity) : Prop :=
  r.hRes.failed = false → r.bGotItem = true →
    ∃ e, r.aItems = [e] ∧ e.cStrTagA ≠ [] ∧ getWeak word = (e.bIsWeak, e.cStrTagA)

theorem AtWord.turn {fuel : Nat} {word : List Byte} {s : ItemsScan Entity} (h : AtWord word s) :
    (∀ t, entitiesTurn fuel s = .inl t → AtWord word t) ∧
      ∀ r, entitiesTurn fuel s = .inr (some r) → TakesWord word r := by
  obtain ⟨aItems, bGotItem, sA⟩ := s
  obtain ⟨rfl, rfl, hquote, hblank, hword⟩ := h
  cases sA with
  | nil =>
    refine ⟨(by rintro t ⟨⟩), fun r hr => ?_⟩
    cases hr
    rintro - ⟨⟩
  | cons ch rest =>
    have hspaces : skipSpaces (ch :: rest) = ch :: rest := skipSpaces_cons (hblank ch List.mem_cons_self) rest
    rw [entitiesTurn]
    simp only [hspaces, if_neg (List.cons_ne_nil ch rest)]
    by_cases hcomma : ch = chComma
    · subst hcomma
      rw [if_pos (by rfl), itemsSeparator, if_pos (beq_self_eq_true chComma)]
      split
      · refine ⟨(by rintro t ⟨⟩), fun r hr => ?_⟩
        cases hr
        rintro - ⟨⟩
      · refine ⟨fun t ht => ?_, (by rintro r ⟨⟩)⟩
        cases ht
        exact ⟨rfl, rfl, fun hmem => hquote (List.mem_cons_of_mem _ hmem),
          fun c hc => hblank c (List.mem_cons_of_mem _ hc), hword⟩
    · have hne : ¬ (charAt (ch :: rest) 0 == chComma) = true := by simpa [charAt] using hcomma
      have hdrop : (ch :: rest).dropWhile (· == chComma) = ch :: rest := by
        rw [List.dropWhile_cons, if_neg (by simpa using hcomma)]
      rw [hdrop] at hword
      subst hword
      rw [if_neg hne]
      obtain ⟨bIsWeak, u, hweak, hsuffix⟩ := exists_getWeak (ch :: rest)
      by_cases hu : u = []
      · subst hu
        rw [getEntity_end hweak]
        refine ⟨(by rintro t ⟨⟩), fun r hr => ?_⟩
        cases hr
        rintro ⟨⟩
      · rw [getEntity_word hweak hu (fun hmem => hquote (hsuffix.subset hmem))
          fun c hc => hblank c (hsuffix.subset hc)]
        simp only [HResult.failed_sOk, Bool.false_eq_true, if_false]
        split
        · rename_i hRes hadd
          refine ⟨(by rintro t ⟨⟩), fun r hr => ?_⟩
          cases hr
          intro hok
          rw [failed_addEntity hadd] at hok
          cases hok
        · rename_i lpEntity hadd
          obtain rfl := eq_of_addEntity hadd
          refine ⟨(by rintro t ⟨⟩), fun r hr => ?_⟩
          cases hr
          exact fun _ _ => ⟨_, rfl, hu, hweak⟩

/-- **A text without quotes and blanks is one entity at most**, behind any commas. -/
theorem single_of_parse {fuel : Nat} {sA : List Byte} (hquote : chQuote ∉ sA)
    (hblank : ∀ ch ∈ sA, isBlank ch = false) {es : List Entity}
    (h : IfMatch.parse fuel [] sA = some (.sOk, es)) :
    ∃ e, es = [e] ∧ e.cStrTagA ≠ [] ∧ getWeak (sA.dropWhile (· == chComma)) = (e.bIsWeak, e.cStrTagA) := by
  obtain ⟨r, hrun, hok, hgot, rfl⟩ := run_of_parse h
  refine Loop.run_induct (AtWord (sA.dropWhile (· == chComma)))
    (fun x => ∀ r, x = some r → TakesWord _ r) ?_ ?_ ⟨rfl, rfl, hquote, hblank, rfl⟩ hrun r rfl hok hgot
  · intro s t hs hturn
    exact hs.turn.1 t hturn
  · rintro s x hs hturn r rfl
    exact hs.turn.2 r hturn

/-! ### What `Build` writes -/

/-- An entity without quotes is read as it is. -/
def TagEntity.IsPlain (e : TagEntity) : Prop :=
  e.tag.IsWord ∧ (e.bIsWeak = true ∨ ¬ LooksWeak e.tag.text)

theorem TagText.noQuote (t : TagText) : chQuote ∉ t.text :=
  fun hmem => (isQuotedText_ne (t.facts _ hmem).2).1 rfl

theorem noQuote_write (e : TagEntity) : chQuote ∉ e.entity.write := by
  rw [write_entity]
  intro hmem
  rcases List.mem_append.mp hmem with hmem | hmem
  · revert hmem
    cases e.bIsWeak <;> decide
  · exact e.tag.noQuote hmem

/-- What is behind the mark of a weak entity. -/
theorem getWeak_write {e : TagEntity} :
    getWeak e.entity.write = (e.bIsWeak, e.tag.text) ↔ e.bIsWeak = true ∨ ¬ LooksWeak e.tag.text := by
  rw [write_entity]
  cases e.bIsWeak with
  | true => exact ⟨fun _ => .inl rfl, fun _ => getWeak_weak _⟩
  | false =>
    rw [if_neg Bool.false_ne_true, List.nil_append]
    constructor
    · intro hweak
      refine .inr fun hlooks => ?_
      obtain ⟨u, hu⟩ := hlooks
      rw [← hu, getWeak_weak] at hweak
      cases hweak
    · rintro (htrue | hstrong)
      · cases htrue
      · exact getWeak_strong hstrong

theorem noBlank_write {e : TagEntity} (h : ∀ ch ∈ e.tag.text, isBlank ch = false) :
    ∀ ch ∈ e.entity.write, isBlank ch = false := by
  have hmark : ∀ b : Bool, ((if b then ascii "W/" else []).all fun ch => !isBlank ch) = true := by
    decide
  rw [write_entity]
  intro ch hmem
  rcases List.mem_append.mp hmem with hmem | hmem
  · have hch := List.all_eq_true.mp (hmark e.bIsWeak) ch hmem
    rwa [Bool.not_eq_true'] at hch
  · exact h ch hmem

theorem write_ne_nil_of_tag {e : TagEntity} (h : e.tag.text ≠ []) : e.entity.write ≠ [] := by
  rw [write_entity]
  exact List.append_ne_nil_of_right_ne_nil _ h

/-- What holds of every character of the entities and of a comma holds in the text of the list. -/
theorem forall_mem_build {P : Byte → Prop} {l : List TagEntity} (hcomma : P chComma)
    (hl : ∀ e ∈ l, ∀ ch ∈ e.entity.write, P ch) : ∀ ch ∈ IfMatch.build (l.map TagEntity.entity), P ch := by
  rw [IfMatch.build]
  refine List.foldlRecOn _ _ (motive := fun cStrDestA => ∀ ch ∈ cStrDestA, P ch) ?_ ?_
  · intro ch hch
    cases hch
  · intro cStrDestA ih e he ch hch
    obtain ⟨e', he', rfl⟩ := List.mem_map.mp he
    rcases List.mem_append.mp hch with hch | hch
    · split at hch
      · exact ih ch hch
      · rcases List.mem_append.mp hch with hch | hch
        · exact ih ch hch
        · rw [List.mem_singleton.mp hch]
          exact hcomma
    · exact hl e' he' ch hch

theorem skipSpaces_noBlank {sA : List Byte} (h : ∀ ch ∈ sA, isBlank ch = false) : skipSpaces sA = sA := by
  cases sA with
  | nil => rfl
  | cons ch rest => exact skipSpaces_cons (h ch List.mem_cons_self) rest

/-- **A list is read back from what `Build` writes** if and only if it has one tag, which is plain
and does not begin with a comma, unless it is weak. -/
theorem ifMatchRoundTrip_iff (l : List TagEntity) :
    IfMatchRoundTrip l ↔
      ∃ e, l = [e] ∧ e.IsPlain ∧ (e.bIsWeak = true ∨ e.tag.text.head? ≠ some chComma) := by
  have hquote : chQuote ∉ IfMatch.build (l.map TagEntity.entity) := fun hmem =>
    forall_mem_build (P := (· ≠ chQuote)) (by decide)
      (fun e _ ch hch heq => noQuote_write e (heq ▸ hch)) chQuote hmem rfl
  constructor
  · intro h
    have hparse := h _ (Nat.lt_succ_self _)
    have htags : ∀ e ∈ l, ∀ ch ∈ e.tag.text, isBlank ch = false := by
      intro e he
      exact noBlanks_of_parse hquote hparse e.entity (List.mem_map_of_mem he)
    have hblank := forall_mem_build (P := (isBlank · = false)) (by decide)
      fun e he => noBlank_write (htags e he)
    obtain ⟨e', hmap, hne, hweak⟩ := single_of_parse hquote hblank hparse
    obtain ⟨e, rfl⟩ : ∃ e, l = [e] := by
      have hlen := congrArg List.length hmap
      rw [List.length_map] at hlen
      exact List.length_eq_one_iff.mp hlen
    obtain rfl : e.entity = e' := by simpa using hmap
    refine ⟨e, rfl, ?_⟩
    change getWeak (e.entity.write.dropWhile (· == chComma)) = (e.bIsWeak, e.tag.text) at hweak
    have hword : e.tag.IsWord := ⟨hne, htags e List.mem_cons_self⟩
    cases hflag : e.bIsWeak with
    | true => exact ⟨⟨hword, .inl hflag⟩, .inl rfl⟩
    | false =>
      rw [write_entity, hflag, if_neg Bool.false_ne_true, List.nil_append] at hweak
      rcases getWeak_cases (e.tag.text.dropWhile (· == chComma)) with ⟨u, -, hw⟩ | ⟨hstrong, hw⟩
      · rw [hw] at hweak
        cases hweak
      · rw [hw] at hweak
        have hdrop : e.tag.text.dropWhile (· == chComma) = e.tag.text := (Prod.mk.inj hweak).2
        rw [hdrop] at hstrong
        refine ⟨⟨hword, .inr hstrong⟩, .inr fun hhead => ?_⟩
        have hnot := List.head?_dropWhile_not (· == chComma) e.tag.text
        rw [hdrop, hhead] at hnot
        simp at hnot
  · rintro ⟨e, rfl, ⟨⟨hne, hword⟩, hstrong⟩, hcomma⟩ fuel hfuel
    obtain ⟨n, rfl⟩ := Nat.exists_eq_add_one.mpr (Nat.zero_lt_of_lt hfuel)
    have hblank := noBlank_write hword
    have hnil := write_ne_nil_of_tag hne
    have hfirst : ¬ (charAt e.entity.write 0 == chComma) = true := by
      rw [write_entity]
      cases hflag : e.bIsWeak with
      | true => exact Bool.false_ne_true
      | false =>
        rw [hflag] at hcomma
        have hhead := hcomma.resolve_left Bool.false_ne_true
        rw [if_neg Bool.false_ne_true, List.nil_append]
        rcases htext : e.tag.text with - | ⟨ch, text⟩
        · exact absurd htext hne
        · rw [htext] at hhead
          simpa [charAt] using hhead
    have hadd : addEntity [] e.tag.text = .ok ⟨e.tag.text, false⟩ := by
      rcases @addEntity_eq [] (List.forall_mem_nil _) e.tag hne with ⟨hadd, -⟩ | ⟨-, e', he', -⟩
      · exact hadd
      · cases he'
    have hturn : entitiesTurn (n + 1) ⟨[], false, e.entity.write⟩ =
        .inr (some ⟨.sOk, [e.entity], true⟩) := by
      rw [entitiesTurn]
      simp only [skipSpaces_noBlank hblank, if_neg hnil, if_neg hfirst,
        getEntity_word (getWeak_write.mpr hstrong) hne e.tag.noQuote hword, HResult.failed_sOk, hadd,
        Bool.false_eq_true, if_false]
      rfl
    change IfMatch.parse (n + 1) [] e.entity.write = some (.sOk, [e.entity])
    rw [IfMatch.parse, Loop.run_succ_inr hturn]
    rfl

theorem setTag_text {e : TagEntity} (h : e.tag.text ≠ []) : setTag e.tag.text = .ok e.tag.text := by
  rw [setTag, if_neg h, if_pos (List.all_eq_true.mpr fun ch hch => (e.tag.valid ch hch).1)]

theorem noQuote_eTagBuild (e : TagEntity) : chQuote ∉ ETag.build e.entity := by
  rw [ETag.build]
  split
  · exact List.not_mem_nil
  · exact noQuote_write e

theorem eTagBuild_eq {e : TagEntity} (h : e.tag.text ≠ []) : ETag.build e.entity = e.entity.write := by
  rw [ETag.build, if_neg]
  have hempty := isEmptyStr_of_ne_zero (fun ch hch => (e.tag.facts ch hch).1) h
  intro htrue
  rw [show e.entity.cStrTagA = e.tag.text from rfl, hempty] at htrue
  cases htrue

/-- What is recorded was read as an entity. -/
theorem getEntity_of_parse {fuel : Nat} {e₀ e : Entity} {sA : List Byte}
    (h : ETag.parse fuel e₀ sA = some (.sOk, e)) :
    ∃ r, getEntity fuel (skipSpaces sA) = some r ∧ r.hRes.failed = false ∧
      e = ⟨r.cStrTempA, r.bIsWeak⟩ := by
  rw [ETag.parse, Option.map_eq_some_iff] at h
  obtain ⟨r, hentity, hr⟩ := h
  refine ⟨r, hentity, ?_⟩
  split at hr
  · rename_i hfailed
    rw [(Prod.mk.inj hr).1] at hfailed
    cases hfailed
  · rename_i hok
    split at hr
    · cases (Prod.mk.inj hr).1
    · split at hr
      · rename_i hRes hset
        have hfailed := failed_setTag hset
        rw [(Prod.mk.inj hr).1] at hfailed
        cases hfailed
      · rename_i cStrTagA hset
        rw [eq_of_setTag hset]
        exact ⟨by simpa using hok, (Prod.mk.inj hr).2.symm⟩

/-- **One tag is read back from what `Build` writes** if and only if it is plain. -/
theorem eTagRoundTrip_iff (e : TagEntity) : ETagRoundTrip e ↔ e.IsPlain := by
  constructor
  · intro h
    obtain ⟨r, hentity, hok, hr⟩ := getEntity_of_parse (h _ (Nat.lt_succ_self _))
    obtain ⟨htag, hflag⟩ : e.tag.text = r.cStrTempA ∧ e.bIsWeak = r.bIsWeak := Entity.mk.inj hr
    have hquote : chQuote ∉ skipSpaces (ETag.build e.entity) := fun hmem =>
      noQuote_eTagBuild e ((List.dropWhile_suffix _).subset hmem)
    obtain ⟨r', hentity', hread⟩ := getEntity_noQuote hquote
    obtain rfl := Option.some.inj (hentity.symm.trans hentity')
    obtain ⟨hne, hblank, -⟩ := hread hok
    rw [← htag] at hne hblank
    have hword := noBlank_write hblank
    refine ⟨⟨hne, hblank⟩, getWeak_write.mp ?_⟩
    -- the text is one word, which is read as a whole
    rw [eTagBuild_eq hne, skipSpaces_noBlank hword] at hentity
    obtain ⟨bIsWeak, u, hweak, hsuffix⟩ := exists_getWeak e.entity.write
    by_cases hu : u = []
    · subst hu
      rw [getEntity_end hweak] at hentity
      rw [← Option.some.inj hentity] at hok
      cases hok
    · rw [getEntity_word hweak hu (fun hmem => noQuote_write e (hsuffix.subset hmem))
        fun c hc => hword c (hsuffix.subset hc)] at hentity
      rw [hweak, htag, hflag, ← Option.some.inj hentity]
  · rintro ⟨⟨hne, hword⟩, hstrong⟩ fuel hfuel
    rw [eTagBuild_eq hne, ETag.parse, skipSpaces_noBlank (noBlank_write hword),
      getEntity_word (getWeak_write.mpr hstrong) hne e.tag.noQuote hword, Option.map_some]
    simp only [setTag_text hne]
    rfl

/-- **Entity tags**: lists in quotes are read unless a tag comes again in another case, and what
`Build` writes is read back for one plain tag. -/
theorem entityTags_iff (l : List Listed) (aEntitiesList : List TagEntity) (cEntity : TagEntity) :
    (ParsesAsWritten l ↔ l ≠ [] ∧ (∀ i ∈ l, i.tag.text ≠ []) ∧ l.Pairwise Differ) ∧
    (IfMatchRoundTrip aEntitiesList ↔ ∃ e, aEntitiesList = [e] ∧ e.IsPlain ∧
      (e.bIsWeak = true ∨ e.tag.text.head? ≠ some chComma)) ∧
    (ETagRoundTrip cEntity ↔ cEntity.IsPlain) :=
  ⟨parsesAsWritten_iff l, ifMatchRoundTrip_iff aEntitiesList, eTagRoundTrip_iff cEntity⟩

/-- The tags `a`, `A` and `b`, and one with a blank. -/
def tagA : TagEntity := ⟨⟨ascii "a", List.all_iff_forall_prop.mp (by decide)⟩, false⟩

def tagCapitalA : TagEntity := ⟨⟨ascii "A", List.all_iff_forall_prop.mp (by decide)⟩, true⟩

def tagB : TagEntity := ⟨⟨ascii "b", List.all_iff_forall_prop.mp (by decide)⟩, true⟩

def tagBlank : TagEntity := ⟨⟨ascii "a b", List.all_iff_forall_prop.mp (by decide)⟩, false⟩

/-- **Two tags that differ in a case, two tags, and a tag with a blank**: the first list is refused,
the second is read back as one tag, and the third header is refused. -/
theorem not_entityTags :
    (listedText [⟨tagA, .none, .none⟩, ⟨tagCapitalA, .none, .none⟩] = ascii "\"a\",W/\"A\"" ∧
      IfMatch.parse 20 [] (ascii "\"a\",W/\"A\"") = some (.mxAlreadyExists, [⟨ascii "a", false⟩]) ∧
      ¬ ParsesAsWritten [⟨tagA, .none, .none⟩, ⟨tagCapitalA, .none, .none⟩]) ∧
    (IfMatch.build [tagA.entity, tagB.entity] = ascii "a,W/b" ∧
      IfMatch.parse 20 [] (ascii "a,W/b") = some (.sOk, [⟨ascii "a,W/b", false⟩]) ∧
      ¬ IfMatchRoundTrip [tagA, tagB]) ∧
    ETag.build tagBlank.entity = ascii "a b" ∧
      ETag.parse 20 ⟨[], false⟩ (ascii "a b") = some (.mxInvalidData, ⟨[], false⟩) ∧
      ¬ ETagRoundTrip tagBlank := by
  refine ⟨⟨by decide, by decide, fun h => ?_⟩, ⟨by decide, by decide, fun h => ?_⟩, by decide, by decide,
    fun h => ?_⟩
  · have hparse := h 20 (by decide)
    revert hparse
    decide
  · have hparse := h 20 (by decide)
    revert hparse
    decide
  · have hparse := h 20 (by decide)
    revert hparse
    decide

end MxLib.Http
