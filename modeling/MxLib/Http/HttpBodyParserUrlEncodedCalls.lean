import MxLib.Http.HttpBodyParserUrlEncodedForm

/-!
# The fields that a URL-encoded form adds

The calls of `AddField` that `CHttpBodyParserUrlEncodedForm::Parse` makes, beside the
items of the body between two `&`.  The calls are read off the states of the machine
of `charTurn`; `fields_of_feedCalls` says that they are the ones that fill
`cFieldsList`.

An item without a `=` is added at the `&` behind it, and dropped at the end of the body
(`runCalls_iff`).
-/

namespace MxLib.Http.HttpBodyParserUrlEncodedForm

open MxLib.Library MxLib.Library.Stream

/-- `szNameW` and `szValueW` of a call. -/
abbrev Call := List WChar × List WChar

/-! ### Calls -/

/-- The call in `decodeValue`. -/
def valueCalls (s : UrlEncodedForm) : List Call :=
  match decodeText s.cStrCurrA with
  | .error _ => []
  | .ok cStrTempW => [(s.cStrCurrFieldNameW, cStrTempW)]

/-- The calls in one turn of the loop of `Parse`. -/
def turnCalls (s : UrlEncodedForm) (chA : Byte) : List Call :=
  match s.nState with
  | .name =>
    if chA == ampA then
      match decodeName s with
      | .error _ => []
      | .ok s => valueCalls { s with cStrCurrA := [] }
    else []
  | .value => if chA == ampA then valueCalls s else []
  | .nameStart | .done | .error => []

/-- The calls in the loop, up to the turn that fails. -/
def feedCalls (s : UrlEncodedForm) : List Byte → List Call
  | [] => []
  | chA :: data =>
    turnCalls s chA ++
      match charTurn s chA with
      | .error _ => []
      | .ok s => feedCalls s data

/-- The calls in `Parse(lpData, nDataSize)`. -/
def parseCalls (s : UrlEncodedForm) (lpData : Option (List Byte)) : List Call :=
  if s.nState == .done || s.nState == .error then []
  else
    match lpData with
    | none => if s.nState == .value then valueCalls s else []
    | some data =>
      if s.nCurrContentSize + data.length ≥ 2 ^ 64 ∨
          s.nCurrContentSize + data.length > s.dwMaxFieldSize.toNat then []
      else feedCalls s data

/-- The calls in a run: the pieces of a body, whatever `Parse` returned for those before,
and `Parse(NULL, 0)`. -/
def runCalls (s : UrlEncodedForm) : List (List Byte) → List Call
  | [] => parseCalls s none
  | data :: pieces => parseCalls s (some data) ++ runCalls (parse s (some data)).2 pieces

/-- The fields with those that are added. -/
def addFields (cFieldsList : List CField) (calls : List Call) : Except HResult (List CField) :=
  calls.foldlM (fun cFieldsList call => addField cFieldsList call.1 call.2) cFieldsList

theorem addFields_of_decodeValue {s t : UrlEncodedForm} (h : decodeValue s = .ok t) :
    addFields s.cFieldsList (valueCalls s) = .ok t.cFieldsList := by
  rw [decodeValue] at h
  rw [valueCalls]
  cases hdec : decodeText s.cStrCurrA with
  | error hRes =>
    rw [hdec] at h
    cases h
  | ok cStrTempW =>
    rw [hdec] at h
    dsimp only at h
    cases hadd : addField s.cFieldsList s.cStrCurrFieldNameW cStrTempW with
    | error hRes =>
      rw [hadd] at h
      cases h
    | ok cFieldsList =>
      rw [hadd] at h
      cases h
      simp [addFields, hadd]

/-- A character of a text changes no field. -/
theorem fields_of_text {s t : UrlEncodedForm} {chA : Byte}
    (h : (if !isTextChar chA then fail s .mxInvalidData
      else .ok { s with cStrCurrA := s.cStrCurrA ++ [chA] }) = .ok t) : t.cFieldsList = s.cFieldsList := by
  split at h
  · cases h
  · cases h
    rfl

theorem fields_of_valueChar {s t : UrlEncodedForm} {chA : Byte} (h : valueChar s chA = .ok t) :
    addFields s.cFieldsList (if chA == ampA then valueCalls s else []) = .ok t.cFieldsList := by
  rw [valueChar] at h
  by_cases hamp : (chA == ampA) = true
  · rw [if_pos hamp] at h ⊢
    obtain ⟨u, hu, rfl⟩ := exists_of_map_ok h
    have hadd := addFields_of_decodeValue hu
    exact hadd
  · rw [if_neg hamp] at h ⊢
    rw [fields_of_text h]
    rfl

theorem fields_of_nameChar {s t : UrlEncodedForm} (hs : s.nState = .name) {chA : Byte}
    (h : nameChar s chA = .ok t) :
    addFields s.cFieldsList (turnCalls s chA) = .ok t.cFieldsList := by
  rw [nameChar] at h
  rw [turnCalls, hs]
  dsimp only
  by_cases hsep : (chA == equalA || chA == ampA) = true
  · rw [if_pos hsep] at h
    cases hname : decodeName s with
    | error r =>
      rw [hname] at h
      cases h
    | ok u =>
      have hfields : u.cFieldsList = s.cFieldsList := by
        rw [decodeName] at hname
        split at hname <;> cases hname
        rfl
      rw [hname] at h
      dsimp only at h
      by_cases hamp : (chA == ampA) = true
      · rw [if_pos hamp] at h ⊢
        have hadd := fields_of_valueChar h
        rw [if_pos hamp] at hadd
        rw [← hfields]
        exact hadd
      · rw [if_neg hamp] at h ⊢
        cases h
        rw [← hfields]
        rfl
  · rw [if_neg hsep] at h
    rw [Bool.or_eq_true, not_or] at hsep
    rw [if_neg hsep.2, fields_of_text h]
    rfl

theorem fields_of_turnCalls {s t : UrlEncodedForm} {chA : Byte} (h : charTurn s chA = .ok t) :
    addFields s.cFieldsList (turnCalls s chA) = .ok t.cFieldsList := by
  cases hs : s.nState with
  | nameStart =>
    rw [charTurn, hs] at h
    rw [turnCalls, hs]
    dsimp only at h ⊢
    by_cases hamp : (chA == ampA) = true
    · rw [if_pos hamp] at h
      cases h
      rfl
    · rw [if_neg hamp] at h
      split at h
      · cases h
      · have hadd := fields_of_nameChar rfl h
        rw [turnCalls] at hadd
        dsimp only at hadd
        rwa [if_neg hamp] at hadd
  | name =>
    rw [charTurn, hs] at h
    exact fields_of_nameChar hs h
  | value =>
    rw [charTurn, hs] at h
    rw [turnCalls, hs]
    exact fields_of_valueChar h
  | done =>
    rw [charTurn, hs] at h
    rw [turnCalls, hs]
    cases h
    rfl
  | error =>
    rw [charTurn, hs] at h
    rw [turnCalls, hs]
    cases h
    rfl

/-- **The calls are the ones that fill the list of fields.** -/
theorem fields_of_feedCalls {s t : UrlEncodedForm} {data : List Byte} (h : feed charTurn s data = .ok t) :
    addFields s.cFieldsList (feedCalls s data) = .ok t.cFieldsList := by
  induction data generalizing s with
  | nil =>
    cases h
    rfl
  | cons chA data ih =>
    cases hturn : charTurn s chA with
    | error r =>
      rw [feed_cons_error hturn] at h
      cases h
    | ok u =>
      rw [feed_cons_ok hturn] at h
      rw [feedCalls, hturn, addFields, List.foldlM_append]
      have hu := fields_of_turnCalls hturn
      rw [addFields] at hu
      rw [hu]
      exact ih h

/-! ### The calls for an item -/

/-- The field of an item, if both texts can be decoded. -/
def itemField (seg : List Byte) : Option Call :=
  (decodeText (nameOf seg)).toOption.bind fun szNameW =>
    (decodeText (valueOf seg)).toOption.map fun szValueW => (szNameW, szValueW)

/-- The calls for an item that a `&` ends. -/
def closeCalls (seg : List Byte) : List Call := if seg.isEmpty then [] else (itemField seg).toList

/-- The calls for the last item. -/
def endCalls (seg : List Byte) : List Call := if seg.contains equalA then closeCalls seg else []

/-- The calls for the items of a body, up to one that fails. -/
def formCalls : List (List Byte) → List Call
  | [] => []
  | [seg] => endCalls seg
  | seg :: segs => closeCalls seg ++ if isField seg then formCalls segs else []

theorem closeCalls_cons (chA : Byte) (l : List Byte) :
    closeCalls (chA :: l) = (itemField (chA :: l)).toList := rfl

theorem feedCalls_append (s : UrlEncodedForm) (l m : List Byte) :
    feedCalls s (l ++ m) = feedCalls s l ++ ((readChars s l).map fun t => feedCalls t m).getD [] := by
  induction l generalizing s with
  | nil => rfl
  | cons chA l ih =>
    rw [List.cons_append, feedCalls, feedCalls, readChars_cons]
    cases charTurn s chA with
    | error r => simp [Except.toOption]
    | ok t =>
      dsimp only
      rw [ih, List.append_assoc]
      rfl

theorem turnCalls_of_ne {s : UrlEncodedForm} {chA : Byte} (h : chA ≠ ampA) : turnCalls s chA = [] := by
  have hamp : (chA == ampA) = false := beq_eq_false_iff_ne.mpr h
  rw [turnCalls]
  split <;> simp [hamp]

/-- There are no calls between two `&`. -/
theorem feedCalls_of_not_mem {s : UrlEncodedForm} {l : List Byte} (h : ampA ∉ l) : feedCalls s l = [] := by
  induction l generalizing s with
  | nil => rfl
  | cons chA l ih =>
    rw [List.mem_cons, not_or] at h
    rw [feedCalls, turnCalls_of_ne (Ne.symm h.1), List.nil_append]
    split
    · rfl
    · exact ih h.2

theorem feedCalls_singleton (s : UrlEncodedForm) (chA : Byte) : feedCalls s [chA] = turnCalls s chA := by
  rw [feedCalls]
  split <;> simp [feedCalls]

/-- An item of printable characters that does not start with `=`. -/
def IsItem (seg : List Byte) : Prop :=
  ampA ∉ seg ∧ seg.all isTextChar = true ∧ seg.head? ≠ some equalA

/-- **The calls for an item that a `&` ends.** -/
theorem feedCalls_close {s : UrlEncodedForm} (hs : Fresh s) {seg : List Byte} (hseg : IsItem seg) :
    feedCalls s (seg ++ [ampA]) = closeCalls seg := by
  rw [feedCalls_append, feedCalls_of_not_mem hseg.1, List.nil_append]
  cases seg with
  | nil => simp [feedCalls_singleton, turnCalls, hs.nState, closeCalls]
  | cons chA l =>
    have hamp : chA ≠ ampA := fun h => hseg.1 (by rw [h]; exact List.mem_cons_self)
    have hne : chA ≠ equalA := fun h => hseg.2.2 (by rw [h]; rfl)
    rw [readChars_fresh hs hamp, if_neg hne, readChars_part (s := { s with nState := .name }) rfl
      hs.cStrCurrA hseg.1, if_pos hseg.2.1,
      closeCalls_cons]
    by_cases hmem : equalA ∈ chA :: l
    · rw [if_pos hmem, itemField]
      cases (decodeText (nameOf (chA :: l))).toOption with
      | none => rfl
      | some szNameW =>
        simp only [Option.map_some, Option.getD_some, Option.bind_some, feedCalls_singleton, turnCalls,
          valueCalls, beq_self_eq_true, if_true]
        cases decodeText (valueOf (chA :: l)) <;> rfl
    · rw [if_neg hmem, itemField, nameOf_of_not_mem hmem, valueOf_of_not_mem hmem]
      simp only [Option.map_some, Option.getD_some, feedCalls_singleton, turnCalls, beq_self_eq_true,
        if_true, decodeName]
      cases decodeText (chA :: l) <;> rfl

/-- The calls at the end of a body. -/
def doneCalls (s : UrlEncodedForm) : List Call := if s.nState == .value then valueCalls s else []

/-- **The calls for the last item.** -/
theorem feedCalls_end {s : UrlEncodedForm} (hs : Fresh s) {seg : List Byte} (hseg : IsItem seg) :
    feedCalls s seg ++ ((readChars s seg).map doneCalls).getD [] = endCalls seg := by
  rw [feedCalls_of_not_mem hseg.1, List.nil_append]
  cases seg with
  | nil => simp [doneCalls, hs.nState, endCalls]
  | cons chA l =>
    have hamp : chA ≠ ampA := fun h => hseg.1 (by rw [h]; exact List.mem_cons_self)
    have hne : chA ≠ equalA := fun h => hseg.2.2 (by rw [h]; rfl)
    rw [readChars_fresh hs hamp, if_neg hne, readChars_part (s := { s with nState := .name }) rfl
      hs.cStrCurrA hseg.1, if_pos hseg.2.1,
      endCalls]
    by_cases hmem : equalA ∈ chA :: l
    · rw [if_pos hmem, if_pos (by simpa using hmem), closeCalls_cons, itemField]
      cases (decodeText (nameOf (chA :: l))).toOption with
      | none => rfl
      | some szNameW =>
        simp only [Option.map_some, Option.getD_some, Option.bind_some, doneCalls, valueCalls,
          beq_self_eq_true, if_true]
        cases decodeText (valueOf (chA :: l)) <;> rfl
    · rw [if_neg hmem, if_neg (by simpa using hmem)]
      rfl

/-- **The calls for a whole body.** -/
theorem feedCalls_parts {s : UrlEncodedForm} (hs : Fresh s) {segs : List (List Byte)} (hne : segs ≠ [])
    (hsegs : ∀ seg ∈ segs, IsItem seg) :
    feedCalls s ([ampA].intercalate segs)
        ++ ((readChars s ([ampA].intercalate segs)).map doneCalls).getD [] = formCalls segs := by
  induction segs generalizing s with
  | nil => exact absurd rfl hne
  | cons seg segs ih =>
    cases segs with
    | nil =>
      rw [List.intercalate_singleton]
      exact feedCalls_end hs (hsegs seg List.mem_cons_self)
    | cons seg' segs =>
      have hseg := hsegs seg List.mem_cons_self
      rw [List.intercalate_cons_cons, readChars_append, feedCalls_append,
        feedCalls_close hs hseg, readChars_close hs hseg.1]
      have hsome := isSome_closeField s.cFieldsList seg
      rw [formCalls]
      · cases hclose : closeField s.cFieldsList seg with
        | none =>
          rw [hclose] at hsome
          rw [← hsome]
          simp
        | some cFieldsList =>
          rw [hclose] at hsome
          rw [← hsome]
          have hfresh : Fresh { s with cFieldsList } := ⟨hs.nState, hs.cStrCurrA, hs.cStrCurrFieldNameW⟩
          have hrest := ih hfresh (List.cons_ne_nil _ _) fun x hx => hsegs x (List.mem_cons_of_mem _ hx)
          rw [← hrest]
          simp
      · exact List.cons_ne_nil _ _

/-! ### Runs -/

/-- A step that fails leaves the parser in the state `Error`. -/
def FailsInError : Except (HResult × UrlEncodedForm) UrlEncodedForm → Prop
  | .ok _ => True
  | .error r => r.2.nState = .error

theorem failsInError_decodeName (s : UrlEncodedForm) : FailsInError (decodeName s) := by
  rw [decodeName]
  split
  · rfl
  · trivial

theorem failsInError_valueChar (s : UrlEncodedForm) (chA : Byte) : FailsInError (valueChar s chA) := by
  rw [valueChar]
  split
  · rw [decodeValue]
    split
    · rfl
    · split
      · rfl
      · trivial
  · split
    · rfl
    · trivial

theorem failsInError_nameChar (s : UrlEncodedForm) (chA : Byte) : FailsInError (nameChar s chA) := by
  rw [nameChar]
  split
  · have hname := failsInError_decodeName s
    cases h : decodeName s with
    | error r =>
      rw [h] at hname
      exact hname
    | ok u =>
      dsimp only
      split
      · exact failsInError_valueChar _ _
      · trivial
  · split
    · rfl
    · trivial

theorem failsInError_charTurn (s : UrlEncodedForm) (chA : Byte) : FailsInError (charTurn s chA) := by
  rw [charTurn]
  split
  · split
    · trivial
    · split
      · rfl
      · exact failsInError_nameChar _ _
  · exact failsInError_nameChar _ _
  · exact failsInError_valueChar _ _
  · trivial
  · trivial

theorem nState_of_feed_error {s : UrlEncodedForm} {data : List Byte} {r : HResult × UrlEncodedForm}
    (h : feed charTurn s data = .error r) : r.2.nState = .error := by
  induction data generalizing s with
  | nil => cases h
  | cons chA data ih =>
    have hturn := failsInError_charTurn s chA
    cases hc : charTurn s chA with
    | error r' =>
      rw [feed_cons_error hc] at h
      cases h
      rw [hc] at hturn
      exact hturn
    | ok u =>
      rw [feed_cons_ok hc] at h
      exact ih h

/-- Nothing is added after an error. -/
theorem runCalls_of_error {s : UrlEncodedForm} (hs : s.nState = .error) (pieces : List (List Byte)) :
    runCalls s pieces = [] := by
  have hcalls : ∀ lpData, parseCalls s lpData = [] := fun lpData => by
    unfold parseCalls
    rw [hs]
    rfl
  have hparse : ∀ lpData, (parse s lpData).2 = s := fun lpData => by
    unfold parse
    rw [hs]
    rfl
  induction pieces with
  | nil => exact hcalls none
  | cons data pieces ih => rw [runCalls, hcalls, hparse, ih, List.append_nil]

theorem parseCalls_reading {dw : UInt32} {s : UrlEncodedForm} (hs : Reading dw s) :
    parseCalls s none = doneCalls s ∧
      ∀ data : List Byte, data.length ≤ dw.toNat → parseCalls s (some data) = feedCalls s data := by
  have hstate : (s.nState == .done || s.nState == .error) = false := by
    rw [beq_eq_false_iff_ne.mpr hs.notDone, beq_eq_false_iff_ne.mpr hs.notError]
    rfl
  constructor
  · rw [parseCalls, hstate]
    rfl
  · intro data hlen
    have hdw := dw.toNat_lt
    rw [parseCalls, hstate, if_neg Bool.false_ne_true,
      if_neg (by rw [hs.nCurrContentSize, hs.dwMaxFieldSize]; omega)]

/-- **The cut does not matter** for a body within the limit. -/
theorem runCalls_reading {dw : UInt32} {s : UrlEncodedForm} (hs : Reading dw s)
    {pieces : List (List Byte)} (hlen : pieces.flatten.length ≤ dw.toNat) :
    runCalls s pieces = feedCalls s pieces.flatten
      ++ ((readChars s pieces.flatten).map doneCalls).getD [] := by
  induction pieces generalizing s with
  | nil =>
    rw [runCalls, (parseCalls_reading hs).1]
    rfl
  | cons data pieces ih =>
    rw [List.flatten_cons, List.length_append] at hlen
    have hdata : ¬ data.length > dw.toNat := by omega
    have hcall := parse_reading hs (some data)
    have hgood := good_feed hs data
    dsimp only at hcall
    rw [if_neg hdata] at hcall
    rw [runCalls, (parseCalls_reading hs).2 data (by omega), hcall, List.flatten_cons, feedCalls_append,
      readChars_append]
    cases hfeed : feed charTurn s data with
    | error r =>
      dsimp only
      rw [runCalls_of_error (nState_of_feed_error hfeed), readChars, hfeed]
      simp [Except.toOption]
    | ok t =>
      rw [hfeed] at hgood
      have hread : readChars s data = some t := by rw [readChars, hfeed]; rfl
      dsimp only
      rw [ih hgood (by omega), hread, Option.map_some, Option.getD_some, Option.bind_some,
        List.append_assoc]

/-- The items of a body. -/
def items (segs : List (List Byte)) : List (List Byte) := segs.filter (· ≠ [])

/-- `AddField` takes the name of an item. -/
def nameAccepted (seg : List Byte) : Bool :=
  (itemField seg).all fun call => (parseNameAndIndexes call.1).isOk

theorem isField_eq_true_iff {seg : List Byte} (hseg : IsItem seg) (hne : seg ≠ []) :
    isField seg = true ↔ (itemField seg).isSome = true ∧ nameAccepted seg = true := by
  have hempty : seg.isEmpty = false := by simpa using hne
  have hhead : (seg.head? != some equalA) = true := bne_iff_ne.mpr hseg.2.2
  rw [isField, hempty, hseg.2.1, hhead, nameAccepted, itemField]
  cases decodeText (nameOf seg) with
  | error hRes => simp [Except.toOption]
  | ok szNameW =>
    cases decodeText (valueOf seg) with
    | error hRes => simp [Except.toOption, Except.isOk, Except.toBool]
    | ok szValueW => simp [Except.toOption, Except.isOk, Except.toBool]

/-- **The calls are one for each item**, in order. -/
theorem formCalls_iff {segs : List (List Byte)} (hsegs : ∀ seg ∈ segs, IsItem seg) :
    (formCalls segs).map some = (items segs).map itemField ↔
      (∀ seg ∈ items segs, (itemField seg).isSome = true) ∧
        (∀ seg ∈ segs.getLast?, seg = [] ∨ equalA ∈ seg) ∧ ∀ seg ∈ (items segs).dropLast, nameAccepted seg = true := by
  induction segs with
  | nil => simp [formCalls, items]
  | cons seg segs ih =>
    cases segs with
    | nil =>
      rw [formCalls, endCalls]
      by_cases hne : seg = []
      · simp [hne, items]
      · have hitems : items [seg] = [seg] := by simp [items, hne]
        rw [hitems]
        by_cases hmem : equalA ∈ seg
        · rw [if_pos (by simpa using hmem), closeCalls, if_neg (by simpa using hne)]
          cases hcall : itemField seg <;> simp [hmem, hcall]
        · rw [if_neg (by simpa using hmem)]
          simp [hne, hmem]
    | cons seg' segs =>
      have hrest := ih fun x hx => hsegs x (List.mem_cons_of_mem _ hx)
      have hcalls : formCalls (seg :: seg' :: segs)
          = closeCalls seg ++ if isField seg then formCalls (seg' :: segs) else [] := rfl
      rw [hcalls, List.getLast?_cons_cons]
      by_cases hne : seg = []
      · subst hne
        have hitems : items ([] :: seg' :: segs) = items (seg' :: segs) := rfl
        rw [hitems, ← hrest]
        rfl
      · have hitems : items (seg :: seg' :: segs) = seg :: items (seg' :: segs) := by
          rw [items, List.filter_cons_of_pos (by simpa using hne)]
          rfl
        have hfield := isField_eq_true_iff (hsegs seg List.mem_cons_self) hne
        have hlast : items (seg' :: segs) = [] → ∀ x ∈ (seg' :: segs).getLast?, x = [] ∨ equalA ∈ x := by
          intro hnil x hx
          have hmem := List.mem_of_getLast? hx
          have hempty := List.filter_eq_nil_iff.mp hnil x hmem
          exact .inl (by simpa using hempty)
        rw [hitems, closeCalls, if_neg (by simpa using hne)]
        generalize items (seg' :: segs) = rest at hrest hlast ⊢
        cases hcall : itemField seg with
        | none =>
          rw [hcall] at hfield
          rw [if_neg fun h => by simpa using (hfield.mp h).1]
          simp [hcall]
        | some call =>
          rw [hcall, Option.isSome_some, eq_self_iff_true, true_and] at hfield
          have hcons : (((some call).toList ++ if isField seg then formCalls (seg' :: segs) else []).map some
              = (seg :: rest).map itemField) ↔
                ((if isField seg then formCalls (seg' :: segs) else []).map some = rest.map itemField) := by
            simp [hcall]
          rw [hcons, List.forall_mem_cons, hcall]
          by_cases haccept : nameAccepted seg = true
          · rw [if_pos (hfield.mpr haccept), hrest]
            cases rest with
            | nil => simp
            | cons x rest => simp [List.dropLast_cons_cons, haccept]
          · rw [if_neg (mt hfield.mp haccept)]
            cases rest with
            | nil => simpa using hlast rfl
            | cons x rest => simp [List.dropLast_cons_cons, haccept]

theorem isTextChar_of_printable {chA : Byte} (h : 0x20 ≤ chA ∧ chA ≤ 0x7E) : isTextChar chA = true := by
  revert h
  exact forall_byte (P := fun chA => 0x20 ≤ chA ∧ chA ≤ 0x7E → isTextChar chA = true)
    (by decide) chA

/-- **The fields that a form adds** are those of its items, exactly if every item can be
decoded, the last one is empty or has a `=`, and `AddField` takes the name of every item
that another one follows. -/
theorem runCalls_iff (dwMaxFieldSize : UInt32) {pieces : List (List Byte)}
    (hprint : ∀ chA ∈ pieces.flatten, 0x20 ≤ chA ∧ chA ≤ 0x7E)
    (hlen : pieces.flatten.length ≤ limit dwMaxFieldSize)
    (hequal : ∀ seg ∈ pieces.flatten.splitOn ampA, seg.head? ≠ some equalA) :
    (runCalls (.new dwMaxFieldSize) pieces).map some
        = (items (pieces.flatten.splitOn ampA)).map itemField ↔
      (∀ seg ∈ items (pieces.flatten.splitOn ampA), (itemField seg).isSome = true) ∧
        (∀ seg ∈ (pieces.flatten.splitOn ampA).getLast?, seg = [] ∨ equalA ∈ seg) ∧
        ∀ seg ∈ (items (pieces.flatten.splitOn ampA)).dropLast, nameAccepted seg = true := by
  have hitems : ∀ seg ∈ pieces.flatten.splitOn ampA, IsItem seg := by
    intro seg hseg
    refine ⟨Segments.not_mem_of_mem_splitOn hseg, ?_, hequal seg hseg⟩
    rw [List.all_eq_true]
    intro chA hch
    apply isTextChar_of_printable
    exact hprint chA (Segments.mem_of_mem_splitOn hseg hch)
  have hparts := feedCalls_parts (s := .new dwMaxFieldSize) ⟨rfl, rfl, rfl⟩
    (List.splitOn_ne_nil ampA pieces.flatten) hitems
  rw [List.intercalate_splitOn] at hparts
  rw [runCalls_reading (reading_new dwMaxFieldSize) (by rw [toNat_dwMaxFieldSize]; exact hlen), hparts,
    formCalls_iff hitems]

theorem runCalls_two_items :
    (runCalls (.new 0) [ascii "a%20", ascii "=1&&b&c", ascii "="]).map some
      = (items ((ascii "a%20=1&&b&c=").splitOn ampA)).map itemField := by
  have h := @runCalls_iff 0 [ascii "a%20", ascii "=1&&b&c", ascii "="] (by decide +kernel)
    (by decide +kernel) (by decide +kernel)
  exact h.mpr (by decide +kernel)

/-- A last item without a `=` is dropped. -/
theorem runCalls_last_item :
    ¬ ∀ (dwMaxFieldSize : UInt32) (pieces : List (List Byte)),
      (∀ chA ∈ pieces.flatten, 0x20 ≤ chA ∧ chA ≤ 0x7E) →
      pieces.flatten.length ≤ limit dwMaxFieldSize →
      (∀ seg ∈ pieces.flatten.splitOn ampA, seg.head? ≠ some equalA) →
      (runCalls (.new dwMaxFieldSize) pieces).map some
        = (items (pieces.flatten.splitOn ampA)).map itemField := by
  intro h
  have hcalls := h 0 [ascii "a"] (by decide +kernel) (by decide +kernel) (by decide +kernel)
  cases hcalls

end MxLib.Http.HttpBodyParserUrlEncodedForm
