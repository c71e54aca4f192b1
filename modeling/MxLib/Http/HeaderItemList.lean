import MxLib.Http.BareValues
import Mathlib.Data.List.DropRight

/-!
# Lists of items with parameters

Some headers are a list of items with commas between them, and each item is a name with
parameters of its own.  Their classes are alike but for the names they take and for what
`Parse` does with a parameter: this is an `ItemClass`, and `ItemClass.parse` is `Parse`.

A name that comes again removes the item it stood for before, so what is read of a later
item can change an earlier one.  `run_bareItems` therefore speaks of all values that are
in the list at any time: they are tokens, but for one that is the rest of the text.
-/

namespace MxLib.Http

open MxLib.Library

/-- What the classes of the items differ in. -/
structure ItemClass (ι : Type) where
  /-- A new item with its name. -/
  create : List Byte → Except HResult ι
  getName : ι → List Byte
  addParam : ι → List Byte → List WChar → Except HResult ι
  /-- What `Parse` does with a parameter. -/
  takeParam : ι → ParamResult → Except HResult ι
  /-- What `Build` makes of the text so far for an item. -/
  write : List Byte → ι → List Byte

/-! ### The loops -/

/-- The loop over the parameters of an item between two of them. -/
structure ItemScan (ι : Type) where
  item : ι
  sA : List Byte

/-- How the loop over the parameters is left. -/
structure ItemResult (ι : Type) where
  hRes : HResult
  item : ι
  sA : List Byte

/-- The loop over the items between two of them. -/
structure ItemsScan (ι : Type) where
  aItems : List ι
  bGotItem : Bool
  sA : List Byte

/-- How the loop over the items is left. -/
structure ItemsResult (ι : Type) where
  hRes : HResult
  aItems : List ι
  bGotItem : Bool

section Parse

variable {ι : Type}

/-- What follows a parameter: a separator, or the end of the item. -/
def itemSeparator (item : ι) : List Byte → ItemScan ι ⊕ Option (ItemResult ι)
  | [] => .inr (some ⟨.sOk, item, []⟩)
  | ch :: rest =>
    if ch == chSemicolon then
      if rest = [] || charAt rest 0 == chComma then .inr (some ⟨.sOk, item, rest⟩)
      else .inl ⟨item, rest⟩
    else if ch != chComma then .inr (some ⟨.mxInvalidData, item, ch :: rest⟩)
    else .inr (some ⟨.sOk, item, ch :: rest⟩)

/-- What follows an item: a comma, or the end. -/
def itemsSeparator (aItems : List ι) (bGotItem : Bool) :
    List Byte → ItemsScan ι ⊕ Option (ItemsResult ι)
  | [] => .inr (some ⟨.sOk, aItems, bGotItem⟩)
  | ch :: rest =>
    if ch == chComma then
      if rest = [] then .inr (some ⟨.sOk, aItems, bGotItem⟩) else .inl ⟨aItems, bGotItem, rest⟩
    else .inr (some ⟨.mxInvalidData, aItems, bGotItem⟩)

variable (C : ItemClass ι)

/-- The list without an item of the same name, and the new item: `AddExtension` and
`AddType`. -/
def ItemClass.addItem (aItems : List ι) (szNameA : List Byte) : Except HResult (List ι × ι) :=
  if szNameA = [] then .error .mxInvalidData
  else (C.create szNameA).map fun item =>
    (aItems.eraseP fun i => strCompareA (C.getName i) (C.getName item) true, item)

/-- A turn of the loop over the parameters, and its exit; `none` stands for a text in
quotes that is never left. -/
def ItemClass.itemTurn (fuel : Nat) (s : ItemScan ι) : ItemScan ι ⊕ Option (ItemResult ι) :=
  let sA := skipSpaces s.sA
  if sA = [] || charAt sA 0 == chComma then .inr (some ⟨.sOk, s.item, sA⟩)
  else if charAt sA 0 == chSemicolon then itemSeparator s.item sA
  else
    match getParamNameAndValue fuel true sA with
    | none => .inr none
    | some p =>
      if p.hRes.failed && p.hRes != .mxNoData then .inr (some ⟨p.hRes, s.item, p.sA⟩)
      else
        match C.takeParam s.item p with
        | .error hRes => .inr (some ⟨hRes, s.item, p.sA⟩)
        | .ok item => itemSeparator item (skipSpaces p.sA)

/-- The parameters of an item. -/
def ItemClass.itemParams (fuel : Nat) (item : ι) (sA : List Byte) : Option (ItemResult ι) :=
  match sA with
  | [] => some ⟨.sOk, item, []⟩
  | ch :: rest =>
    if ch == chSemicolon then (Loop.run (C.itemTurn fuel) fuel ⟨item, rest⟩).join
    else some ⟨.sOk, item, ch :: rest⟩

/-- A turn of the loop over the items, and its exit. -/
def ItemClass.itemsTurn (fuel : Nat) (s : ItemsScan ι) : ItemsScan ι ⊕ Option (ItemsResult ι) :=
  let szStartA := skipSpaces s.sA
  if szStartA = [] then .inr (some ⟨.sOk, s.aItems, s.bGotItem⟩)
  else
    let szValueA := skipUntil szWordEnds szStartA
    let szNameA := szStartA.take (szStartA.length - szValueA.length)
    if szNameA = [] then itemsSeparator s.aItems s.bGotItem (skipSpaces szValueA)
    else
      match C.addItem s.aItems szNameA with
      | .error hRes => .inr (some ⟨hRes, s.aItems, true⟩)
      | .ok (aItems, item) =>
        match C.itemParams fuel item (skipSpaces szValueA) with
        | none => .inr none
        | some r =>
          if r.hRes.failed then .inr (some ⟨r.hRes, aItems ++ [r.item], true⟩)
          else itemsSeparator (aItems ++ [r.item]) true (skipSpaces r.sA)

/-- `Parse`, with at most `fuel` turns of each loop. -/
def ItemClass.parse (fuel : Nat) (aItems : List ι) (szValueA : List Byte) :
    Option (HResult × List ι) :=
  (Loop.run (C.itemsTurn fuel) fuel ⟨aItems, false, szValueA⟩).join.map fun r =>
    if r.hRes.failed then (r.hRes, r.aItems)
    else if !r.bGotItem then (.mxInvalidData, r.aItems)
    else (.sOk, r.aItems)

/-- `Build` -/
def ItemClass.build (aItems : List ι) : List Byte :=
  aItems.foldl (fun cStrDestA item =>
    C.write (if isEmptyStr cStrDestA then cStrDestA else cStrDestA ++ [chComma]) item) []

/-- An item with its parameters, as the setters make it. -/
def ItemClass.setItem (aItems : List ι) (szNameA : List Byte) (aParams : ParamsList) :
    Except HResult (List ι) := do
  let (aItems, item) ← C.addItem aItems szNameA
  let item ← aParams.foldlM (fun item p => C.addParam item p.1 p.2) item
  pure (aItems ++ [item])

/-- A header as the setters make it. -/
def ItemClass.set (l : List (List Byte × ParamsList)) : Except HResult (List ι) :=
  l.foldlM (fun aItems i => C.setItem aItems i.1 i.2) []

/-- What `Build` writes for a header that the setters made is read back. -/
def ItemClass.RoundTrip (l : List (List Byte × ParamsList)) : Prop :=
  ∃ aItems, C.set l = .ok aItems ∧
    ∃ n, ∀ fuel ≥ n, C.parse fuel [] (C.build aItems) = some (.sOk, aItems)

end Parse

/-- A parameter as `Build` writes it. -/
def buildItemParam (p : List Byte × List WChar) : List Byte :=
  ascii ";" ++ szStr p.1 ++ ascii "=" ++ szStr (buildQuotedStringW (szStr p.2) false)

theorem buildItemParam_entry (p : BareParam) : buildItemParam p.entry = chSemicolon :: p.written := by
  have hname : szStr p.entry.1 = p.name.text := szStr_token p.name.isToken
  rw [buildItemParam, hname, buildQuotedStringW_entry, List.append_assoc, List.append_assoc]
  rfl

/-! ### What the classes have in common -/

/-- An item as its name and its parameters: what the operations of a class do to it, and
what `Parse` and `Build` rest on. -/
structure ItemModel (ι : Type) extends ItemClass ι where
  IsName : List Byte → Prop
  IsParam : List Byte → Prop
  item : List Byte → ParamsList → ι
  params : ι → ParamsList
  isWord_of_isName : ∀ {szNameA}, IsName szNameA →
    szNameA ≠ [] ∧ szNameA.all isWordChar = true
  create_name : ∀ {szNameA}, IsName szNameA → create szNameA = .ok (item szNameA [])
  getName_item : ∀ szNameA l, getName (item szNameA l) = szNameA
  params_item : ∀ szNameA l, params (item szNameA l) = l
  addParam_item : ∀ szNameA l n v,
    addParam (item szNameA l) n v = (Http.addParam l n v).map (item szNameA)
  takeParam_item : ∀ szNameA l {n} v sA, IsParam n →
    takeParam (item szNameA l) ⟨.sOk, n, v, sA, false⟩ = (Http.addParam l n v).map (item szNameA)
  write_item : ∀ {szNameA}, IsName szNameA → ∀ cStrDestA (l : List BareParam),
    write cStrDestA (item szNameA (l.map BareParam.entry)) =
      cStrDestA ++ (szNameA ++ l.flatMap fun p => chSemicolon :: p.written)
  failed_create : ∀ {szNameA hRes}, create szNameA = .error hRes → hRes.failed = true
  failed_takeParam : ∀ {i p hRes}, takeParam i p = .error hRes → hRes.failed = true
  params_create : ∀ {szNameA i}, create szNameA = .ok i → params i = []
  params_takeParam : ∀ {i p i'}, takeParam i p = .ok i' →
    params i' = params i ∨ params i' = params i ++ [(szStr p.cStrTokenA, szStr p.cStrValueW)]

/-! ### What is read -/

section Bare

variable {ι : Type} (M : ItemModel ι) {text : List Byte}

/-- The values of an item are tokens. -/
def ItemModel.TokenItem (i : ι) : Prop := ∀ e ∈ M.params i, IsTokenValue e.2

/-- All values of the items are tokens, but for one at the end that is the rest of the
text. -/
def ItemModel.BareItems (text : List Byte) (aItems : List ι) : Prop :=
  (∀ i ∈ aItems, M.TokenItem i) ∨
    ∃ front i, aItems = front ++ [i] ∧ (∀ j ∈ front, M.TokenItem j) ∧ BareList text (M.params i)

/-- What has been read of an item: tokens, or the text is at its end. -/
def ItemModel.BareItem (text : List Byte) (i : ι) (sA : List Byte) : Prop :=
  sA <:+ text ∧ (M.TokenItem i ∨ (sA = [] ∧ BareList text (M.params i)))

/-- The separator behind a parameter keeps what has been read. -/
theorem bareItem_separator {i : ι} {sA : List Byte} (h : M.BareItem text i sA) :
    (∀ t, itemSeparator i sA = .inl t → t.sA <:+ text ∧ M.TokenItem t.item) ∧
      ∀ r, itemSeparator i sA = .inr (some r) → r.hRes.failed = false →
        M.BareItem text r.item r.sA := by
  cases sA with
  | nil =>
    refine ⟨fun t ht => (by cases ht), fun r hr _ => ?_⟩
    cases hr
    exact h
  | cons ch rest =>
    have htoken : M.TokenItem i := h.2.resolve_right fun hend => List.cons_ne_nil _ _ hend.1
    have hrest : rest <:+ text := (List.suffix_cons ch rest).trans h.1
    simp only [itemSeparator]
    by_cases hsemi : (ch == chSemicolon) = true
    · rw [if_pos hsemi]
      split
      · refine ⟨fun t ht => (by cases ht), fun r hr _ => ?_⟩
        cases hr
        exact ⟨hrest, Or.inl htoken⟩
      · refine ⟨fun t ht => ?_, fun r hr _ => (by cases hr)⟩
        cases ht
        exact ⟨hrest, htoken⟩
    · rw [if_neg hsemi]
      split
      · refine ⟨fun t ht => (by cases ht), fun r hr hok => ?_⟩
        cases hr
        cases hok
      · refine ⟨fun t ht => (by cases ht), fun r hr _ => ?_⟩
        cases hr
        exact h

/-- An item with another parameter. -/
theorem bareItem_takeParam (hprint : ∀ ch ∈ text, isPrintable ch = true) {i i' : ι}
    (hi : M.TokenItem i) {p : ParamResult} (hreads : ReadsBare text p) (hsuf : p.sA <:+ text)
    (htake : M.takeParam i p = .ok i') :
    (∃ rest, p.sA = chPercent :: rest) ∨ M.BareItem text i' (skipSpaces p.sA) := by
  by_cases hstop : ∃ rest, p.sA = chPercent :: rest
  · exact Or.inl hstop
  refine Or.inr ⟨(List.dropWhile_suffix _).trans hsuf, ?_⟩
  rcases M.params_takeParam htake with hsame | hadd
  · exact Or.inl (by rw [ItemModel.TokenItem, hsame]; exact hi)
  · rcases bareList_concat hprint hi hreads (not_exists.mp hstop) (szStr p.cStrTokenA) with
      hall | ⟨hend, hbare⟩
    · exact Or.inl (by rw [ItemModel.TokenItem, hadd]; exact hall)
    · exact Or.inr ⟨by rw [hend]; rfl, by rw [hadd]; exact hbare⟩

/-- **A turn of the loop over the parameters** keeps what has been read. -/
theorem bareItem_itemTurn (hsafe : QuoteSafe text) (hprint : ∀ ch ∈ text, isPrintable ch = true)
    (fuel : Nat) {s : ItemScan ι} (hsuf : s.sA <:+ text) (hi : M.TokenItem s.item) :
    (∀ t, M.itemTurn fuel s = .inl t → t.sA <:+ text ∧ M.TokenItem t.item) ∧
      ∀ r, M.itemTurn fuel s = .inr (some r) → r.hRes.failed = false →
        M.BareItem text r.item r.sA := by
  have hsuf' : skipSpaces s.sA <:+ text := (List.dropWhile_suffix _).trans hsuf
  have hself : M.BareItem text s.item (skipSpaces s.sA) := ⟨hsuf', Or.inl hi⟩
  simp only [ItemClass.itemTurn]
  split
  · refine ⟨fun t ht => (by cases ht), fun r hr _ => ?_⟩
    cases hr
    exact hself
  · split
    · exact bareItem_separator M hself
    · cases hget : getParamNameAndValue fuel true (skipSpaces s.sA) with
      | none => exact ⟨fun t ht => (by cases ht), fun r hr _ => (by cases hr)⟩
      | some p =>
        obtain ⟨hreads, hnext⟩ := readsBare_of_param hsafe hprint hsuf' hget
        simp only
        split
        next hfailed =>
          refine ⟨fun t ht => (by cases ht), fun r hr hok => ?_⟩
          cases hr
          rw [Bool.and_eq_true] at hfailed
          rw [hfailed.1] at hok
          cases hok
        · cases htake : M.takeParam s.item p with
          | error hRes =>
            refine ⟨fun t ht => (by cases ht), fun r hr hok => ?_⟩
            cases hr
            rw [M.failed_takeParam htake] at hok
            cases hok
          | ok item =>
            rcases bareItem_takeParam M hprint hi hreads hnext htake with ⟨rest, hstop⟩ | hbare
            · have hinvalid : itemSeparator item (skipSpaces p.sA) =
                  .inr (some ⟨.mxInvalidData, item, chPercent :: rest⟩) := by
                rw [hstop, skipSpaces_cons (by decide)]
                rfl
              simp only [hinvalid]
              refine ⟨fun t ht => (by cases ht), fun r hr hok => ?_⟩
              cases hr
              cases hok
            · exact bareItem_separator M hbare

/-- **A run of the loop over the parameters**, from a cursor in the text. -/
theorem run_bareItem (hsafe : QuoteSafe text) (hprint : ∀ ch ∈ text, isPrintable ch = true)
    {fuel : Nat} (n : Nat) : ∀ {s : ItemScan ι} {r : ItemResult ι}, s.sA <:+ text →
      M.TokenItem s.item → Loop.run (M.itemTurn fuel) n s = some (some r) →
      r.hRes.failed = false → M.BareItem text r.item r.sA := by
  induction n with
  | zero => intro s r _ _ h _; cases h
  | succ n ih =>
    intro s r hsuf hi h hok
    obtain ⟨hgo, hend⟩ := bareItem_itemTurn M hsafe hprint fuel hsuf hi
    cases hturn : M.itemTurn fuel s with
    | inl t =>
      rw [Loop.run_succ_inl hturn] at h
      obtain ⟨hsuf', hi'⟩ := hgo t hturn
      exact ih hsuf' hi' h hok
    | inr q =>
      rw [Loop.run_succ_inr hturn] at h
      cases h
      exact hend r hturn hok

theorem bareItem_itemParams (hsafe : QuoteSafe text) (hprint : ∀ ch ∈ text, isPrintable ch = true)
    {fuel : Nat} {i : ι} {sA : List Byte} {r : ItemResult ι} (hsuf : sA <:+ text)
    (hi : M.TokenItem i) (h : M.itemParams fuel i sA = some r) (hok : r.hRes.failed = false) :
    M.BareItem text r.item r.sA := by
  cases sA with
  | nil =>
    cases h
    exact ⟨hsuf, Or.inl hi⟩
  | cons ch rest =>
    simp only [ItemClass.itemParams] at h
    split at h
    · exact run_bareItem M hsafe hprint fuel ((List.suffix_cons ch rest).trans hsuf) hi
        (Option.join_eq_some_iff.mp h) hok
    · cases h
      exact ⟨hsuf, Or.inl hi⟩

theorem tokenItem_of_mem_addItem {aItems aItems' : List ι} {szNameA : List Byte} {i : ι}
    (hall : ∀ j ∈ aItems, M.TokenItem j) (h : M.addItem aItems szNameA = .ok (aItems', i)) :
    (∀ j ∈ aItems', M.TokenItem j) ∧ M.TokenItem i := by
  simp only [ItemClass.addItem] at h
  split at h
  · cases h
  · obtain ⟨item, hcreate, hpair⟩ := exists_of_map_ok h
    cases hpair
    refine ⟨fun j hj => hall j (List.eraseP_subset hj), fun e he => ?_⟩
    rw [M.params_create hcreate] at he
    exact absurd he List.not_mem_nil

theorem failed_addItem {aItems : List ι} {szNameA : List Byte} {hRes : HResult}
    (h : M.addItem aItems szNameA = .error hRes) : hRes.failed = true := by
  rw [ItemClass.addItem] at h
  split at h
  · cases h
    rfl
  · cases hcreate : M.create szNameA with
    | error hRes' =>
      rw [hcreate] at h
      cases h
      exact M.failed_create hcreate
    | ok i =>
      rw [hcreate] at h
      cases h

/-- The separator behind an item leaves the list as it is. -/
theorem itemsSeparator_cases (aItems : List ι) (bGotItem : Bool) (sA : List Byte) :
    (∀ t, itemsSeparator aItems bGotItem sA = .inl t → t.aItems = aItems ∧ ∃ ch, sA = ch :: t.sA) ∧
      ∀ r, itemsSeparator aItems bGotItem sA = .inr (some r) → r.hRes.failed = false →
        r.aItems = aItems := by
  cases sA with
  | nil =>
    refine ⟨fun t ht => (by cases ht), fun r hr _ => ?_⟩
    cases hr
    rfl
  | cons ch rest =>
    simp only [itemsSeparator]
    split
    · split
      · refine ⟨fun t ht => (by cases ht), fun r hr _ => ?_⟩
        cases hr
        rfl
      · refine ⟨fun t ht => ?_, fun r hr _ => (by cases hr)⟩
        cases ht
        exact ⟨rfl, ch, rfl⟩
    · refine ⟨fun t ht => (by cases ht), fun r hr hok => ?_⟩
      cases hr
      cases hok

/-- **A turn of the loop over the items** keeps what has been read. -/
theorem bareItems_itemsTurn (hsafe : QuoteSafe text)
    (hprint : ∀ ch ∈ text, isPrintable ch = true) (fuel : Nat) {s : ItemsScan ι}
    (hsuf : s.sA <:+ text) (hall : ∀ j ∈ s.aItems, M.TokenItem j) :
    (∀ t, M.itemsTurn fuel s = .inl t → t.sA <:+ text ∧ ∀ j ∈ t.aItems, M.TokenItem j) ∧
      ∀ r, M.itemsTurn fuel s = .inr (some r) → r.hRes.failed = false →
        M.BareItems text r.aItems := by
  have hstart : skipSpaces s.sA <:+ text := (List.dropWhile_suffix _).trans hsuf
  have hvalue : skipSpaces (skipUntil szWordEnds (skipSpaces s.sA)) <:+ text :=
    ((List.dropWhile_suffix _).trans (List.dropWhile_suffix _)).trans hstart
  have hseparator : ∀ {aItems bGotItem sA}, sA <:+ text → (∀ j ∈ aItems, M.TokenItem j) →
      ∀ t, itemsSeparator aItems bGotItem sA = .inl t →
        t.sA <:+ text ∧ ∀ j ∈ t.aItems, M.TokenItem j := by
    intro aItems bGotItem sA hsA hitems t ht
    obtain ⟨hlist, ch, hcons⟩ := (itemsSeparator_cases aItems bGotItem sA).1 t ht
    exact ⟨(List.suffix_cons ch t.sA).trans (hcons ▸ hsA), hlist ▸ hitems⟩
  simp only [ItemClass.itemsTurn]
  split
  · refine ⟨fun t ht => (by cases ht), fun r hr _ => ?_⟩
    cases hr
    exact Or.inl hall
  split
  · refine ⟨hseparator hvalue hall, fun r hr hok => ?_⟩
    rw [(itemsSeparator_cases _ _ _).2 r hr hok]
    exact Or.inl hall
  · cases hadd : M.addItem s.aItems ((skipSpaces s.sA).take ((skipSpaces s.sA).length -
        (skipUntil szWordEnds (skipSpaces s.sA)).length)) with
    | error hRes =>
      refine ⟨fun t ht => (by cases ht), fun r hr hok => ?_⟩
      cases hr
      rw [failed_addItem M hadd] at hok
      cases hok
    | ok pair =>
      obtain ⟨aItems, i⟩ := pair
      obtain ⟨hfront, hi⟩ := tokenItem_of_mem_addItem M hall hadd
      cases hparams : M.itemParams fuel i
          (skipSpaces (skipUntil szWordEnds (skipSpaces s.sA))) with
      | none =>
        simp only [hparams]
        exact ⟨fun t ht => (by cases ht), fun r hr _ => (by cases hr)⟩
      | some r =>
        simp only [hparams]
        split
        next hfailed =>
          refine ⟨fun t ht => (by cases ht), fun r hr hok => ?_⟩
          cases hr
          rw [hfailed] at hok
          cases hok
        next hok =>
          have hbare := bareItem_itemParams M hsafe hprint hvalue hi hparams (by simpa using hok)
          have hsuf' : skipSpaces r.sA <:+ text := (List.dropWhile_suffix _).trans hbare.1
          have hlist : ∀ {i}, M.TokenItem i → ∀ j ∈ aItems ++ [i], M.TokenItem j := by
            intro i hi j hj
            rcases List.mem_append.mp hj with hj | hj
            · exact hfront j hj
            · rwa [List.mem_singleton.mp hj]
          refine ⟨fun t ht => ?_, fun q hq hokq => ?_⟩
          · have hcons := ((itemsSeparator_cases _ _ _).1 t ht).2
            have htoken : M.TokenItem r.item := by
              refine hbare.2.resolve_right fun hend => ?_
              obtain ⟨ch, hch⟩ := hcons
              rw [hend.1] at hch
              cases hch
            exact hseparator hsuf' (hlist htoken) t ht
          · rw [(itemsSeparator_cases _ _ _).2 q hq hokq]
            rcases hbare.2 with htoken | ⟨-, hend⟩
            · exact Or.inl (hlist htoken)
            · exact Or.inr ⟨aItems, r.item, rfl, hfront, hend⟩

/-- **What is read of a whole text**, whatever items it removes again. -/
theorem run_bareItems (hsafe : QuoteSafe text) (hprint : ∀ ch ∈ text, isPrintable ch = true)
    {fuel : Nat} (n : Nat) : ∀ {s : ItemsScan ι} {r : ItemsResult ι}, s.sA <:+ text →
      (∀ j ∈ s.aItems, M.TokenItem j) → Loop.run (M.itemsTurn fuel) n s = some (some r) →
      r.hRes.failed = false → M.BareItems text r.aItems := by
  induction n with
  | zero => intro s r _ _ h _; cases h
  | succ n ih =>
    intro s r hsuf hall h hok
    obtain ⟨hgo, hend⟩ := bareItems_itemsTurn M hsafe hprint fuel hsuf hall
    cases hturn : M.itemsTurn fuel s with
    | inl t =>
      rw [Loop.run_succ_inl hturn] at h
      obtain ⟨hsuf', hall'⟩ := hgo t hturn
      exact ih hsuf' hall' h hok
    | inr q =>
      rw [Loop.run_succ_inr hturn] at h
      cases h
      exact hend r hturn hok

end Bare

/-! ### What is written -/

/-- An item as the setters take it. -/
structure ItemText {ι : Type} (M : ItemModel ι) where
  name : List Byte
  isName : M.IsName name
  params : List BareParam
  isParam : ∀ p ∈ params, M.IsParam p.name.text

section Written

variable {ι : Type} {M : ItemModel ι}

def ItemText.item (i : ItemText M) : ι := M.item i.name (i.params.map BareParam.entry)

/-- The arguments of the setters. -/
def ItemText.entry (i : ItemText M) : List Byte × ParamsList :=
  (i.name, i.params.map BareParam.entry)

def ItemText.word (i : ItemText M) : Word :=
  ⟨i.name, (M.isWord_of_isName i.isName).1, (M.isWord_of_isName i.isName).2⟩

/-- What `Build` writes for an item. -/
def ItemText.written (i : ItemText M) : List Byte :=
  i.name ++ i.params.flatMap fun p => chSemicolon :: p.written

/-- What `Build` writes. -/
def itemsText : List (ItemText M) → List Byte
  | [] => []
  | i :: l => i.written ++ l.flatMap fun i => chComma :: i.written

/-- No two items have the same name. -/
def DistinctNames (l : List (ItemText M)) : Prop :=
  l.Pairwise fun i j => strCompareA i.name j.name true = false

theorem write_item (i : ItemText M) (cStrDestA : List Byte) :
    M.write cStrDestA i.item = cStrDestA ++ i.written :=
  M.write_item i.isName cStrDestA i.params

theorem isEmptyStr_append {a b : List Byte} (h : isEmptyStr a = false) :
    isEmptyStr (a ++ b) = false := by
  cases a with
  | nil => cases h
  | cons ch a => exact h

theorem isEmptyStr_written (i : ItemText M) : isEmptyStr i.written = false :=
  isEmptyStr_append (isEmptyStr_of_ne_zero (fun ch hch => (i.word.facts ch hch).1) i.word.notEmpty)

theorem build_items (l : List (ItemText M)) : M.build (l.map ItemText.item) = itemsText l := by
  have hfold : ∀ (l : List (ItemText M)) (cStrDestA : List Byte), isEmptyStr cStrDestA = false →
      (l.map ItemText.item).foldl (fun cStrDestA item =>
        M.write (if isEmptyStr cStrDestA then cStrDestA else cStrDestA ++ [chComma]) item)
          cStrDestA = cStrDestA ++ l.flatMap fun i => chComma :: i.written := by
    intro l
    induction l with
    | nil =>
      intro cStrDestA _
      simp
    | cons i l ih =>
      intro cStrDestA hdest
      rw [List.map_cons, List.foldl_cons, if_neg (by rw [hdest]; decide), write_item, ih]
      · simp
      · exact isEmptyStr_append (isEmptyStr_append hdest)
  cases l with
  | nil => rfl
  | cons i l =>
    rw [ItemClass.build, List.map_cons, List.foldl_cons, if_pos isEmptyStr_nil, write_item,
      List.nil_append, hfold l _ (isEmptyStr_written i)]
    rfl

/-! ### The setters -/

theorem foldlM_addParam (szNameA : List Byte) (l : List BareParam) : ∀ aParams : ParamsList,
    (l.map BareParam.entry).foldlM (fun item p => M.addParam item p.1 p.2) (M.item szNameA aParams) =
      (.ok (M.item szNameA (aParams ++ l.map BareParam.entry)) : Except HResult ι) := by
  induction l with
  | nil =>
    intro aParams
    rw [List.map_nil, List.append_nil]
    rfl
  | cons p l ih =>
    intro aParams
    have hadd : M.addParam (M.item szNameA aParams) p.entry.1 p.entry.2 =
        .ok (M.item szNameA (aParams ++ [p.entry])) := by
      have htoken := addParam_token aParams (t := p.name.toToken) p.name.notEmpty p.entry.2
      have hvalue : szStr p.entry.2 = p.entry.2 := szStr_map_toUInt16 p.ne_zero
      rw [hvalue] at htoken
      rw [M.addParam_item]
      exact congrArg (Except.map _) htoken
    rw [List.map_cons, List.foldlM_cons, hadd]
    refine (ih _).trans ?_
    rw [List.append_assoc]
    rfl

/-- A new name removes nothing. -/
theorem addItem_name {l : List (ItemText M)} {i : ItemText M}
    (hnew : ∀ j ∈ l, strCompareA j.name i.name true = false) :
    M.addItem (l.map ItemText.item) i.name = .ok (l.map ItemText.item, M.item i.name []) := by
  have hkeep : (l.map ItemText.item).eraseP (fun j =>
      strCompareA (M.getName j) (M.getName (M.item i.name [])) true) = l.map ItemText.item := by
    refine List.eraseP_of_forall_not fun j hj => ?_
    obtain ⟨k, hk, rfl⟩ := List.mem_map.mp hj
    rw [ItemText.item, M.getName_item, M.getName_item, hnew k hk]
    decide
  have hne : i.name ≠ [] := i.word.notEmpty
  rw [ItemClass.addItem, if_neg hne, M.create_name i.isName, Except.map, hkeep]

/-- **The header that the setters make** has the items as they are. -/
theorem set_items {l : List (ItemText M)} (hnames : DistinctNames l) :
    M.set (l.map ItemText.entry) = .ok (l.map ItemText.item) := by
  have hfold : ∀ (l done : List (ItemText M)), DistinctNames (done ++ l) →
      (l.map ItemText.entry).foldlM (fun aItems i => M.setItem aItems i.1 i.2)
          (done.map ItemText.item) =
        (.ok ((done ++ l).map ItemText.item) : Except HResult (List ι)) := by
    intro l
    induction l with
    | nil =>
      intro done _
      rw [List.append_nil]
      rfl
    | cons i l ih =>
      intro done hdone
      have hnew : ∀ j ∈ done, strCompareA j.name i.name true = false :=
        fun j hj => (List.pairwise_append.mp hdone).2.2 j hj i List.mem_cons_self
      have hset : M.setItem (done.map ItemText.item) i.name (i.params.map BareParam.entry) =
          .ok ((done ++ [i]).map ItemText.item) := by
        have hparams := foldlM_addParam (M := M) i.name i.params []
        rw [List.nil_append] at hparams
        rw [ItemClass.setItem, addItem_name hnew, List.map_append]
        refine (congrArg (fun x => x >>= fun item => pure (done.map ItemText.item ++ [item]))
          hparams).trans ?_
        rfl
      rw [List.append_cons] at hdone
      rw [List.map_cons, List.foldlM_cons]
      refine (congrArg (· >>= _) hset).trans ((ih _ hdone).trans ?_)
      rw [← List.append_cons]
  exact hfold l [] hnames

/-! ### Reading what was written -/

theorem paramText_charAt (p : ParamText) (rest : List Byte) (hbefore : p.before = .none) :
    isTokenChar (charAt (p.text rest) 0) = true := by
  obtain ⟨ch, tail, htext⟩ := List.exists_cons_of_ne_nil p.name.notEmpty
  have hch := List.all_eq_true.mp p.name.isToken ch (htext ▸ List.mem_cons_self)
  rw [ParamText.text, hbefore, htext]
  exact hch

/-- A turn with a parameter. -/
theorem itemTurn_text {fuel : Nat} (szNameA : List Byte) (l : ParamsList) (p : ParamText)
    (hparam : M.IsParam p.name.text) (hbefore : p.before = .none) (rest : List Byte)
    (hrest : isTokenChar (charAt rest 0) = false) (hfuel : (p.text rest).length < fuel) :
    M.itemTurn fuel ⟨M.item szNameA l, p.text rest⟩ =
      itemSeparator (M.item szNameA (l ++ [p.entry])) (skipSpaces rest) := by
  have hstart : skipSpaces (p.text rest) = p.text rest := by
    rw [ParamText.text, skipSpaces_blanks, skipSpaces_token p.name.isToken p.name.notEmpty, hbefore]
    rfl
  have htext : p.text rest =
      p.name.text ++ chEquals :: (p.value.text ++ (p.after.text ++ rest)) := by
    rw [ParamText.text, hbefore]
    rfl
  have hne : ∀ ch, isTokenChar ch = false → (charAt (p.text rest) 0 == ch) = false := by
    intro ch hch
    rw [beq_eq_false_iff_ne]
    rintro heq
    have htoken := paramText_charAt p rest hbefore
    rw [heq, hch] at htoken
    cases htoken
  have hlen : (p.value.text ++ (p.after.text ++ rest)).length < fuel := by
    rw [htext] at hfuel
    simp only [List.length_append, List.length_cons] at hfuel ⊢
    omega
  have hget := getParamNameAndValue_plain p.name p.value p.after hrest hlen
  rw [← htext] at hget
  have hvalue : szStr (p.value.value.map UInt8.toUInt16) = p.value.value.map UInt8.toUInt16 :=
    szStr_map_toUInt16 fun ch hch => (value_ascii p.value ch hch).2
  have htake : M.takeParam (M.item szNameA l)
      ⟨.sOk, p.name.text, p.value.value.map UInt8.toUInt16, skipSpaces rest, false⟩ =
        .ok (M.item szNameA (l ++ [p.entry])) := by
    have htoken := addParam_token l (t := p.name.toToken) p.name.notEmpty
      (p.value.value.map UInt8.toUInt16)
    rw [hvalue] at htoken
    rw [M.takeParam_item _ _ _ _ hparam]
    exact congrArg (Except.map _) htoken
  simp only [ItemClass.itemTurn, hstart, hget, htake, hne chComma rfl, hne chSemicolon rfl]
  rw [if_neg (by simp [paramText_ne_nil]), if_neg (by simp), if_neg (by decide)]
  rw [skipSpaces, skipSpaces, List.dropWhile_idempotent]

/-- What may be behind an item. -/
def EndsItem (tail : List Byte) : Prop := tail = [] ∨ ∃ rest, tail = chComma :: rest

theorem itemSeparator_end (item : ι) {tail : List Byte} (h : EndsItem tail) :
    itemSeparator item tail = .inr (some ⟨.sOk, item, tail⟩) := by
  rcases h with rfl | ⟨rest, rfl⟩
  · rfl
  · rfl

theorem skipSpaces_end {tail : List Byte} (h : EndsItem tail) : skipSpaces tail = tail := by
  rcases h with rfl | ⟨rest, rfl⟩
  · rfl
  · exact skipSpaces_cons (by decide) rest

/-- **The loop reads the parameters of an item.** -/
theorem run_itemParams {fuel : Nat} {tail : List Byte} (htail : EndsItem tail)
    (szNameA : List Byte) (lt : List ParamText) : ∀ (p : ParamText) (n : Nat) (l : ParamsList),
      (∀ q ∈ p :: lt, M.IsParam q.name.text ∧ q.before = .none) → lt.length < n →
      (p.text (moreParams chSemicolon tail lt)).length < fuel →
      Loop.run (M.itemTurn fuel) n ⟨M.item szNameA l, p.text (moreParams chSemicolon tail lt)⟩ =
        some (some ⟨.sOk, M.item szNameA (l ++ (p :: lt).map ParamText.entry), tail⟩) := by
  induction lt with
  | nil =>
    intro p n l hp hn hfuel
    obtain ⟨n, rfl⟩ := Nat.exists_eq_succ_of_ne_zero (Nat.ne_of_gt (Nat.zero_lt_of_lt hn))
    obtain ⟨hparam, hbefore⟩ := hp p List.mem_cons_self
    have hrest : isTokenChar (charAt tail 0) = false := by
      rcases htail with rfl | ⟨rest, rfl⟩
      · rfl
      · rfl
    have hturn := itemTurn_text (M := M) szNameA l p hparam hbefore tail hrest hfuel
    rw [skipSpaces_end htail, itemSeparator_end _ htail] at hturn
    exact Loop.run_succ_inr hturn n
  | cons q lt ih =>
    intro p n l hp hn hfuel
    obtain ⟨n, rfl⟩ := Nat.exists_eq_succ_of_ne_zero (Nat.ne_of_gt (Nat.zero_lt_of_lt hn))
    obtain ⟨⟨hparam, hbefore⟩, hmore⟩ := List.forall_mem_cons.mp hp
    have hturn := itemTurn_text (M := M) szNameA l p hparam hbefore
      (moreParams chSemicolon tail (q :: lt)) rfl hfuel
    have hstart : skipSpaces (moreParams chSemicolon tail (q :: lt)) =
        chSemicolon :: q.text (moreParams chSemicolon tail lt) := skipSpaces_cons (by decide) _
    have hgo : (charAt (q.text (moreParams chSemicolon tail lt)) 0 == chComma) = false := by
      rw [beq_eq_false_iff_ne]
      intro heq
      have htoken := paramText_charAt q (moreParams chSemicolon tail lt)
        (hmore q List.mem_cons_self).2
      rw [heq] at htoken
      cases htoken
    rw [hstart] at hturn
    simp only [itemSeparator, beq_self_eq_true, if_true, hgo, Bool.or_false, decide_eq_true_eq,
      if_neg (paramText_ne_nil q _)] at hturn
    have hlen : (q.text (moreParams chSemicolon tail lt)).length < fuel := by
      simp only [moreParams, ParamText.text, List.length_append, List.length_cons] at hfuel ⊢
      omega
    rw [List.length_cons] at hn
    refine (Loop.run_succ_inl hturn n).trans ((ih q n _ hmore (by omega) hlen).trans ?_)
    rw [List.append_assoc]
    rfl

/-- What is behind the name of an item. -/
theorem moreParams_ends {tail : List Byte} (htail : EndsItem tail) (lt : List ParamText) :
    (moreParams chSemicolon tail lt = [] ∨
        szWordEnds.contains (charAt (moreParams chSemicolon tail lt) 0) = true) ∧
      skipSpaces (moreParams chSemicolon tail lt) = moreParams chSemicolon tail lt := by
  cases lt with
  | nil =>
    refine ⟨?_, skipSpaces_end htail⟩
    rcases htail with rfl | ⟨rest, rfl⟩
    · exact Or.inl rfl
    · exact Or.inr (show szWordEnds.contains chComma = true by decide)
  | cons q lt =>
    exact ⟨Or.inr (show szWordEnds.contains chSemicolon = true by decide),
      skipSpaces_cons (by decide) _⟩

/-- **A turn with a whole item.** -/
theorem itemsTurn_text {fuel : Nat} (done : List (ItemText M)) (bGotItem : Bool) (i : ItemText M)
    (hnew : ∀ j ∈ done, strCompareA j.name i.name true = false)
    (htoken : ∀ p ∈ i.params, p.IsToken) {tail : List Byte} (htail : EndsItem tail)
    (hfuel : (i.written ++ tail).length < fuel) :
    M.itemsTurn fuel ⟨done.map ItemText.item, bGotItem, i.written ++ tail⟩ =
      itemsSeparator ((done ++ [i]).map ItemText.item) true tail := by
  obtain ⟨lt, hentries, hbefore, htext⟩ := exists_paramTexts chSemicolon .none htoken
  have hwritten : i.written ++ tail = i.word.text ++ moreParams chSemicolon tail lt := by
    rw [htext, ItemText.written, List.append_assoc]
    rfl
  have hparam : ∀ q ∈ lt, M.IsParam q.name.text ∧ q.before = .none := by
    intro q hq
    refine ⟨?_, hbefore q hq⟩
    have hmem : q.entry ∈ i.params.map BareParam.entry := hentries ▸ List.mem_map_of_mem hq
    obtain ⟨p, hp, heq⟩ := List.mem_map.mp hmem
    have hname : p.name.text = q.name.text := congrArg Prod.fst heq
    exact hname ▸ i.isParam p hp
  obtain ⟨hends, hblanks⟩ := moreParams_ends htail lt
  obtain ⟨huntil, htake⟩ := skipUntil_word i.word hends
  have hitem : M.itemParams fuel (M.item i.name []) (moreParams chSemicolon tail lt) =
      some ⟨.sOk, i.item, tail⟩ := by
    rw [ItemText.item, ← hentries]
    cases lt with
    | nil =>
      rcases htail with rfl | ⟨rest, rfl⟩
      · rfl
      · rfl
    | cons q lt =>
      have hlen : (q.text (moreParams chSemicolon tail lt)).length < fuel ∧ lt.length < fuel := by
        have hcount := length_le_moreParams chSemicolon tail lt
        have hlt := length_lt_paramText q (moreParams chSemicolon tail lt)
        rw [hwritten, List.length_append, moreParams, List.length_cons] at hfuel
        omega
      have hrun := run_itemParams (M := M) htail i.name lt q fuel [] hparam hlen.2 hlen.1
      rw [List.nil_append] at hrun
      exact congrArg Option.join hrun
  have hne : i.word.text ≠ [] := i.word.notEmpty
  have hadd : M.addItem (done.map ItemText.item) i.word.text =
      .ok (done.map ItemText.item, M.item i.name []) := addItem_name hnew
  simp only [ItemClass.itemsTurn, hwritten, skipSpaces_word, huntil, htake, hblanks, if_neg hne,
    hadd, hitem, skipSpaces_end htail]
  rw [if_neg (by simp [hne]), if_neg (by decide), List.map_append]
  rfl

theorem endsItem_more (l : List (ItemText M)) :
    EndsItem (l.flatMap fun i => chComma :: i.written) := by
  cases l with
  | nil => exact Or.inl rfl
  | cons i l => exact Or.inr ⟨_, rfl⟩

/-- **The loop reads all items.** -/
theorem run_itemsText {fuel : Nat} (l : List (ItemText M)) : ∀ (i : ItemText M)
    (done : List (ItemText M)) (bGotItem : Bool) (n : Nat), DistinctNames (done ++ i :: l) →
      (∀ j ∈ i :: l, ∀ p ∈ j.params, p.IsToken) → l.length < n →
      (itemsText (i :: l)).length < fuel →
      Loop.run (M.itemsTurn fuel) n ⟨done.map ItemText.item, bGotItem, itemsText (i :: l)⟩ =
        some (some ⟨.sOk, (done ++ i :: l).map ItemText.item, true⟩) := by
  induction l with
  | nil =>
    intro i done bGotItem n hnames htoken hn hfuel
    obtain ⟨n, rfl⟩ := Nat.exists_eq_succ_of_ne_zero (Nat.ne_of_gt (Nat.zero_lt_of_lt hn))
    have hnew : ∀ j ∈ done, strCompareA j.name i.name true = false :=
      fun j hj => (List.pairwise_append.mp hnames).2.2 j hj i List.mem_cons_self
    exact Loop.run_succ_inr (itemsTurn_text done bGotItem i hnew (htoken i List.mem_cons_self)
      (endsItem_more []) hfuel) n
  | cons k l ih =>
    intro i done bGotItem n hnames htoken hn hfuel
    obtain ⟨n, rfl⟩ := Nat.exists_eq_succ_of_ne_zero (Nat.ne_of_gt (Nat.zero_lt_of_lt hn))
    have hnew : ∀ j ∈ done, strCompareA j.name i.name true = false :=
      fun j hj => (List.pairwise_append.mp hnames).2.2 j hj i List.mem_cons_self
    have hturn := itemsTurn_text done bGotItem i hnew (htoken i List.mem_cons_self)
      (endsItem_more (k :: l)) hfuel
    have hmore : ((k :: l).flatMap fun i => chComma :: i.written) =
        chComma :: itemsText (k :: l) := rfl
    have hne : itemsText (k :: l) ≠ [] := by
      intro hnil
      have hlen := congrArg List.length hnil
      have hpos := List.length_pos_iff.mpr k.word.notEmpty
      have hname : k.word.text = k.name := rfl
      simp only [itemsText, ItemText.written, List.length_append, List.length_nil, hname] at hlen hpos
      omega
    rw [hmore] at hturn
    simp only [itemsSeparator, beq_self_eq_true, if_true, if_neg hne] at hturn
    have hlen : (itemsText (k :: l)).length < fuel := by
      have htotal : (i.written ++ chComma :: itemsText (k :: l)).length < fuel := hfuel
      rw [List.length_append, List.length_cons] at htotal
      omega
    rw [List.append_cons] at hnames ⊢
    rw [List.length_cons] at hn
    exact (Loop.run_succ_inl hturn n).trans
      (ih k (done ++ [i]) true n hnames (fun j hj => htoken j (List.mem_cons_of_mem _ hj))
        (by omega) hlen)

/-! ### The round trip -/

theorem quoteSafe_item (i : ItemText M) : QuoteSafe i.written :=
  (quoteSafe_of_ne fun ch hch => (i.word.facts ch hch).2.1).append
    (quoteSafe_flatMap_of fun p _ => .cons (by decide) (quoteSafe_written p))

theorem isPrintable_item (i : ItemText M) : ∀ ch ∈ i.written, isPrintable ch = true := by
  intro ch hch
  rcases List.mem_append.mp hch with hch | hch
  · exact (i.word.facts ch hch).2.2.2.1
  · obtain ⟨p, -, hch⟩ := List.mem_flatMap.mp hch
    rcases List.mem_cons.mp hch with rfl | hch
    · decide
    · exact isPrintable_written p ch hch

theorem itemsText_facts (l : List (ItemText M)) :
    QuoteSafe (itemsText l) ∧ ∀ ch ∈ itemsText l, isPrintable ch = true := by
  cases l with
  | nil => exact ⟨quoteSafe_nil, fun ch hch => absurd hch List.not_mem_nil⟩
  | cons i l =>
    refine ⟨(quoteSafe_item i).append
      (quoteSafe_flatMap_of fun j _ => .cons (by decide) (quoteSafe_item j)), fun ch hch => ?_⟩
    rcases List.mem_append.mp hch with hch | hch
    · exact isPrintable_item i ch hch
    · obtain ⟨j, -, hch⟩ := List.mem_flatMap.mp hch
      rcases List.mem_cons.mp hch with rfl | hch
      · decide
      · exact isPrintable_item j ch hch

/-- The last item ends the text. -/
theorem isSuffix_itemsText (l : List (ItemText M)) (i : ItemText M) :
    i.written <:+ itemsText (l ++ [i]) := by
  cases l with
  | nil => exact ⟨[], by simp [itemsText]⟩
  | cons j l =>
    rw [List.cons_append, itemsText, List.flatMap_append, List.flatMap_singleton,
      ← List.append_assoc]
    exact (List.suffix_cons chComma i.written).trans (List.suffix_append _ _)

/-- **Items whose values came without quotes have none that needs them.** -/
theorem isToken_of_bareItems {l : List (ItemText M)}
    (h : M.BareItems (itemsText l) (l.map ItemText.item)) : ∀ i ∈ l, ∀ p ∈ i.params, p.IsToken := by
  have hparams : ∀ i : ItemText M, M.params i.item = i.params.map BareParam.entry :=
    fun i => M.params_item _ _
  have htoken : ∀ {i : ItemText M}, M.TokenItem i.item → ∀ p ∈ i.params, p.IsToken := by
    intro i hi p hp
    exact isToken_of_tokenValue (hi p.entry (hparams i ▸ List.mem_map_of_mem hp))
  rcases h with hall | ⟨front, i, hitems, hfront, hbare⟩
  · intro i hi
    exact htoken (hall _ (List.mem_map_of_mem hi))
  · obtain ⟨l₁, l₂, rfl, hl₁, hl₂⟩ := List.map_eq_append_iff.mp hitems
    obtain ⟨k, rfl, rfl⟩ := List.map_eq_singleton_iff.mp hl₂
    intro j hj
    rcases List.mem_append.mp hj with hj | hj
    · exact htoken (hfront _ (hl₁ ▸ List.mem_map_of_mem hj))
    · rw [List.mem_singleton.mp hj]
      rw [hparams] at hbare
      refine isToken_of_bareList hbare ?_
      intro l' p hlast
      refine List.IsSuffix.trans ?_ (isSuffix_itemsText l₁ k)
      rw [ItemText.written, hlast, List.flatMap_append, List.flatMap_singleton, BareParam.written,
        ← List.append_assoc]
      exact (List.suffix_append (chSemicolon :: p.name.text) _).trans (List.suffix_append _ _)

/-- **A list of items is read back from what `Build` writes exactly when there is an item
and no value needs quotes.** -/
theorem itemsRoundTrip_iff {l : List (ItemText M)} (hnames : DistinctNames l) :
    M.RoundTrip (l.map ItemText.entry) ↔ l ≠ [] ∧ ∀ i ∈ l, ∀ p ∈ i.params, p.IsToken := by
  rw [ItemClass.RoundTrip, set_items hnames]
  constructor
  · rintro ⟨aItems, hset, n, hparse⟩
    cases hset
    have hrun := hparse n (Nat.le_refl n)
    rw [build_items] at hrun
    obtain ⟨r, hloop, hr⟩ := Option.map_eq_some_iff.mp hrun
    obtain ⟨hok, hgot, hlist⟩ : r.hRes.failed = false ∧ r.bGotItem = true ∧
        r.aItems = l.map ItemText.item := by
      split at hr
      next hfailed =>
        rw [(Prod.mk.inj hr).1] at hfailed
        cases hfailed
      next hfailed =>
        split at hr
        · cases (Prod.mk.inj hr).1
        next hgot => exact ⟨by simpa using hfailed, by simpa using hgot, (Prod.mk.inj hr).2⟩
    have hloop := Option.join_eq_some_iff.mp hloop
    obtain ⟨hsafe, hprint⟩ := itemsText_facts l
    have hbare := run_bareItems M hsafe hprint n (List.suffix_refl _)
      (fun j hj => absurd hj List.not_mem_nil) hloop hok
    rw [hlist] at hbare
    refine ⟨?_, isToken_of_bareItems hbare⟩
    rintro rfl
    obtain _ | n := n
    · cases hloop
    · cases hloop
      cases hgot
  · rintro ⟨hne, htoken⟩
    refine ⟨_, rfl, (itemsText l).length + 1 + l.length, fun fuel hfuel => ?_⟩
    obtain ⟨i, l, rfl⟩ := List.exists_cons_of_ne_nil hne
    rw [List.length_cons] at hfuel
    have hlen : l.length < fuel ∧ (itemsText (i :: l)).length < fuel := by omega
    have hloop := run_itemsText l i [] false fuel hnames htoken hlen.1 hlen.2
    rw [List.nil_append, List.map_nil] at hloop
    rw [build_items, ItemClass.parse, hloop]
    rfl

end Written

end MxLib.Http
