import MxLib.Http.HttpBodyParserFormIndexes

/-!
# The tree of fields

What a call of `AddField` does to the fields that are stored.  A field is found by its
address, the positions from `cFieldsList` on.  The call walks along its indexes, and an
empty one gets the number after the biggest one, which no field there has
(`addField_freshIndex`).

The fields that are passed on the way lose their values; every other field keeps its own
(`nodeAt_assign`).
-/

namespace MxLib.Http

namespace CField

def value : CField → List WChar
  | field _ cStrValueW _ => cStrValueW

def items : CField → List CField
  | field _ _ aSubIndexesItems => aSubIndexesItems

/-- Fields whose indexes are in their stored form, all the way down. -/
inductive Indexed : CField → Prop
  | field (cStrNameW cStrValueW : List WChar) (aSubIndexesItems : List CField)
      (isIndex : ∀ c ∈ aSubIndexesItems, IsIndex c.name)
      (indexed : ∀ c ∈ aSubIndexesItems, Indexed c) :
      Indexed (.field cStrNameW cStrValueW aSubIndexesItems)

theorem Indexed.isIndex {f : CField} (h : Indexed f) : ∀ c ∈ f.items, IsIndex c.name := by
  cases h with
  | field _ _ _ isIndex _ => exact isIndex

theorem Indexed.items {f : CField} (h : Indexed f) : ∀ c ∈ f.items, Indexed c := by
  cases h with
  | field _ _ _ _ indexed => exact indexed

theorem indexed_empty (cStrNameW : List WChar) : Indexed (.field cStrNameW [] []) :=
  .field _ _ _ (fun _ hc => absurd hc List.not_mem_nil) (fun _ hc => absurd hc List.not_mem_nil)

theorem Indexed.clearValue {f : CField} (h : Indexed f) : Indexed f.clearValue := by
  cases h with
  | field _ _ _ isIndex indexed => exact .field _ _ _ isIndex indexed

/-! ### Addresses -/

/-- The field at an address. -/
def nodeAt (f : CField) : List Nat → Option CField
  | [] => some f
  | i :: addr => f.items[i]?.bind fun c => nodeAt c addr

theorem nodeAt_cons (f : CField) (i : Nat) (addr : List Nat) :
    nodeAt f (i :: addr) = f.items[i]?.bind fun c => nodeAt c addr := rfl

theorem nodeAt_cons_eq_some_iff {f node : CField} {i : Nat} {addr : List Nat} :
    nodeAt f (i :: addr) = some node ↔ ∃ c, f.items[i]? = some c ∧ nodeAt c addr = some node := by
  rw [nodeAt_cons, Option.bind_eq_some_iff]

theorem Indexed.nodeAt {f node : CField} (h : Indexed f) {addr : List Nat}
    (hnode : nodeAt f addr = some node) : Indexed node := by
  induction addr generalizing f with
  | nil => exact Option.some.inj hnode ▸ h
  | cons i addr ih =>
    obtain ⟨c, hc, hnode⟩ := nodeAt_cons_eq_some_iff.mp hnode
    exact ih (h.items c (List.mem_of_getElem? hc)) hnode

theorem nodeAt_clearValue_cons (f : CField) (i : Nat) (addr : List Nat) :
    nodeAt f.clearValue (i :: addr) = nodeAt f (i :: addr) := by
  cases f
  rfl

/-! ### The walk -/

/-- The text of an index. -/
def index (idx : Option (List WChar)) (f : CField) : List WChar := idx.getD (nextIndex f.items)

/-- The position of an index among the fields below, or the one behind them. -/
def position (idx : Option (List WChar)) (f : CField) : Nat :=
  f.items.findIdx fun lpChildField => strCompareW (index idx f) lpChildField.name true

/-- The field that an index leads to, without its value; a new one where there is none. -/
def child (idx : Option (List WChar)) (f : CField) : CField :=
  (f.items[position idx f]?.getD (.field (index idx f) [] [])).clearValue

/-- The field that indexes lead to. -/
def reached (aSubIndexesList : List (Option (List WChar))) (f : CField) : CField :=
  aSubIndexesList.foldl (fun f idx => child idx f) f

/-- The address of the field that indexes lead to. -/
def walk : List (Option (List WChar)) → CField → List Nat
  | [], _ => []
  | idx :: aSubIndexesList, f => position idx f :: walk aSubIndexesList (child idx f)

/-- A list with the element at a position replaced, or one more behind the last. -/
def put (i : Nat) (c : CField) (l : List CField) : List CField := l.take i ++ c :: l.drop (i + 1)

theorem getElem?_put_self {i : Nat} {c : CField} {l : List CField} (h : i ≤ l.length) :
    (put i c l)[i]? = some c := by
  have hlen : (l.take i).length = i := List.length_take_of_le h
  rw [put, List.getElem?_append_right (by omega), hlen, Nat.sub_self, List.getElem?_cons_zero]

theorem getElem?_put_ne {i j : Nat} {c : CField} {l : List CField} (hj : j < l.length) (hne : j ≠ i) :
    (put i c l)[j]? = l[j]? := by
  rcases Nat.lt_or_gt_of_ne hne with hlt | hgt
  · rw [put, List.getElem?_append_left (by rw [List.length_take]; omega), List.getElem?_take_of_lt hlt]
  · have hlen : (l.take i).length = i := List.length_take_of_le (by omega)
    obtain ⟨k, rfl⟩ := Nat.exists_eq_add_of_lt hgt
    rw [put, List.getElem?_append_right (by omega), hlen,
      show i + k + 1 - i = k + 1 by omega, List.getElem?_cons_succ, List.getElem?_drop]
    congr 1
    omega

theorem put_length (c : CField) (l : List CField) : put l.length c l = l ++ [c] := by
  rw [put, List.take_length, List.drop_eq_nil_of_le (by omega)]

theorem mem_put {i : Nat} {c c' : CField} {l : List CField} (h : c' ∈ put i c l) : c' = c ∨ c' ∈ l := by
  rcases List.mem_append.mp h with h | h
  · exact .inr (List.mem_of_mem_take h)
  · exact (List.mem_cons.mp h).imp_right List.mem_of_mem_drop

theorem modify_eq_put {i : Nat} {l : List CField} {c : CField} (h : l[i]? = some c) (g : CField → CField) :
    l.modify i g = put i (g c) l := by
  obtain ⟨hlt, rfl⟩ := List.getElem?_eq_some_iff.mp h
  rw [List.modify_eq_take_cons_drop hlt]
  rfl

theorem position_le (idx : Option (List WChar)) (f : CField) : position idx f ≤ f.items.length :=
  List.findIdx_le_length

/-- **One index of the walk.** -/
theorem assign_cons (szValueW : List WChar) (idx : Option (List WChar))
    (aSubIndexesList : List (Option (List WChar))) (f : CField) :
    assign szValueW (idx :: aSubIndexesList) f =
      .field f.name [] (put (position idx f) (assign szValueW aSubIndexesList (child idx f)) f.items) := by
  obtain ⟨cStrNameW, cStrValueW, aSubIndexesItems⟩ := f
  rw [assign, child, position, index]
  dsimp only [items, name]
  split
  next i hfind =>
    obtain ⟨hlt, hp⟩ := List.findIdx?_eq_some_iff_findIdx_eq.mp hfind
    rw [hp, List.getElem?_eq_getElem hlt, Option.getD_some,
      modify_eq_put (List.getElem?_eq_getElem hlt)]
  next hfind =>
    have hlen := List.findIdx_eq_length.mpr (List.findIdx?_eq_none_iff.mp hfind)
    rw [hlen, List.getElem?_eq_none (Nat.le_refl _), put_length]
    rfl

theorem name_assign (szValueW : List WChar) (aSubIndexesList : List (Option (List WChar))) (f : CField) :
    (assign szValueW aSubIndexesList f).name = f.name := by
  cases aSubIndexesList with
  | nil =>
    cases f
    rfl
  | cons idx aSubIndexesList =>
    rw [assign_cons]
    rfl

theorem child_of_getElem? {idx : Option (List WChar)} {f c : CField}
    (h : f.items[position idx f]? = some c) : child idx f = c.clearValue := by
  rw [child, h, Option.getD_some]

theorem child_of_length {idx : Option (List WChar)} {f : CField} (h : position idx f = f.items.length) :
    child idx f = .field (index idx f) [] [] := by
  rw [child, h, List.getElem?_eq_none (Nat.le_refl _)]
  rfl

theorem child_eq (idx : Option (List WChar)) (f : CField) :
    (∃ c, f.items[position idx f]? = some c ∧ child idx f = c.clearValue) ∨
      position idx f = f.items.length ∧ child idx f = .field (index idx f) [] [] := by
  rcases Nat.lt_or_eq_of_le (position_le idx f) with hlt | heq
  · exact .inl ⟨_, List.getElem?_eq_getElem hlt, child_of_getElem? (List.getElem?_eq_getElem hlt)⟩
  · exact .inr ⟨heq, child_of_length heq⟩

theorem Indexed.child {f : CField} (h : Indexed f) (idx : Option (List WChar)) : Indexed (child idx f) := by
  rcases child_eq idx f with ⟨c, hc, hchild⟩ | ⟨-, hchild⟩
  · exact hchild ▸ (h.items c (List.mem_of_getElem? hc)).clearValue
  · exact hchild ▸ indexed_empty _

theorem Indexed.reached {f : CField} (h : Indexed f) (aSubIndexesList : List (Option (List WChar))) :
    Indexed (reached aSubIndexesList f) := by
  induction aSubIndexesList generalizing f with
  | nil => exact h
  | cons idx aSubIndexesList ih => exact ih (h.child idx)

/-- **An empty index leads to a new field.** -/
theorem position_none {f : CField} (h : Indexed f) :
    index none f = freshIndex f.items ∧ position none f = f.items.length := by
  have hindex : index none f = freshIndex f.items := nextIndex_eq h.isIndex
  refine ⟨hindex, List.findIdx_eq_length.mpr fun c hc => ?_⟩
  rw [hindex]
  exact freshIndex_fresh h.isIndex hc

theorem isIndex_child_name {f : CField} (h : Indexed f) {idx : Option (List WChar)}
    (hidx : ∀ sW, idx = some sW → IsIndex sW) : IsIndex (CField.child idx f).name := by
  rcases child_eq idx f with ⟨c, hc, hchild⟩ | ⟨-, hchild⟩
  · rw [hchild]
    have hname : c.clearValue.name = c.name := by cases c; rfl
    exact hname ▸ h.isIndex c (List.mem_of_getElem? hc)
  · rw [hchild]
    cases idx with
    | none => exact (position_none h).1 ▸ (freshIndex_canonical _).isIndex
    | some sW => exact hidx sW rfl

theorem Indexed.assign {f : CField} (h : Indexed f) (szValueW : List WChar)
    {aSubIndexesList : List (Option (List WChar))}
    (hidx : ∀ sW, some sW ∈ aSubIndexesList → IsIndex sW) :
    Indexed (assign szValueW aSubIndexesList f) := by
  induction aSubIndexesList generalizing f with
  | nil =>
    cases h with
    | field _ _ _ isIndex indexed => exact .field _ _ _ isIndex indexed
  | cons idx aSubIndexesList ih =>
    rw [assign_cons]
    refine .field _ _ _ (fun c hc => ?_) fun c hc => ?_
    · rcases mem_put hc with rfl | hc
      · rw [name_assign]
        exact isIndex_child_name h fun sW hsW => hidx sW (hsW ▸ List.mem_cons_self)
      · exact h.isIndex c hc
    · rcases mem_put hc with rfl | hc
      · exact ih (h.child idx) fun sW hsW => hidx sW (List.mem_cons_of_mem _ hsW)
      · exact h.items c hc

/-! ### What a call changes -/

/-- The field that indexes lead to gets the rest of the call. -/
theorem nodeAt_walk_assign (szValueW : List WChar) (pre post : List (Option (List WChar))) (f : CField) :
    nodeAt (assign szValueW (pre ++ post) f) (walk pre f) =
      some (assign szValueW post (reached pre f)) := by
  induction pre generalizing f with
  | nil => rfl
  | cons idx pre ih =>
    rw [List.cons_append, assign_cons, walk, nodeAt_cons]
    change ((put _ _ _)[_]?).bind _ = _
    rw [getElem?_put_self (position_le idx f)]
    exact ih (child idx f)

/-- A field below the end of the walk is stored where the walk leads to. -/
theorem nodeAt_reached {f node : CField} {aSubIndexesList : List (Option (List WChar))} {i : Nat}
    {addr : List Nat} (h : nodeAt f (walk aSubIndexesList f ++ i :: addr) = some node) :
    nodeAt (reached aSubIndexesList f) (i :: addr) = some node := by
  induction aSubIndexesList generalizing f with
  | nil => exact h
  | cons idx aSubIndexesList ih =>
    obtain ⟨c, hc, hnode⟩ := nodeAt_cons_eq_some_iff.mp h
    have hchild := child_of_getElem? hc
    refine ih (f := child idx f) ?_
    rw [hchild] at hnode ⊢
    cases hwalk : walk aSubIndexesList c.clearValue ++ i :: addr with
    | nil => exact absurd hwalk (by simp)
    | cons j addr' => rwa [nodeAt_clearValue_cons, ← hwalk]

/-- **A field stays where it is**, and keeps its value unless the walk passes it. -/
theorem nodeAt_assign {f node : CField} {addr : List Nat} (h : nodeAt f addr = some node)
    (szValueW : List WChar) (aSubIndexesList : List (Option (List WChar))) :
    ∃ node', nodeAt (assign szValueW aSubIndexesList f) addr = some node' ∧ node'.name = node.name ∧
      (¬ addr <+: walk aSubIndexesList f → node'.value = node.value) := by
  induction aSubIndexesList generalizing f addr node with
  | nil =>
    cases addr with
    | nil =>
      obtain rfl := Option.some.inj h
      exact ⟨_, rfl, name_assign _ _ _, fun hpre => absurd List.prefix_rfl hpre⟩
    | cons i addr =>
      refine ⟨node, ?_, rfl, fun _ => rfl⟩
      cases f
      exact h
  | cons idx aSubIndexesList ih =>
    cases addr with
    | nil =>
      obtain rfl := Option.some.inj h
      exact ⟨_, rfl, name_assign _ _ _, fun hpre => absurd (List.nil_prefix) hpre⟩
    | cons i addr =>
      obtain ⟨c, hc, hnode⟩ := nodeAt_cons_eq_some_iff.mp h
      rw [assign_cons, walk]
      by_cases hi : i = position idx f
      · subst hi
        have hchild := child_of_getElem? hc
        obtain ⟨node1, hnode1, hname, hvalue⟩ : ∃ node1, nodeAt (child idx f) addr = some node1 ∧
            node1.name = node.name ∧ (addr ≠ [] → node1.value = node.value) := by
          rw [hchild]
          cases addr with
          | nil =>
            obtain rfl := Option.some.inj hnode
            exact ⟨_, rfl, by cases c; rfl, fun hne => absurd rfl hne⟩
          | cons j addr => exact ⟨node, (nodeAt_clearValue_cons c j addr).trans hnode, rfl, fun _ => rfl⟩
        obtain ⟨node', hnode', hname', hvalue'⟩ := ih hnode1
        refine ⟨node', ?_, hname'.trans hname, fun hpre => ?_⟩
        · refine nodeAt_cons_eq_some_iff.mpr ⟨_, getElem?_put_self (position_le idx f), hnode'⟩
        · have hpre' : ¬ addr <+: walk aSubIndexesList (child idx f) := fun hp =>
            hpre (List.cons_prefix_cons.mpr ⟨rfl, hp⟩)
          have hne : addr ≠ [] := fun hnil => hpre' (hnil ▸ List.nil_prefix)
          exact (hvalue' hpre').trans (hvalue hne)
      · have hlt : i < f.items.length := (List.getElem?_eq_some_iff.mp hc).1
        exact ⟨node, nodeAt_cons_eq_some_iff.mpr ⟨c, (getElem?_put_ne hlt hi).trans hc, hnode⟩, rfl,
          fun _ => rfl⟩

theorem walk_append (pre post : List (Option (List WChar))) (f : CField) :
    walk (pre ++ post) f = walk pre f ++ walk post (reached pre f) := by
  induction pre generalizing f with
  | nil => rfl
  | cons idx pre ih => exact congrArg (_ :: ·) (ih (child idx f))

/-- **No stored field is passed behind an empty index.** -/
theorem prefix_walk {f node : CField} (h : Indexed f) {pre post : List (Option (List WChar))} {addr : List Nat}
    (hnode : nodeAt f addr = some node) (hpre : addr <+: walk (pre ++ none :: post) f) :
    addr <+: walk pre f := by
  rw [walk_append] at hpre
  rcases List.prefix_or_prefix_of_prefix hpre (List.prefix_append _ _) with hshort | ⟨rest, rfl⟩
  · exact hshort
  · cases rest with
    | nil => exact (List.append_nil _).symm ▸ List.prefix_rfl
    | cons j rest =>
      have hj := (List.cons_prefix_cons.mp ((List.prefix_append_right_inj _).mp hpre)).1
      obtain ⟨c, hc, -⟩ := nodeAt_cons_eq_some_iff.mp (nodeAt_reached hnode)
      have hlt := (List.getElem?_eq_some_iff.mp hc).1
      have hlen := (position_none (h.reached pre)).2
      omega

end CField

/-! ### Calls -/

open CField

/-- The field that a name stands for; a new one where there is none. -/
def namedPosition (cFieldsList : List CField) (cStrNameW : List WChar) : Nat :=
  match cFieldsList.reverse.findIdx? fun lpField => strCompareW cStrNameW lpField.name true with
  | some i => cFieldsList.length - 1 - i
  | none => cFieldsList.length

def namedField (cFieldsList : List CField) (cStrNameW : List WChar) : CField :=
  cFieldsList[namedPosition cFieldsList cStrNameW]?.getD (.field cStrNameW [] [])

theorem reverse_put {i : Nat} {c : CField} {l : List CField} (h : i < l.length) :
    (put i c l.reverse).reverse = put (l.length - 1 - i) c l := by
  rw [put, put, List.reverse_append, List.reverse_cons, List.take_reverse, List.drop_reverse,
    List.reverse_reverse, List.reverse_reverse, List.append_assoc, List.singleton_append]
  rw [show l.length - (i + 1) = l.length - 1 - i by omega, show l.length - i = l.length - 1 - i + 1 by omega]

/-- **`AddField`**, with the place of the field it changes. -/
theorem addField_eq {szNameW cStrNameW : List WChar} {aSubIndexesList : List (Option (List WChar))}
    (h : parseNameAndIndexes szNameW = .ok (cStrNameW, aSubIndexesList)) (cFieldsList : List CField)
    (szValueW : List WChar) :
    addField cFieldsList szNameW szValueW = .ok (put (namedPosition cFieldsList cStrNameW)
      (assign (szStr szValueW) aSubIndexesList (namedField cFieldsList cStrNameW)) cFieldsList) := by
  rw [addField, h, namedField]
  dsimp only
  cases hfind : cFieldsList.reverse.findIdx? fun lpField => strCompareW cStrNameW lpField.name true with
  | some i =>
    have hposition : namedPosition cFieldsList cStrNameW = cFieldsList.length - 1 - i := by
      rw [namedPosition, hfind]
    have hlt := (List.findIdx?_eq_some_iff_findIdx_eq.mp hfind).1
    rw [List.length_reverse] at hlt
    have hget : cFieldsList.reverse[i]? = some cFieldsList[cFieldsList.length - 1 - i] := by
      rw [List.getElem?_reverse hlt, List.getElem?_eq_getElem]
    dsimp only
    rw [hposition, modify_eq_put hget, reverse_put hlt, List.getElem?_eq_getElem (by omega),
      Option.getD_some]
  | none =>
    have hposition : namedPosition cFieldsList cStrNameW = cFieldsList.length := by
      rw [namedPosition, hfind]
    rw [hposition, put_length, List.getElem?_eq_none (Nat.le_refl _), Option.getD_none]

theorem namedPosition_le (cFieldsList : List CField) (cStrNameW : List WChar) :
    namedPosition cFieldsList cStrNameW ≤ cFieldsList.length := by
  rw [namedPosition]
  split <;> omega

theorem indexed_namedField {cFieldsList : List CField} (h : ∀ f ∈ cFieldsList, Indexed f)
    (cStrNameW : List WChar) : Indexed (namedField cFieldsList cStrNameW) := by
  rw [namedField]
  cases hget : cFieldsList[namedPosition cFieldsList cStrNameW]? with
  | none => exact indexed_empty _
  | some f => exact h f (List.mem_of_getElem? hget)

/-- **The indexes stay in their stored form.** -/
theorem indexed_addField {cFieldsList fields : List CField} (h : ∀ f ∈ cFieldsList, Indexed f)
    {szNameW szValueW : List WChar} (hadd : addField cFieldsList szNameW szValueW = .ok fields) :
    ∀ f ∈ fields, Indexed f := by
  cases hname : parseNameAndIndexes szNameW with
  | error hRes =>
    rw [addField, hname] at hadd
    cases hadd
  | ok r =>
    obtain ⟨cStrNameW, aSubIndexesList⟩ := r
    rw [addField_eq hname] at hadd
    obtain rfl := Except.ok.inj hadd
    intro f hf
    rcases mem_put hf with rfl | hf
    · exact (indexed_namedField h cStrNameW).assign _ fun sW hsW => isIndex_of_parseNameAndIndexes hname hsW
    · exact h f hf

/-- The fields behind calls of `AddField`; a call that fails leaves them. -/
def addCalls (calls : List (List WChar × List WChar)) : List CField :=
  calls.foldl (fun cFieldsList call =>
    match addField cFieldsList call.1 call.2 with
    | .ok fields => fields
    | .error _ => cFieldsList) []

theorem indexed_addCalls (calls : List (List WChar × List WChar)) : ∀ f ∈ addCalls calls, Indexed f := by
  refine List.foldlRecOn calls _ (motive := fun l => ∀ f ∈ l, Indexed f) (fun _ hf => absurd hf List.not_mem_nil)
    fun l hl call _ => ?_
  split
  next hadd => exact indexed_addField hl hadd
  · exact hl

/-! ### Empty indexes -/

/-- The field at an address; its first position is one of `cFieldsList`. -/
def storedAt (cFieldsList : List CField) (addr : List Nat) : Option CField :=
  match addr with
  | [] => none
  | i :: addr => cFieldsList[i]?.bind fun f => nodeAt f addr

/-- The fields that are stored stay where they are, those at the addresses of `P` with
their values. -/
def KeepsFields (cFieldsList fields : List CField) (P : List Nat → Prop) : Prop :=
  ∀ addr node, storedAt cFieldsList addr = some node →
    ∃ node', storedAt fields addr = some node' ∧ node'.name = node.name ∧ (P addr → node'.value = node.value)

/-- **A call with an empty index** behind other indexes, `pre`: in the field that `pre`
leads to no field has the number after the biggest one, a field with this number is added
there behind the others, and only the fields on the way to it lose their values. -/
def AppendsFresh (cFieldsList : List CField) (szNameW szValueW : List WChar) : Prop :=
  ∀ cStrNameW pre post, parseNameAndIndexes szNameW = .ok (cStrNameW, pre ++ none :: post) →
    let lpField := reached pre (namedField cFieldsList cStrNameW)
    let addr := namedPosition cFieldsList cStrNameW :: walk pre (namedField cFieldsList cStrNameW)
    (∀ lpChildField ∈ lpField.items, strCompareW (freshIndex lpField.items) lpChildField.name true = false) ∧
      ∃ fields, addField cFieldsList szNameW szValueW = .ok fields ∧
        storedAt fields addr = some (.field lpField.name [] (lpField.items ++
          [assign (szStr szValueW) post (.field (freshIndex lpField.items) [] [])])) ∧
        KeepsFields cFieldsList fields fun a => ¬ a <+: addr

/-- Numbers among the indexes that are stored are compared as numbers. -/
def ComparesNumbers (cFieldsList : List CField) : Prop :=
  ∀ addr addr' lpField lpField', storedAt cFieldsList addr = some lpField →
    storedAt cFieldsList addr' = some lpField' → ∀ c ∈ lpField.items, ∀ c' ∈ lpField'.items,
      isNumeric c.name = true → isNumeric c'.name = true →
        numericCompare c.name c'.name = compare (number c.name) (number c'.name)

theorem comparesNumbers_of_indexed {cFieldsList : List CField} (h : ∀ f ∈ cFieldsList, Indexed f) :
    ComparesNumbers cFieldsList := by
  have hstored : ∀ {addr f}, storedAt cFieldsList addr = some f → Indexed f := by
    intro addr f hf
    cases addr with
    | nil => cases hf
    | cons i addr =>
      obtain ⟨c, hc, hf⟩ := Option.bind_eq_some_iff.mp hf
      exact (h c (List.mem_of_getElem? hc)).nodeAt hf
  intro addr addr' f f' hf hf' c hc c' hc' hnumeric hnumeric'
  exact numericCompare_canonical (((hstored hf).isIndex c hc).canonical hnumeric)
    (((hstored hf').isIndex c' hc').canonical hnumeric')

theorem keepsFields_addField {cFieldsList : List CField} (h : ∀ f ∈ cFieldsList, Indexed f)
    (cStrNameW szValueW : List WChar) (pre post : List (Option (List WChar))) :
    KeepsFields cFieldsList
      (put (namedPosition cFieldsList cStrNameW)
        (assign szValueW (pre ++ none :: post) (namedField cFieldsList cStrNameW)) cFieldsList)
      fun a => ¬ a <+:
        namedPosition cFieldsList cStrNameW :: walk pre (namedField cFieldsList cStrNameW) := by
  intro addr node hstored
  cases addr with
  | nil => cases hstored
  | cons i addr =>
    obtain ⟨f, hf, hnode⟩ := Option.bind_eq_some_iff.mp hstored
    by_cases hi : i = namedPosition cFieldsList cStrNameW
    · subst hi
      have hnamed : namedField cFieldsList cStrNameW = f := by rw [namedField, hf, Option.getD_some]
      rw [hnamed]
      obtain ⟨node', hnode', hname, hvalue⟩ := nodeAt_assign hnode szValueW (pre ++ none :: post)
      refine ⟨node', ?_, hname, fun hpre => hvalue fun hwalk => hpre ?_⟩
      · exact Option.bind_eq_some_iff.mpr ⟨_, getElem?_put_self (namedPosition_le _ _), hnode'⟩
      · exact List.cons_prefix_cons.mpr ⟨rfl, prefix_walk (h f (List.mem_of_getElem? hf)) hnode hwalk⟩
    · have hlt := (List.getElem?_eq_some_iff.mp hf).1
      exact ⟨node, Option.bind_eq_some_iff.mpr ⟨f, (getElem?_put_ne hlt hi).trans hf, hnode⟩, rfl, fun _ => rfl⟩

/-- **Automatic indexes are fresh**, behind every sequence of calls. -/
theorem addCalls_appendsFresh (calls : List (List WChar × List WChar)) (szNameW szValueW : List WChar) :
    AppendsFresh (addCalls calls) szNameW szValueW ∧ ComparesNumbers (addCalls calls) := by
  have hindexed := indexed_addCalls calls
  refine ⟨fun cStrNameW pre post hname => ?_, comparesNumbers_of_indexed hindexed⟩
  dsimp only
  have hfield := (indexed_namedField hindexed cStrNameW).reached pre
  obtain ⟨hindex, hposition⟩ := position_none hfield
  refine ⟨fun c hc => freshIndex_fresh hfield.isIndex hc, _, addField_eq hname _ _, ?_,
    keepsFields_addField hindexed _ _ _ _⟩
  refine Option.bind_eq_some_iff.mpr ⟨_, getElem?_put_self (namedPosition_le _ _), ?_⟩
  rw [nodeAt_walk_assign, assign_cons, hposition, put_length, child_of_length hposition, hindex]

/-- A call with an empty index clears the value that its field had. -/
theorem not_keepsFields_array :
    ¬ ∀ (calls : List (List WChar × List WChar)) (szNameW szValueW cStrNameW : List WChar)
        (aSubIndexesList : List (Option (List WChar))) (fields : List CField),
      parseNameAndIndexes szNameW = .ok (cStrNameW, aSubIndexesList) → none ∈ aSubIndexesList →
        addField (addCalls calls) szNameW szValueW = .ok fields →
          KeepsFields (addCalls calls) fields fun _ => True := by
  intro h
  have hkeeps := h [(wide "a", wide "1")] (wide "a[]") (wide "2") (wide "a") [none] _ rfl (by simp) rfl
  obtain ⟨node', hnode', -, hvalue⟩ := hkeeps [0] _ rfl
  obtain rfl := Option.some.inj hnode'
  exact absurd (hvalue trivial) (by decide)

end MxLib.Http
