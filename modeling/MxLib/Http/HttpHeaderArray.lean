import MxLib.Http.HttpHeaders

/-!
# Arrays of headers

`CHttpHeaderArray`: merging a header or another array into the array, and assigning one array to
another.  A header is any object with the three methods the array asks for.  The array is the
list of its headers; an array that is assigned and the one it is assigned to are two objects
or one and the same.
-/

namespace MxLib.Http

/-- The methods of `CHttpHeaderBase`; `merge` is the header behind `Merge(lpHeader)`. -/
structure HeaderMethods (η : Type) where
  getHeaderName : η → List Byte
  getDuplicateBehavior : η → DuplicateBehavior
  merge : η → η → Except HResult η

namespace HeaderArray

variable {η : Type} (api : HeaderMethods η)

/-! ### The list -/

/-- `AddElement` -/
def addElement (items : List η) (elem : η) : List η := items ++ [elem]

/-- `RemoveElementAt` -/
def removeElementAt (items : List η) (nIndex : Nat) : List η := items.eraseIdx nIndex

/-- `Transfer`: the list takes over what `cSrcList` holds, and `cSrcList` is left empty. -/
def transfer (_items cSrcList : List η) : List η × List η := (cSrcList, [])

/-! ### The array -/

/-- Both headers have the same name. -/
def isSameName (lpHeader lpSrc : η) : Bool :=
  strCompareA (api.getHeaderName lpHeader) (api.getHeaderName lpSrc) true

/-- `Merge(lpSrc, bForceReplaceExisting)`: the array is only searched where a header is not
replaced by force. -/
def mergeHeader (headers : List η) (lpSrc : η) (bForceReplaceExisting : Bool) :
    Except HResult (List η) :=
  let nHeaderIndex :=
    if bForceReplaceExisting then none else headers.findIdx? fun h => isSameName api h lpSrc
  let lpHeader := nHeaderIndex.bind (headers[·]?)
  let nDuplicateBehavior :=
    match lpHeader with
    | some lpHeader => api.getDuplicateBehavior lpHeader
    | none => if bForceReplaceExisting then .replace else .add
  match nDuplicateBehavior, nHeaderIndex, lpHeader with
  | .error, _, _ => .error .mxAlreadyExists
  | .replace, some nIndex, _ => .ok (removeElementAt (addElement headers lpSrc) nIndex)
  | .merge, some nIndex, some lpHeader => (api.merge lpHeader lpSrc).map (headers.set nIndex)
  | _, _, _ => .ok (addElement headers lpSrc)

/-- `Merge(cSrc, bForceReplaceExisting)` -/
def mergeArray (bForceReplaceExisting : Bool) : List η → List η → Except HResult (List η)
  | headers, [] => .ok headers
  | headers, lpSrc :: cSrc =>
    match mergeHeader api headers lpSrc bForceReplaceExisting with
    | .ok headers => mergeArray bForceReplaceExisting headers cSrc
    | .error .mxAlreadyExists => mergeArray bForceReplaceExisting headers cSrc
    | .error hRes => .error hRes

/-- `operator=`: the headers of `cSrc` are added to the array itself, and then the new list,
which is still empty, is transferred to it.  `bSame` says that both are one object. -/
def assign (headers cSrc : List η) (bSame : Bool) : List η :=
  if bSame then headers
  else
    let aNewList : List η := []
    let headers := cSrc.foldl addElement headers
    (transfer headers aNewList).1

/-- The methods of the headers a parser keeps. -/
def headerMethods (e : HeaderEnv) : HeaderMethods (Header e) :=
  ⟨Header.getHeaderName, Header.getDuplicateBehavior, Header.merge⟩

/-- A parser adds a header as the array does. -/
theorem mergeHeader_headerMethods {e : HeaderEnv} (cHeaders : List (Header e)) (src : Header e) :
    HeaderArray.mergeHeader (headerMethods e) cHeaders src false = Http.mergeHeader cHeaders src := by
  have hfind : (cHeaders.findIdx? fun h => isSameName (headerMethods e) h src) =
      cHeaders.findIdx? fun h => strCompareA h.getHeaderName src.getHeaderName true := rfl
  rw [HeaderArray.mergeHeader, Http.mergeHeader]
  simp only [Bool.false_eq_true, if_false, hfind]
  generalize (cHeaders.findIdx? fun h =>
    strCompareA h.getHeaderName src.getHeaderName true) = nHeaderIndex
  cases nHeaderIndex with
  | none => rfl
  | some nHeaderIndex =>
    simp only [Option.bind_some]
    cases cHeaders[nHeaderIndex]? with
    | none => rfl
    | some header =>
      have hbehavior : (headerMethods e).getDuplicateBehavior header = header.getDuplicateBehavior :=
        rfl
      simp only [hbehavior]
      cases header.getDuplicateBehavior with
      | error => rfl
      | replace => rfl
      | add => rfl
      | merge => rfl

/-! ### What is left in the array -/

/-- No two headers have the same name. -/
def DistinctNames (headers : List η) : Prop :=
  headers.Pairwise fun h h' => isSameName api h h' = false

/-- The array after a header has replaced the one of its name: it is the only one of the name, and
the others are those that were there, in their order. -/
structure Replaced (headers headers' : List η) (lpSrc : η) : Prop where
  only : headers'.filter (isSameName api · lpSrc) = [lpSrc]
  others : headers'.filter (!isSameName api · lpSrc) = headers.filter (!isSameName api · lpSrc)

variable {api}

theorem isSameName_self (h : η) : isSameName api h h = true := by
  rw [isSameName, strCompareA, beq_self_eq_true]

theorem mergeHeader_force (headers : List η) (lpSrc : η) :
    mergeHeader api headers lpSrc true = .ok (headers ++ [lpSrc]) := rfl

/-- An array that is merged by force is appended. -/
theorem mergeArray_force (headers cSrc : List η) :
    mergeArray api true headers cSrc = .ok (headers ++ cSrc) := by
  induction cSrc generalizing headers with
  | nil => rw [mergeArray, List.append_nil]
  | cons lpSrc cSrc ih =>
    rw [mergeArray, mergeHeader_force]
    exact (ih _).trans (by rw [List.append_assoc, List.singleton_append])

/-- A header that is replaced by force is replaced where there is none. -/
theorem replaced_iff {headers : List η} {lpSrc : η} :
    (∃ headers', mergeHeader api headers lpSrc true = .ok headers' ∧
      Replaced api headers headers' lpSrc) ↔ ∀ h ∈ headers, isSameName api h lpSrc = false := by
  have hself : [lpSrc].filter (isSameName api · lpSrc) = [lpSrc] :=
    List.filter_cons_of_pos (isSameName_self lpSrc)
  have hother : [lpSrc].filter (!isSameName api · lpSrc) = [] := by
    rw [List.filter_cons_of_neg (by rw [isSameName_self]; exact Bool.false_ne_true), List.filter_nil]
  constructor
  · rintro ⟨headers', hmerge, hreplaced⟩ h hh
    rw [mergeHeader_force] at hmerge
    obtain rfl := Except.ok.inj hmerge
    have honly := hreplaced.only
    rw [List.filter_append, hself] at honly
    have hnil := List.append_left_eq_self.mp honly
    exact Bool.eq_false_iff.mpr (List.filter_eq_nil_iff.mp hnil h hh)
  · intro hnone
    refine ⟨_, mergeHeader_force headers lpSrc, ?_, ?_⟩
    · rw [List.filter_append, hself, List.filter_eq_nil_iff.mpr fun h hh => by
        rw [hnone h hh]
        exact Bool.false_ne_true]
      rfl
    · rw [List.filter_append, hother]
      exact List.append_nil _

/-- An array that another one is assigned to is left empty. -/
theorem assign_eq (headers cSrc : List η) : assign headers cSrc false = [] := rfl

/-- **When merging and assigning do what they should**: a header replaces the one of its name
only where there is none, and an array is copied only where it is empty, or is the same. -/
theorem headerArray_iff :
    (∀ (headers : List η) (lpSrc : η), DistinctNames api headers →
      ((∃ headers', mergeHeader api headers lpSrc true = .ok headers' ∧
        Replaced api headers headers' lpSrc) ↔ ∀ h ∈ headers, isSameName api h lpSrc = false)) ∧
    ∀ (headers cSrc : List η) (bSame : Bool), (bSame = true → headers = cSrc) →
      (assign headers cSrc bSame = cSrc ↔ bSame = true ∨ cSrc = []) := by
  constructor
  · intro headers lpSrc _
    exact replaced_iff
  · intro headers cSrc bSame hsame
    cases bSame with
    | true => exact iff_of_true (hsame rfl) (Or.inl rfl)
    | false =>
      rw [assign_eq, or_iff_right Bool.false_ne_true]
      exact eq_comm

/-- Headers as a name and a value. -/
def plainHeaders : HeaderMethods (List Byte × List Byte) :=
  ⟨Prod.fst, fun _ => .error, fun _ _ => .error .mxUnsupported⟩

theorem headerArray_other :
    (∃ headers', mergeHeader plainHeaders [(ascii "Host", ascii "a")] (ascii "Age", ascii "1") true =
        .ok headers' ∧
      Replaced plainHeaders [(ascii "Host", ascii "a")] headers' (ascii "Age", ascii "1")) ∧
    assign [(ascii "Host", ascii "a")] [] false = [] :=
  have hlaws := @headerArray_iff _ plainHeaders
  ⟨(hlaws.1 _ _ (List.pairwise_singleton _ _)).mpr (by decide),
    (hlaws.2 _ _ false (fun h => absurd h Bool.false_ne_true)).mpr (Or.inr rfl)⟩

/-- A header stays beside the one that was to replace it, and a copied array is empty. -/
theorem headerArray_twice :
    (¬ ∀ (headers : List (List Byte × List Byte)) lpSrc, DistinctNames plainHeaders headers →
      ∃ headers', mergeHeader plainHeaders headers lpSrc true = .ok headers' ∧
        Replaced plainHeaders headers headers' lpSrc) ∧
    ¬ ∀ headers : List (List Byte × List Byte), assign [] headers false = headers := by
  constructor
  · intro h
    obtain ⟨headers', hmerge, hreplaced⟩ :=
      h [(ascii "Age", ascii "1")] (ascii "Age", ascii "2") (List.pairwise_singleton _ _)
    obtain rfl := Except.ok.inj hmerge
    exact absurd hreplaced.only (by decide)
  · intro h
    exact absurd (h [(ascii "Age", ascii "1")]) (by decide)

end HeaderArray

end MxLib.Http
