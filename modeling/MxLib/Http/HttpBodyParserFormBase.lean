import MxLib.Strings.Strings

/-!
# Fields of a form

`addField` is `CHttpBodyParserFormBase::AddField`.  The name of a field may end in
indexes in square brackets; they lead through the tree of fields below it.  An index
without text stands for the number after the biggest one.  Allocation does not fail.

The source walks the tree with a pointer and changes the fields it passes; here the
walk is `CField.assign`, which rebuilds them.
-/

namespace MxLib.Http

def bracketW : WChar := 0x5B
def closeBracketW : WChar := 0x5D
def zeroW : WChar := 0x30
def nineW : WChar := 0x39

/-- `IsNumeric` -/
def isNumeric (szNumberW : List WChar) : Bool :=
  (szStr szNumberW).all fun chW => zeroW ≤ chW && chW ≤ nineW

/-- `NumericCompare(szNumber1, szNumber2) < 0` -/
def numericLess : List WChar → List WChar → Bool
  | [], [] => false
  | [], _ :: _ => true
  | _ :: _, [] => false
  | ch1 :: szNumber1, ch2 :: szNumber2 =>
    if ch1 == ch2 then numericLess szNumber1 szNumber2
    else if szNumber1.length < szNumber2.length then true
    else if szNumber1.length > szNumber2.length then false
    else ch1 < ch2

/-! ### Names and indexes -/

/-- A dot of a name becomes an underscore. -/
def dotToUnderscore (chW : WChar) : WChar := if chW == 0x2E then 0x5F else chW

/-- Leading zeros of a number are removed; one is left of a number that has no other
digit. -/
def trimIndex (cStrCurrSubIndexW : List WChar) : List WChar :=
  if !cStrCurrSubIndexW.isEmpty && isNumeric cStrCurrSubIndexW then
    match cStrCurrSubIndexW.dropWhile (· == zeroW) with
    | [] => [zeroW]
    | sW => sW
  else cStrCurrSubIndexW

/-- An element of `aSubIndexesList`; an empty string is detached as `NULL`. -/
def detach (cStrW : List WChar) : Option (List WChar) := if cStrW.isEmpty then none else some cStrW

/-- The loop over the indexes, of which `nLeft` more are allowed, and what follows. -/
def parseIndexes : Nat → List WChar → Except HResult (List (Option (List WChar)))
  | _, [] => .ok []
  | 0, chW :: _ => if chW == bracketW then .error .mxUnsupported else .error .eInvalidArg
  | nLeft + 1, chW :: szNameW =>
    if chW == bracketW then
      match szNameW.dropWhile (· != closeBracketW) with
      | [] => .error .eInvalidArg
      | _ :: rest =>
        let cStrCurrSubIndexW := (szNameW.takeWhile (· != closeBracketW)).map dotToUnderscore
        (parseIndexes nLeft rest).map (detach (trimIndex cStrCurrSubIndexW) :: ·)
    else .error .eInvalidArg

/-- `MAX_SUBINDEXES_COUNT` -/
def maxSubindexesCount : Nat := 16

/-- `ParseNameAndIndexes`: `cStrNameW` and `aSubIndexesList`. -/
def parseNameAndIndexes (szNameW : List WChar) :
    Except HResult (List WChar × List (Option (List WChar))) :=
  let szNameW := szStr szNameW
  let cStrNameW := (szNameW.takeWhile (· != bracketW)).map dotToUnderscore
  if cStrNameW.isEmpty then .error .eInvalidArg
  else (parseIndexes maxSubindexesCount (szNameW.dropWhile (· != bracketW))).map (cStrNameW, ·)

/-! ### Fields -/

/-- `CField` -/
inductive CField
  | field (cStrNameW cStrValueW : List WChar) (aSubIndexesItems : List CField)

namespace CField

def name : CField → List WChar
  | field cStrNameW _ _ => cStrNameW

/-- `ClearValue` -/
def clearValue : CField → CField
  | field cStrNameW _ aSubIndexesItems => field cStrNameW [] aSubIndexesItems

/-- The biggest number among the names. -/
def biggestIndex (aSubIndexesItems : List CField) : List WChar :=
  aSubIndexesItems.foldl (fun cStrIndexW lpChildField =>
    if isNumeric lpChildField.name &&
        (cStrIndexW.isEmpty || numericLess cStrIndexW lpChildField.name) then lpChildField.name
    else cStrIndexW) []

/-- A number with 1 added to it, and whether a carry is left. -/
def increment : List WChar → List WChar × Bool
  | [] => ([], true)
  | chW :: sW =>
    match increment sW with
    | (sW, false) => (chW :: sW, false)
    | (sW, true) => if chW + 1 ≤ nineW then ((chW + 1) :: sW, false) else ((chW + 1 - 10) :: sW, true)

/-- The index after the biggest one. -/
def nextIndex (aSubIndexesItems : List CField) : List WChar :=
  match biggestIndex aSubIndexesItems with
  | [] => [zeroW]
  | cStrIndexW =>
    match increment cStrIndexW with
    | (sW, false) => sW
    | (sW, true) => 0x31 :: sW

/-- The walk along the indexes, and the value at its end. -/
def assign (szValueW : List WChar) : List (Option (List WChar)) → CField → CField
  | [], field cStrNameW _ aSubIndexesItems => field cStrNameW szValueW aSubIndexesItems
  | idx :: aSubIndexesList, field cStrNameW _ aSubIndexesItems =>
    let sW := idx.getD (nextIndex aSubIndexesItems)
    match aSubIndexesItems.findIdx? fun lpChildField => strCompareW sW lpChildField.name true with
    | some i =>
      field cStrNameW [] (aSubIndexesItems.modify i fun lpChildField =>
        assign szValueW aSubIndexesList lpChildField.clearValue)
    | none =>
      field cStrNameW []
        (aSubIndexesItems ++ [assign szValueW aSubIndexesList (field sW [] [])])

end CField

/-- `AddField`; the fields are looked through from the last one on. -/
def addField (cFieldsList : List CField) (szNameW szValueW : List WChar) :
    Except HResult (List CField) :=
  match parseNameAndIndexes szNameW with
  | .error hRes => .error hRes
  | .ok (cStrNameW, aSubIndexesList) =>
    let assign := CField.assign (szStr szValueW) aSubIndexesList
    match cFieldsList.reverse.findIdx? fun lpField => strCompareW cStrNameW lpField.name true with
    | some i => .ok (cFieldsList.reverse.modify i assign).reverse
    | none => .ok (cFieldsList ++ [assign (.field cStrNameW [] [])])

/-- Whether a field can be added is a matter of its name. -/
theorem addField_isOk (cFieldsList : List CField) (szNameW szValueW : List WChar) :
    (addField cFieldsList szNameW szValueW).isOk = (parseNameAndIndexes szNameW).isOk := by
  unfold addField
  cases parseNameAndIndexes szNameW with
  | error hRes => rfl
  | ok r =>
    obtain ⟨cStrNameW, aSubIndexesList⟩ := r
    dsimp only
    split <;> rfl

theorem parseIndexes_failed {nLeft : Nat} {szNameW : List WChar} {hRes : HResult}
    (h : parseIndexes nLeft szNameW = .error hRes) : hRes.failed = true := by
  induction nLeft generalizing szNameW hRes with
  | zero =>
    cases szNameW with
    | nil => cases h
    | cons chW szNameW =>
      rw [parseIndexes] at h
      split at h <;> (obtain rfl := Except.error.inj h; rfl)
  | succ nLeft ih =>
    cases szNameW with
    | nil => cases h
    | cons chW szNameW =>
      rw [parseIndexes] at h
      split at h
      · split at h
        · obtain rfl := Except.error.inj h
          rfl
        next rest hrest =>
          cases hr : parseIndexes nLeft rest with
          | ok r =>
            rw [hr] at h
            cases h
          | error hRes' =>
            rw [hr] at h
            obtain rfl := Except.error.inj h
            exact ih hr
      · obtain rfl := Except.error.inj h
        rfl

theorem addField_failed {cFieldsList : List CField} {szNameW szValueW : List WChar} {hRes : HResult}
    (h : addField cFieldsList szNameW szValueW = .error hRes) : hRes.failed = true := by
  rw [addField] at h
  split at h
  next hRes' hname =>
    obtain rfl := Except.error.inj h
    rw [parseNameAndIndexes] at hname
    split at hname
    · obtain rfl := Except.error.inj hname
      rfl
    · cases hr : parseIndexes maxSubindexesCount ((szStr szNameW).dropWhile (· != bracketW)) with
      | ok r =>
        rw [hr] at hname
        cases hname
      | error hRes'' =>
        rw [hr] at hname
        obtain rfl := Except.error.inj hname
        exact parseIndexes_failed hr
  next =>
    dsimp only at h
    split at h <;> cases h

end MxLib.Http
