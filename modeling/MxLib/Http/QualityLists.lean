import Mathlib.Tactic.Linarith
import Mathlib.Tactic.NormNum
import MxLib.Http.HttpHeaderEntContentLength
import MxLib.Http.HttpHeaderReqAccept

/-!
# Lists with weights

`CHttpHeaderReqAcceptEncoding`, `CHttpHeaderReqAcceptLanguage` and `CHttpHeaderReqAcceptCharset`
have the same `Parse`, but for the names they take, and for the equal sign in front of a weight: the
first of them does not step over it, and so reads no weight there and refuses what follows
(`qualityLists_iff`).

A `double` is a rational number here, and the function of the runtime library that reads one is a
parameter.
-/

namespace MxLib.Http.Quality

open MxLib.Http MxLib.Library

/-- `CEncoding`, `CLanguage` and `CCharset` -/
structure Item where
  cStrNameA : List Byte
  q : Rat
deriving DecidableEq

/-- What the classes differ in. -/
structure ItemsClass where
  /-- The check of `SetEncoding`, `SetLanguage` and `SetCharset`. -/
  isName : List Byte → Bool
  /-- Whether `Parse` steps over the equal sign. -/
  bSkipsEquals : Bool

/-! ### The names -/

/-- The check of `SetEncoding` and `SetCharset`. -/
def isCoding (szNameA : List Byte) : Bool :=
  if charAt szNameA 0 == chAsterisk then szNameA.drop 1 == [] else (getToken szNameA).2 == []

def isLetter (ch : Byte) : Bool := (0x41 ≤ ch && ch ≤ 0x5A) || (0x61 ≤ ch && ch ≤ 0x7A)

def isLetterOrDigit (ch : Byte) : Bool := isLetter ch || isDigit ch

/-- The parts of a language behind its first one, of which there are fewer than `fuel`. -/
def skipSubtags : Nat → List Byte → Option (List Byte)
  | 0, _ => none
  | fuel + 1, szLanguageA =>
    if charAt szLanguageA 0 != chDash then some szLanguageA
    else
      let szStartA := szLanguageA.drop 1
      let nLen := (szStartA.takeWhile isLetterOrDigit).length
      if nLen = 0 ∨ nLen > 8 then none
      else skipSubtags fuel (szStartA.dropWhile isLetterOrDigit)

/-- The check of `SetLanguage`. -/
def isLanguage (szLanguageA : List Byte) : Bool :=
  if charAt szLanguageA 0 == chAsterisk then szLanguageA.drop 1 == []
  else
    let nLen := (szLanguageA.takeWhile isLetter).length
    if nLen = 0 ∨ nLen > 8 then false
    else skipSubtags (szLanguageA.length + 1) (szLanguageA.dropWhile isLetter) == some []

def acceptEncoding : ItemsClass where
  isName := isCoding
  bSkipsEquals := false

def acceptLanguage : ItemsClass where
  isName := isLanguage
  bSkipsEquals := true

def acceptCharset : ItemsClass where
  isName := isCoding
  bSkipsEquals := true

/-! ### `Parse` -/

/-- `SetQ` -/
def setQ (q : Rat) : Except HResult Rat :=
  if q < -1 / 1000000 ∨ q > 1000001 / 1000000 then .error .eInvalidArg
  else .ok (if q > 1 / 1000000 then (if q < 99999 / 100000 then q else 1) else 0)

/-- `AddEncoding`, `AddLanguage` and `AddCharset`: the list without an item of the same name. -/
def ItemsClass.addItem (C : ItemsClass) (aItems : List Item) (szNameA : List Byte) :
    Except HResult (List Item) :=
  if szNameA = [] || !C.isName szNameA then .error .mxInvalidData
  else .ok (aItems.eraseP fun i => strCompareA i.cStrNameA szNameA true)

/-- The characters of a weight. -/
def isNumberChar (ch : Byte) : Bool := isDigit ch || ch == 0x2E

section Parse

variable (C : ItemsClass) (atodbl : List Byte → Except HResult Rat)

/-- `StrToDoubleA` -/
def strToDoubleA (szSrcA : List Byte) : Except HResult Rat :=
  if szSrcA = [] then .ok 0 else atodbl szSrcA

/-- The weight behind a semicolon, and what follows it. -/
def ItemsClass.weight (sA : List Byte) : Except HResult (Rat × List Byte) :=
  let sA := skipSpaces sA
  if charAt sA 0 != 0x71 then .error .mxInvalidData
  else
    let sA := skipSpaces (sA.drop 1)
    if charAt sA 0 != chEquals then .error .mxInvalidData
    else
      let szStartA := skipSpaces (if C.bSkipsEquals then sA.drop 1 else sA)
      match strToDoubleA atodbl (szStartA.takeWhile isNumberChar) with
      | .error hRes => .error hRes
      | .ok nDbl => (setQ nDbl).map fun q => (q, szStartA.dropWhile isNumberChar)

/-- The weight of an item, which is 1 if there is none, and what follows it. -/
def ItemsClass.param (sA : List Byte) : Except HResult (Rat × List Byte) :=
  if charAt sA 0 == chSemicolon then C.weight atodbl (sA.drop 1) else .ok (1, sA)

/-- What follows an item: a comma, or the end. -/
def separator (aItems : List Item) (bGotItem : Bool) :
    List Byte → ItemsScan Item ⊕ ItemsResult Item
  | [] => .inr ⟨.sOk, aItems, bGotItem⟩
  | ch :: rest =>
    if ch == chComma then
      if rest = [] then .inr ⟨.sOk, aItems, bGotItem⟩ else .inl ⟨aItems, bGotItem, rest⟩
    else .inr ⟨.mxInvalidData, aItems, bGotItem⟩

/-- A turn of the loop, and its exit. -/
def ItemsClass.turn (s : ItemsScan Item) : ItemsScan Item ⊕ ItemsResult Item :=
  let szStartA := skipSpaces s.sA
  if szStartA = [] then .inr ⟨.sOk, s.aItems, s.bGotItem⟩
  else
    let szValueA := skipUntil szWordEnds szStartA
    let szNameA := szStartA.take (szStartA.length - szValueA.length)
    if szNameA = [] then separator s.aItems s.bGotItem (skipSpaces szValueA)
    else
      match C.addItem s.aItems szNameA with
      | .error hRes => .inr ⟨hRes, s.aItems, true⟩
      | .ok aItems =>
        match C.param atodbl (skipSpaces szValueA) with
        | .error hRes => .inr ⟨hRes, aItems ++ [⟨szNameA, 1⟩], true⟩
        | .ok (q, sA) => separator (aItems ++ [⟨szNameA, q⟩]) true (skipSpaces sA)

/-- `Parse`: the code, and the list afterwards. -/
def ItemsClass.parse (aItems : List Item) (szValueA : List Byte) : HResult × List Item :=
  let r := Loop.exec (C.turn atodbl) (fun s => s.sA.length) ⟨.mxInvalidData, aItems, false⟩
    ⟨aItems, false, szValueA⟩
  if r.hRes.failed then (r.hRes, r.aItems)
  else if !r.bGotItem then (.mxInvalidData, r.aItems)
  else (.sOk, r.aItems)

end Parse

/-! ### Lists as they are written -/

/-- A weight of at most three decimals, from 0 to 1. -/
structure QValue where
  isOne : Bool
  decimals : Option (List Byte)
  length_le : ∀ d ∈ decimals, d.length ≤ 3
  digits : ∀ d ∈ decimals, ∀ ch ∈ d, isDigit ch = true
  zeros : isOne = true → ∀ d ∈ decimals, ∀ ch ∈ d, ch = 0x30

def QValue.text (v : QValue) : List Byte :=
  (if v.isOne then 0x31 else 0x30) :: v.decimals.elim [] fun d => 0x2E :: d

def QValue.value (v : QValue) : Rat :=
  (if v.isOne then 1 else 0) + v.decimals.elim 0 fun d => (decimalFrom 0 d : Rat) / 10 ^ d.length

/-- An item with the blanks around its parts. -/
structure Listed where
  name : List Byte
  isToken : name.all isTokenChar = true
  notEmpty : name ≠ []
  q : Option QValue
  before : Blanks
  afterName : Blanks
  beforeQ : Blanks
  afterQ : Blanks
  afterEquals : Blanks
  afterValue : Blanks

/-- The weight of an item, in front of `rest`. -/
def Listed.weight (i : Listed) (v : QValue) (rest : List Byte) : List Byte :=
  chSemicolon :: (i.beforeQ.text ++ 0x71 :: (i.afterQ.text ++ chEquals :: (i.afterEquals.text ++
    (v.text ++ (i.afterValue.text ++ rest)))))

/-- The item in front of `rest`. -/
def Listed.write (i : Listed) (rest : List Byte) : List Byte :=
  i.before.text ++ (i.name ++ (i.afterName.text ++ i.q.elim rest fun v => i.weight v rest))

def Listed.item (i : Listed) : Item := ⟨i.name, i.q.elim 1 QValue.value⟩

/-- What follows the first item of a list. -/
def moreListed : List Listed → List Byte
  | [] => []
  | i :: l => chComma :: i.write (moreListed l)

/-- The items of a list with commas between them. -/
def listedText : List Listed → List Byte
  | [] => []
  | i :: l => i.write (moreListed l)

/-- The names are distinct, also without regard to case. -/
def DistinctNames (l : List Listed) : Prop :=
  l.Pairwise fun i j => i.name.map lowerA ≠ j.name.map lowerA

/-- **A list is read as it is written.** -/
def ItemsClass.ParsesAsWritten (C : ItemsClass) (atodbl : List Byte → Except HResult Rat)
    (l : List Listed) : Prop :=
  C.parse atodbl [] (listedText l) = (.sOk, l.map Listed.item)

/-- The name of an item is one of the class, and it has no weight if the class does not step over
the equal sign. -/
structure ItemsClass.Takes (C : ItemsClass) (i : Listed) : Prop where
  name : C.isName i.name = true
  weight : C.bSkipsEquals = false → i.q = none

/-! ### The weights -/

/-- The digits of a number below a power of ten. -/
theorem decimalFrom_lt {d : List Byte} (h : ∀ ch ∈ d, isDigit ch = true) :
    ∀ n, decimalFrom n d < (n + 1) * 10 ^ d.length := by
  induction d with
  | nil =>
    intro n
    rw [List.length_nil, Nat.pow_zero, Nat.mul_one]
    exact Nat.lt_succ_self n
  | cons ch d ih =>
    intro n
    have hch := h ch List.mem_cons_self
    have hdigit : digitValue ch ≤ 9 := by
      rw [isDigit, Bool.and_eq_true, decide_eq_true_iff, decide_eq_true_iff,
        UInt8.le_iff_toNat_le, UInt8.le_iff_toNat_le] at hch
      obtain ⟨-, hle⟩ := hch
      rw [digitValue]
      exact Nat.sub_le_of_le_add hle
    calc decimalFrom n (ch :: d) = decimalFrom (10 * n + digitValue ch) d := rfl
      _ < (10 * n + digitValue ch + 1) * 10 ^ d.length :=
        ih (fun c hc => h c (List.mem_cons_of_mem _ hc)) _
      _ ≤ ((n + 1) * 10) * 10 ^ d.length := Nat.mul_le_mul_right _ (by omega)
      _ = (n + 1) * 10 ^ (ch :: d).length := by
        rw [List.length_cons, Nat.pow_succ', Nat.mul_assoc]

theorem decimalFrom_zeros {d : List Byte} (h : ∀ ch ∈ d, ch = 0x30) : decimalFrom 0 d = 0 := by
  induction d with
  | nil => rfl
  | cons ch d ih =>
    obtain rfl := h ch List.mem_cons_self
    exact ih fun c hc => h c (List.mem_cons_of_mem _ hc)

/-- A weight is 0, or a number of thousandths, or 1. -/
theorem QValue.value_cases (v : QValue) :
    v.value = 0 ∨ (1 / 1000 ≤ v.value ∧ v.value ≤ 999 / 1000) ∨ v.value = 1 := by
  rw [QValue.value]
  cases hd : v.decimals with
  | none =>
    cases v.isOne with
    | false => exact .inl (by norm_num)
    | true => exact .inr (.inr (by norm_num))
  | some d =>
    rw [Option.elim_some]
    cases hone : v.isOne with
    | true =>
      rw [decimalFrom_zeros (v.zeros hone d hd)]
      exact .inr (.inr (by norm_num))
    | false =>
      have hlt := decimalFrom_lt (v.digits d hd) 0
      have hlen := v.length_le d hd
      generalize decimalFrom 0 d = n at hlt ⊢
      rw [if_neg (by decide), zero_add]
      by_cases hzero : n = 0
      · rw [hzero]
        exact .inl (by norm_num)
      · -- there is a digit that is not 0 among three at most
        refine .inr (.inl ?_)
        have hpos : (1 : Rat) ≤ n := by exact_mod_cast Nat.one_le_iff_ne_zero.mpr hzero
        generalize d.length = k at hlt hlen ⊢
        obtain rfl | rfl | rfl | rfl : k = 0 ∨ k = 1 ∨ k = 2 ∨ k = 3 := by omega
        · omega
        · have hle : (n : Rat) ≤ 9 := by exact_mod_cast (show n ≤ 9 by omega)
          constructor <;> linarith
        · have hle : (n : Rat) ≤ 99 := by exact_mod_cast (show n ≤ 99 by omega)
          constructor <;> linarith
        · have hle : (n : Rat) ≤ 999 := by exact_mod_cast (show n ≤ 999 by omega)
          constructor <;> linarith

/-- **`SetQ` keeps a weight.** -/
theorem setQ_value (v : QValue) : setQ v.value = .ok v.value := by
  rw [setQ]
  rcases v.value_cases with hv | ⟨hlo, hhi⟩ | hv
  · rw [hv]
    norm_num
  · rw [if_neg (by intro hor; rcases hor with h | h <;> linarith), if_pos (by linarith),
      if_pos (by linarith)]
  · rw [hv]
    norm_num

/-! ### One item -/

def Listed.word (i : Listed) : Word := ⟨i.name, i.notEmpty, all_isWordChar i.isToken⟩

theorem contains_szWordEnds_of_isBlank (ch : Byte) (h : isBlank ch = true) :
    szWordEnds.contains ch = true := by
  rw [isBlank, Bool.or_eq_true, beq_iff_eq, beq_iff_eq] at h
  rcases h with rfl | rfl
  · decide
  · decide

/-- Behind a name there is nothing, or a character that ends it. -/
theorem endsWord_blanks (b : Blanks) {rest : List Byte}
    (h : rest = [] ∨ szWordEnds.contains (charAt rest 0) = true) :
    b.text ++ rest = [] ∨ szWordEnds.contains (charAt (b.text ++ rest) 0) = true := by
  obtain ⟨text, htext⟩ := b
  cases text with
  | nil => exact h
  | cons ch text =>
    exact .inr (contains_szWordEnds_of_isBlank ch
      (List.all_eq_true.mp htext ch List.mem_cons_self))

theorem isNumberChar_of_isBlank (ch : Byte) (h : isBlank ch = true) : isNumberChar ch = false := by
  rw [isBlank, Bool.or_eq_true, beq_iff_eq, beq_iff_eq] at h
  rcases h with rfl | rfl
  · decide
  · decide

theorem isNumberChar_text (v : QValue) : ∀ ch ∈ v.text, isNumberChar ch = true := by
  intro ch hch
  rw [QValue.text] at hch
  rcases List.mem_cons.mp hch with rfl | hch
  · cases v.isOne <;> decide
  · cases hd : v.decimals with
    | none =>
      rw [hd] at hch
      cases hch
    | some d =>
      rw [hd, Option.elim_some] at hch
      rcases List.mem_cons.mp hch with rfl | hch
      · decide
      · rw [isNumberChar, v.digits d hd ch hch]
        rfl

section Item

variable {C : ItemsClass} {atodbl : List Byte → Except HResult Rat} {tail : List Byte} {i : Listed}

/-- The head of the list that is left is no part of a number. -/
theorem takeWhile_number (v : QValue) (b : Blanks) (htail : EndsItem tail) :
    (v.text ++ (b.text ++ tail)).takeWhile isNumberChar = v.text ∧
      (v.text ++ (b.text ++ tail)).dropWhile isNumberChar = b.text ++ tail := by
  have hstop : isNumberChar (charAt (b.text ++ tail) 0) = false := by
    refine charAt_blanks isNumberChar_of_isBlank b ?_
    rcases htail with rfl | ⟨rest, rfl⟩
    · decide
    · exact show isNumberChar chComma = false by decide
  rw [List.takeWhile_append_of_pos (isNumberChar_text v),
    List.dropWhile_append_of_pos (isNumberChar_text v)]
  cases hrest : b.text ++ tail with
  | nil => exact ⟨List.append_nil _, rfl⟩
  | cons ch rest =>
    rw [hrest, charAt_cons_zero] at hstop
    rw [List.takeWhile_cons_of_neg (by rw [hstop]; decide),
      List.dropWhile_cons_of_neg (by rw [hstop]; decide)]
    exact ⟨List.append_nil _, rfl⟩

theorem param_end (htail : EndsItem tail) : C.param atodbl tail = .ok (1, tail) := by
  rcases htail with rfl | ⟨rest, rfl⟩
  · rfl
  · rfl

/-- **A weight is read** where the equal sign is stepped over. -/
theorem param_weight (hskips : C.bSkipsEquals = true)
    (hexact : ∀ v : QValue, atodbl v.text = .ok v.value) (i : Listed) (v : QValue)
    (htail : EndsItem tail) :
    C.param atodbl (i.weight v tail) = .ok (v.value, i.afterValue.text ++ tail) := by
  have hvalue : skipSpaces (v.text ++ (i.afterValue.text ++ tail)) =
      v.text ++ (i.afterValue.text ++ tail) := by
    rw [QValue.text, List.cons_append]
    cases v.isOne <;> exact skipSpaces_cons (by decide) _
  obtain ⟨htake, hdrop⟩ := takeWhile_number v i.afterValue htail
  have hne : v.text ≠ [] := List.cons_ne_nil _ _
  rw [Listed.weight, ItemsClass.param, charAt_cons_zero, if_pos (beq_self_eq_true _), List.drop_one,
    List.tail_cons, ItemsClass.weight]
  dsimp only
  rw [skipSpaces_blanks, skipSpaces_cons (by decide), charAt_cons_zero, if_neg (by decide),
    List.drop_one, List.tail_cons, skipSpaces_blanks, skipSpaces_cons (by decide),
    charAt_cons_zero, if_neg (by decide), hskips, if_pos rfl, List.drop_one, List.tail_cons,
    skipSpaces_blanks, hvalue, htake, hdrop, strToDoubleA, if_neg hne, hexact]
  dsimp only
  rw [setQ_value]
  rfl

/-- **No weight is read** where it is not: the equal sign is still there. -/
theorem param_equals (hskips : C.bSkipsEquals = false) (i : Listed) (v : QValue) :
    ∃ rest, C.param atodbl (i.weight v tail) = .ok (0, chEquals :: rest) := by
  have hzero : setQ 0 = .ok 0 := by
    rw [setQ]
    norm_num
  refine ⟨i.afterEquals.text ++ (v.text ++ (i.afterValue.text ++ tail)), ?_⟩
  rw [Listed.weight, ItemsClass.param, charAt_cons_zero, if_pos (beq_self_eq_true _), List.drop_one,
    List.tail_cons, ItemsClass.weight]
  dsimp only
  rw [skipSpaces_blanks, skipSpaces_cons (by decide), charAt_cons_zero, if_neg (by decide),
    List.drop_one, List.tail_cons, skipSpaces_blanks, skipSpaces_cons (by decide),
    charAt_cons_zero, if_neg (by decide), hskips, if_neg (by decide), skipSpaces_cons (by decide),
    List.takeWhile_cons_of_neg (by decide), List.dropWhile_cons_of_neg (by decide), strToDoubleA,
    if_pos rfl]
  dsimp only
  rw [hzero]
  rfl

/-- A turn at an item. -/
theorem turn_write (aItems : List Item) (bGotItem : Bool) (i : Listed) (htail : EndsItem tail) :
    C.turn atodbl ⟨aItems, bGotItem, i.write tail⟩ =
      match C.addItem aItems i.name with
      | .error hRes => .inr ⟨hRes, aItems, true⟩
      | .ok aItems =>
        match C.param atodbl (i.q.elim tail fun v => i.weight v tail) with
        | .error hRes => .inr ⟨hRes, aItems ++ [⟨i.name, 1⟩], true⟩
        | .ok (q, sA) => separator (aItems ++ [⟨i.name, q⟩]) true (skipSpaces sA) := by
  have hrest : skipSpaces (i.q.elim tail fun v => i.weight v tail) =
      i.q.elim tail fun v => i.weight v tail := by
    cases i.q with
    | none => exact skipSpaces_end htail
    | some v => exact skipSpaces_cons (by decide) _
  have hends : (i.q.elim tail fun v => i.weight v tail) = [] ∨
      szWordEnds.contains (charAt (i.q.elim tail fun v => i.weight v tail) 0) = true := by
    cases i.q with
    | none =>
      rcases htail with rfl | ⟨rest, rfl⟩
      · exact .inl rfl
      · exact .inr (show szWordEnds.contains chComma = true by decide)
    | some v => exact .inr (show szWordEnds.contains chSemicolon = true by decide)
  obtain ⟨huntil, htake⟩ := skipUntil_word i.word (endsWord_blanks i.afterName hends)
  have hstart : skipSpaces (i.write tail) =
      i.name ++ (i.afterName.text ++ i.q.elim tail fun v => i.weight v tail) := by
    rw [Listed.write, skipSpaces_blanks]
    exact skipSpaces_word i.word _
  have hne : i.name ++ (i.afterName.text ++ i.q.elim tail fun v => i.weight v tail) ≠ [] :=
    List.append_ne_nil_of_left_ne_nil i.notEmpty _
  rw [ItemsClass.turn]
  dsimp only
  rw [hstart, if_neg hne, show i.name = i.word.text from rfl, huntil, htake, skipSpaces_blanks,
    hrest, if_neg i.word.notEmpty]

/-! ### The list -/

/-- A new name removes nothing. -/
theorem addItem_new (hname : C.isName i.name = true) {done : List Listed}
    (hnew : ∀ j ∈ done, j.name.map lowerA ≠ i.name.map lowerA) :
    C.addItem (done.map Listed.item) i.name = .ok (done.map Listed.item) := by
  have hkeep : (done.map Listed.item).eraseP (fun j => strCompareA j.cStrNameA i.name true) =
      done.map Listed.item := by
    refine List.eraseP_of_forall_not fun j hj => ?_
    obtain ⟨k, hk, rfl⟩ := List.mem_map.mp hj
    rw [Listed.item, strCompareA]
    dsimp only
    rw [if_pos rfl, if_pos rfl, szStr_token k.isToken, szStr_token i.isToken, beq_iff_eq]
    exact hnew k hk
  rw [ItemsClass.addItem, decide_eq_false i.notEmpty, hname, hkeep]
  rfl

/-- **A turn at an item that the class takes.** -/
theorem turn_takes (hexact : ∀ v : QValue, atodbl v.text = .ok v.value) (hi : C.Takes i)
    {done : List Listed} (hnew : ∀ j ∈ done, j.name.map lowerA ≠ i.name.map lowerA)
    (bGotItem : Bool) (htail : EndsItem tail) :
    C.turn atodbl ⟨done.map Listed.item, bGotItem, i.write tail⟩ =
      separator ((done ++ [i]).map Listed.item) true tail := by
  have hitem : C.param atodbl (i.q.elim tail fun v => i.weight v tail) =
      .ok (i.q.elim 1 QValue.value, i.q.elim tail fun _ => i.afterValue.text ++ tail) := by
    cases hq : i.q with
    | none => exact param_end htail
    | some v =>
      have hskips : C.bSkipsEquals = true := by
        cases hskips : C.bSkipsEquals with
        | true => rfl
        | false =>
          rw [hi.weight hskips] at hq
          cases hq
      exact param_weight hskips hexact i v htail
  have hrest : skipSpaces (i.q.elim tail fun _ => i.afterValue.text ++ tail) = tail := by
    cases i.q with
    | none => exact skipSpaces_end htail
    | some v => exact (skipSpaces_blanks i.afterValue tail).trans (skipSpaces_end htail)
  rw [turn_write _ _ i htail, addItem_new hi.name hnew, hitem]
  dsimp only
  rw [hrest, List.map_append]
  rfl

/-- **A turn at another item** ends `Parse` with a code. -/
theorem turn_not_takes (hi : ¬ C.Takes i) (aItems : List Item) (bGotItem : Bool)
    (htail : EndsItem tail) :
    ∃ aItems', C.turn atodbl ⟨aItems, bGotItem, i.write tail⟩ =
      .inr ⟨.mxInvalidData, aItems', true⟩ := by
  rw [turn_write _ _ i htail, ItemsClass.addItem]
  cases hname : C.isName i.name with
  | false =>
    rw [Bool.not_false, Bool.or_true, if_pos rfl]
    exact ⟨_, rfl⟩
  | true =>
    -- the class does not step over the equal sign of a weight
    have hskips : C.bSkipsEquals = false := by
      cases hskips : C.bSkipsEquals with
      | false => rfl
      | true => exact absurd ⟨hname, fun h => absurd (hskips.symm.trans h) (by decide)⟩ hi
    cases hq : i.q with
    | none => exact absurd ⟨hname, fun _ => hq⟩ hi
    | some v =>
      have hequals : ∃ rest, C.param atodbl (i.weight v tail) = .ok (0, chEquals :: rest) :=
        param_equals hskips i v
      obtain ⟨rest, hparam⟩ := hequals
      rw [decide_eq_false i.notEmpty, Bool.not_true, Bool.or_false, if_neg (by decide),
        Option.elim_some, hparam]
      dsimp only
      rw [skipSpaces_cons (by decide), separator, if_neg (by decide)]
      exact ⟨_, rfl⟩

theorem endsItem_moreListed (l : List Listed) : EndsItem (moreListed l) := by
  cases l with
  | nil => exact .inl rfl
  | cons i l => exact .inr ⟨_, rfl⟩

theorem write_ne_nil (i : Listed) (rest : List Byte) : i.write rest ≠ [] := by
  rw [Listed.write]
  exact List.append_ne_nil_of_right_ne_nil _ (List.append_ne_nil_of_left_ne_nil i.notEmpty _)

end Item

/-! ### The loop -/

section Parse

variable (C : ItemsClass) (atodbl : List Byte → Except HResult Rat)

theorem weight_suffix {sA sNext : List Byte} {q : Rat}
    (h : C.weight atodbl sA = .ok (q, sNext)) : sNext <:+ sA := by
  have hskip (sA : List Byte) : skipSpaces sA <:+ sA := List.dropWhile_suffix _
  rw [ItemsClass.weight] at h
  dsimp only at h
  split at h
  · cases h
  · split at h
    · cases h
    · split at h
      · cases h
      · obtain ⟨q', -, heq⟩ := exists_of_map_ok h
        obtain ⟨-, rfl⟩ := Prod.mk.inj heq
        refine (List.dropWhile_suffix _).trans ((hskip _).trans ?_)
        have hsuf : skipSpaces ((skipSpaces sA).drop 1) <:+ sA :=
          (hskip _).trans ((List.drop_suffix _ _).trans (hskip _))
        split
        · exact (List.drop_suffix _ _).trans hsuf
        · exact hsuf

theorem param_suffix {sA sNext : List Byte} {q : Rat}
    (h : C.param atodbl sA = .ok (q, sNext)) : sNext <:+ sA := by
  rw [ItemsClass.param] at h
  split at h
  · exact (weight_suffix C atodbl h).trans (List.drop_suffix _ _)
  · obtain ⟨-, rfl⟩ := Prod.mk.inj (Except.ok.inj h)
    exact List.suffix_rfl

/-- A separator is stepped over. -/
theorem separator_length {aItems : List Item} {bGotItem : Bool} {sA : List Byte}
    {t : ItemsScan Item} (h : separator aItems bGotItem sA = .inl t) : t.sA.length < sA.length := by
  cases sA with
  | nil => cases h
  | cons ch rest =>
    rw [separator] at h
    split at h
    · split at h
      · cases h
      · cases h
        exact Nat.lt_succ_self _
    · cases h

/-- **Every turn steps over a comma.** -/
theorem turn_length (s t : ItemsScan Item) (h : C.turn atodbl s = .inl t) :
    t.sA.length < s.sA.length := by
  have hskip (sA : List Byte) : skipSpaces sA <:+ sA := List.dropWhile_suffix _
  have huntil : skipUntil szWordEnds (skipSpaces s.sA) <:+ s.sA :=
    (List.dropWhile_suffix _).trans (hskip _)
  rw [ItemsClass.turn] at h
  dsimp only at h
  split at h
  · cases h
  · split at h
    · exact Nat.lt_of_lt_of_le (separator_length h) ((hskip _).trans huntil).length_le
    · split at h
      · cases h
      · split at h
        · cases h
        next q sNext hparam =>
          have hsuf := (param_suffix C atodbl hparam).trans ((hskip _).trans huntil)
          exact Nat.lt_of_lt_of_le (separator_length h) ((hskip _).trans hsuf).length_le

end Parse

section Run

variable {C : ItemsClass} {atodbl : List Byte → Except HResult Rat}

/-- What the loop makes of a list from `s` on. -/
def ItemsClass.Reads (C : ItemsClass) (atodbl : List Byte → Except HResult Rat) (s : ItemsScan Item)
    (r : ItemsResult Item) : Prop :=
  ∀ dflt, Loop.exec (C.turn atodbl) (fun s => s.sA.length) dflt s = r

theorem reads_of_inr {s : ItemsScan Item} {r : ItemsResult Item}
    (h : C.turn atodbl s = .inr r) : C.Reads atodbl s r :=
  fun dflt => Loop.exec_inr dflt h

theorem reads_of_inl {s t : ItemsScan Item} {r : ItemsResult Item}
    (h : C.turn atodbl s = .inl t) (hr : C.Reads atodbl t r) : C.Reads atodbl s r :=
  fun dflt => (Loop.exec_inl (turn_length C atodbl) dflt h).trans (hr dflt)

/-- **The loop reads the items one by one**, up to one that the class does not take. -/
theorem reads_listed (hexact : ∀ v : QValue, atodbl v.text = .ok v.value) (l : List Listed) :
    ∀ (i : Listed) (done : List Listed) (bGotItem : Bool), DistinctNames (done ++ i :: l) →
      ((∀ j ∈ i :: l, C.Takes j) →
        C.Reads atodbl ⟨done.map Listed.item, bGotItem, i.write (moreListed l)⟩
          ⟨.sOk, (done ++ i :: l).map Listed.item, true⟩) ∧
      (¬ (∀ j ∈ i :: l, C.Takes j) → ∃ aItems,
        C.Reads atodbl ⟨done.map Listed.item, bGotItem, i.write (moreListed l)⟩
          ⟨.mxInvalidData, aItems, true⟩) := by
  induction l with
  | nil =>
    intro i done bGotItem hnames
    have hnew : ∀ j ∈ done, j.name.map lowerA ≠ i.name.map lowerA :=
      fun j hj => (List.pairwise_append.mp hnames).2.2 j hj i List.mem_cons_self
    refine ⟨fun hall => ?_, fun hnot => ?_⟩
    · exact reads_of_inr (turn_takes hexact (hall i List.mem_cons_self) hnew bGotItem (.inl rfl))
    · have hi : ¬ C.Takes i := fun hi => hnot fun j hj => List.mem_singleton.mp hj ▸ hi
      exact (turn_not_takes hi (done.map Listed.item) bGotItem (endsItem_moreListed [])).imp
        fun _ hturn => reads_of_inr hturn
  | cons k l ih =>
    intro i done bGotItem hnames
    have hnew : ∀ j ∈ done, j.name.map lowerA ≠ i.name.map lowerA :=
      fun j hj => (List.pairwise_append.mp hnames).2.2 j hj i List.mem_cons_self
    by_cases hi : C.Takes i
    · have hturn := turn_takes hexact hi hnew bGotItem (endsItem_moreListed (k :: l))
      rw [moreListed, separator, if_pos (beq_self_eq_true chComma),
        if_neg (write_ne_nil k _)] at hturn
      have hrest : done ++ i :: k :: l = (done ++ [i]) ++ k :: l := by
        rw [List.append_assoc, List.singleton_append]
      rw [hrest] at hnames ⊢
      obtain ⟨hgo, hstop⟩ := ih k (done ++ [i]) true hnames
      refine ⟨fun hall => ?_, fun hnot => ?_⟩
      · exact reads_of_inl hturn (hgo fun j hj => hall j (List.mem_cons_of_mem _ hj))
      · obtain ⟨aItems, hreads⟩ := hstop fun hall => hnot (List.forall_mem_cons.mpr ⟨hi, hall⟩)
        exact ⟨aItems, reads_of_inl hturn hreads⟩
    · refine ⟨fun hall => absurd (hall i List.mem_cons_self) hi, fun _ => ?_⟩
      exact (turn_not_takes hi (done.map Listed.item) bGotItem (endsItem_moreListed (k :: l))).imp
        fun _ hturn => reads_of_inr hturn

/-- **A list is read as it is written exactly if the class takes its items**, of which there is
one. -/
theorem parsesAsWritten_iff (hexact : ∀ v : QValue, atodbl v.text = .ok v.value)
    {l : List Listed} (hnames : DistinctNames l) :
    C.ParsesAsWritten atodbl l ↔ l ≠ [] ∧ ∀ i ∈ l, C.Takes i := by
  rw [ItemsClass.ParsesAsWritten, ItemsClass.parse]
  cases l with
  | nil =>
    have hreads : C.Reads atodbl ⟨[], false, listedText []⟩ ⟨.sOk, [], false⟩ := reads_of_inr rfl
    rw [hreads]
    exact iff_of_false (fun h => by cases h) fun h => h.1 rfl
  | cons i l =>
    obtain ⟨hgo, hstop⟩ := reads_listed hexact l i [] false hnames
    rw [and_iff_right (List.cons_ne_nil i l)]
    by_cases hall : ∀ j ∈ i :: l, C.Takes j
    · refine iff_of_true ?_ hall
      have hreads := hgo hall ⟨.mxInvalidData, [], false⟩
      rw [List.map_nil] at hreads
      rw [listedText, hreads]
      rfl
    · refine iff_of_false (fun h => ?_) hall
      obtain ⟨aItems, hreads⟩ := hstop hall
      have hrun := hreads ⟨.mxInvalidData, [], false⟩
      rw [List.map_nil] at hrun
      rw [listedText, hrun] at h
      cases h

end Run

/-- **The three headers**: a list is read as it is written if it is not empty and its names are
those of the header, and in an Accept-Encoding only if no item has a weight. -/
theorem qualityLists_iff {atodbl : List Byte → Except HResult Rat}
    (hexact : ∀ v : QValue, atodbl v.text = .ok v.value) {l : List Listed}
    (hnames : DistinctNames l) :
    (acceptEncoding.ParsesAsWritten atodbl l ↔
        l ≠ [] ∧ ∀ i ∈ l, isCoding i.name = true ∧ i.q = none) ∧
      (acceptLanguage.ParsesAsWritten atodbl l ↔ l ≠ [] ∧ ∀ i ∈ l, isLanguage i.name = true) ∧
      (acceptCharset.ParsesAsWritten atodbl l ↔ l ≠ [] ∧ ∀ i ∈ l, isCoding i.name = true) := by
  have htakes (C : ItemsClass) (i : Listed) :
      C.Takes i ↔ C.isName i.name = true ∧ (C.bSkipsEquals = false → i.q = none) :=
    ⟨fun h => ⟨h.name, h.weight⟩, fun h => ⟨h.1, h.2⟩⟩
  refine ⟨?_, ?_, ?_⟩
  · rw [parsesAsWritten_iff hexact hnames]
    simp only [htakes, acceptEncoding, forall_const]
  · rw [parsesAsWritten_iff hexact hnames]
    simp only [htakes, acceptLanguage, Bool.true_eq_false, false_imp_iff, and_true]
  · rw [parsesAsWritten_iff hexact hnames]
    simp only [htakes, acceptCharset, Bool.true_eq_false, false_imp_iff, and_true]

/-- The number of a text of digits with or without a dot. -/
def readDecimal (szSrcA : List Byte) : Except HResult Rat :=
  let d := (szSrcA.dropWhile isDigit).drop 1
  .ok (decimalFrom 0 (szSrcA.takeWhile isDigit) + (decimalFrom 0 d : Rat) / 10 ^ d.length)

theorem readDecimal_text (v : QValue) : readDecimal v.text = .ok v.value := by
  have hdigit : isDigit (if v.isOne then 0x31 else 0x30) = true := by
    cases v.isOne <;> decide
  have hwhole : ((decimalFrom 0 [if v.isOne then 0x31 else 0x30] : Nat) : Rat) =
      if v.isOne then 1 else 0 := by
    cases v.isOne with
    | false => exact Nat.cast_zero
    | true => exact Nat.cast_one
  rw [readDecimal, QValue.text, QValue.value, ← hwhole, List.takeWhile_cons_of_pos hdigit,
    List.dropWhile_cons_of_pos hdigit]
  cases v.decimals with
  | none =>
    have hzero : ((decimalFrom 0 [] : Nat) : Rat) / 10 ^ ([] : List Byte).length = 0 := by
      rw [show decimalFrom 0 [] = 0 from rfl, Nat.cast_zero, zero_div]
    exact congrArg (fun d => Except.ok (_ + d)) hzero
  | some d => rfl

/-- The weight `0.5`. -/
def half : QValue where
  isOne := false
  decimals := some (ascii "5")
  length_le := by
    intro d hd
    cases hd
    decide
  digits := by
    intro d hd
    cases hd
    exact List.all_eq_true.mp (by decide)
  zeros := nofun

/-- The item `gzip;q=0.5`. -/
def gzipItem : Listed where
  name := ascii "gzip"
  isToken := by decide
  notEmpty := by decide
  q := some half
  before := .none
  afterName := .none
  beforeQ := .none
  afterQ := .none
  afterEquals := .none
  afterValue := .none

theorem qualityLists_gzip :
    (acceptEncoding.ParsesAsWritten readDecimal [gzipItem] ↔
        [gzipItem] ≠ [] ∧ ∀ i ∈ [gzipItem], isCoding i.name = true ∧ i.q = none) ∧
      (acceptLanguage.ParsesAsWritten readDecimal [gzipItem] ↔
        [gzipItem] ≠ [] ∧ ∀ i ∈ [gzipItem], isLanguage i.name = true) ∧
      (acceptCharset.ParsesAsWritten readDecimal [gzipItem] ↔
        [gzipItem] ≠ [] ∧ ∀ i ∈ [gzipItem], isCoding i.name = true) :=
  qualityLists_iff readDecimal_text (List.pairwise_singleton _ _)

/-- The weight of `gzip` is refused in an Accept-Encoding. -/
theorem not_qualityLists_gzip :
    listedText [gzipItem] = ascii "gzip;q=0.5" ∧
      acceptEncoding.parse readDecimal [] (ascii "gzip;q=0.5") =
        (.mxInvalidData, [⟨ascii "gzip", 0⟩]) ∧
      ¬ acceptEncoding.ParsesAsWritten readDecimal [gzipItem] := by
  refine ⟨by decide, by decide +kernel, fun h => ?_⟩
  have hall := (parsesAsWritten_iff readDecimal_text (List.pairwise_singleton _ _)).mp h
  have hnone : some half = none := (hall.2 gzipItem List.mem_cons_self).weight rfl
  cases hnone

end MxLib.Http.Quality
