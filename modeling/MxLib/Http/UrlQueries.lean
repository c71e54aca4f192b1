import MxLib.Http.UrlWiden

/-!
# Query parameters, narrow and wide

The loops over the query parameters of the two versions of `ParseFromString`, for a text of
ASCII without percent and plus signs and for its wide copy.  `queryItems` are the parameters
of the text, each with what stands behind it.  The narrow loop gives up where one has no name;
the wide one passes over it, and for one without an equals sign it stores what stands behind
the separator.
-/

namespace MxLib.Http

/-! ### Plain texts -/

/-- A character of ASCII that is decoded to itself. -/
def isPlainAscii (ch : Byte) : Bool := ch != 0 && ch < 0x80 && ch != 0x25 && ch != 0x2B

def IsPlainAscii (szStrA : List Byte) : Prop := ∀ ch ∈ szStrA, isPlainAscii ch = true

theorem isPlainAscii_facts {ch : Byte} (h : isPlainAscii ch = true) :
    ch ≠ 0 ∧ ch.toNat < 0x80 ∧ ch ≠ 0x25 ∧ isPlainChar ch = true := by
  have hall : ∀ ch : Byte, (!isPlainAscii ch || (ch != 0 && decide (ch.toNat < 0x80) && ch != 0x25 &&
      isPlainChar ch)) = true := forall_byte (by decide)
  have hch := hall ch
  rw [h, Bool.not_true, Bool.false_or] at hch
  simp only [Bool.and_eq_true, bne_iff_ne, decide_eq_true_eq] at hch
  exact ⟨hch.1.1.1, hch.1.1.2, hch.1.2, hch.2⟩

theorem IsPlainAscii.mono {szStrA szStrA' : List Byte} (h : IsPlainAscii szStrA)
    (hsub : ∀ ch ∈ szStrA', ch ∈ szStrA) : IsPlainAscii szStrA' :=
  fun ch hch => h ch (hsub ch hch)

theorem decode_plain {szStrA : List Byte} (h : IsPlainAscii szStrA) : decode szStrA = .ok szStrA :=
  decodeFrom_all (fun ch hch => (isPlainAscii_facts (h ch hch)).2.2.2) (Nat.le_refl _) []

/-- **A plain text is decoded to its wide copy.** -/
theorem decodeText_plain {szStrA : List Byte} (h : IsPlainAscii szStrA) :
    decodeText szStrA = .ok (widen szStrA) := by
  rw [decodeText, decode_plain h]
  exact utf8Decode_ascii fun ch hch => (isPlainAscii_facts (h ch hch)).2.1

/-- A character that ends a query parameter. -/
def isQueryEnd (ch : Byte) : Bool := ch == 0x23 || ch == 0x26

/-- The query parameters of a text, each with what stands behind it. -/
def queryItems : Nat → List Byte → List (List Byte × List Byte)
  | 0, _ => []
  | fuel + 1, szUrlA =>
    match szUrlA with
    | [] => []
    | ch :: rest =>
      if ch == 0x23 then []
      else if ch == 0x26 then queryItems fuel rest
      else
        (szUrlA.takeWhile (!isQueryEnd ·), szUrlA.dropWhile (!isQueryEnd ·)) ::
          queryItems fuel (szUrlA.dropWhile (!isQueryEnd ·))

/-- A search among all characters is a run of those that are not looked for. -/
theorem findChar_takeWhile (szToFindA : List Byte) {l : List Byte} (hzero : 0 ∉ l) :
    (findChar szToFindA [] l).getD l.length = (l.takeWhile (!szToFindA.contains ·)).length := by
  induction l with
  | nil => rfl
  | cons ch l ih =>
    have hch : (ch == 0) = false := beq_eq_false_iff_ne.mpr fun h => hzero (h ▸ List.mem_cons_self)
    rw [findChar, hch, if_neg Bool.false_ne_true]
    cases hfind : szToFindA.contains ch with
    | true =>
      rw [if_pos rfl, List.takeWhile_cons_of_neg (by rw [hfind]; exact Bool.false_ne_true)]
      rfl
    | false =>
      rw [if_neg Bool.false_ne_true, List.contains_nil, if_neg Bool.false_ne_true,
        List.takeWhile_cons_of_pos (by rw [hfind]; rfl), List.length_cons, List.length_cons,
        ← ih fun h => hzero (List.mem_cons_of_mem ch h)]
      cases findChar szToFindA [] l with
      | none => rfl
      | some k => rfl

theorem drop_takeWhile_length {α : Type} (p : α → Bool) (l : List α) :
    l.drop (l.takeWhile p).length = l.dropWhile p := by
  have hsplit : l.takeWhile p ++ l.dropWhile p = l := List.takeWhile_append_dropWhile
  calc
    l.drop (l.takeWhile p).length
        = (l.takeWhile p ++ l.dropWhile p).drop (l.takeWhile p).length := by rw [hsplit]
    _ = l.dropWhile p := List.drop_left

/-- Where a query parameter ends. -/
theorem findChar_queryEnd {szUrlA : List Byte} (hzero : 0 ∉ szUrlA) :
    (findChar (ascii "#&") [] szUrlA).getD szUrlA.length =
      (szUrlA.takeWhile (!isQueryEnd ·)).length := by
  have hends : (fun ch => !(ascii "#&").contains ch) = (fun ch => !isQueryEnd ch) := by
    funext ch
    have hall : ∀ ch : Byte, ((!(ascii "#&").contains ch) == !isQueryEnd ch) = true :=
      forall_byte (by decide)
    exact beq_iff_eq.mp (hall ch)
  rw [findChar_takeWhile _ hzero, hends]

theorem takeWhile_queryEnd {ch : Byte} (h : isQueryEnd ch = true) (rest : List Byte) :
    (ch :: rest).takeWhile (!isQueryEnd ·) = [] :=
  List.takeWhile_cons_of_neg (by rw [h]; exact Bool.false_ne_true)

theorem takeWhile_item {ch : Byte} (h : isQueryEnd ch = false) (rest : List Byte) :
    (ch :: rest).takeWhile (!isQueryEnd ·) = ch :: rest.takeWhile (!isQueryEnd ·) :=
  List.takeWhile_cons_of_pos (by rw [h]; rfl)

theorem dropWhile_item {ch : Byte} (h : isQueryEnd ch = false) (rest : List Byte) :
    (ch :: rest).dropWhile (!isQueryEnd ·) = rest.dropWhile (!isQueryEnd ·) :=
  List.dropWhile_cons_of_pos (by rw [h]; rfl)

/-- What is passed over by both is passed over by the second. -/
theorem dropWhile_dropWhile {α : Type} {p q : α → Bool} (h : ∀ ch, q ch = true → p ch = true)
    (l : List α) : (l.dropWhile q).dropWhile p = l.dropWhile p := by
  induction l with
  | nil => rfl
  | cons ch l ih =>
    cases hq : q ch with
    | true => rw [List.dropWhile_cons_of_pos hq, List.dropWhile_cons_of_pos (h ch hq), ih]
    | false => rw [List.dropWhile_cons_of_neg (by rw [hq]; exact Bool.false_ne_true)]

/-- The fragment is not reached by passing over a parameter. -/
theorem dropWhile_fragment (szUrlA : List Byte) :
    (szUrlA.dropWhile (!isQueryEnd ·)).dropWhile (· != 0x23) = szUrlA.dropWhile (· != 0x23) := by
  refine dropWhile_dropWhile (fun ch hend => bne_iff_ne.mpr ?_) szUrlA
  rintro rfl
  cases hend

/-! ### The narrow loop -/

/-- The parameters of a URL, of which `rest` stands behind the path. -/
def queryOf (rest : List Byte) : List (List Byte × List Byte) :=
  if charAt rest 0 == 0x3F then queryItems rest.length (rest.drop 1) else []

/-- Behind a parameter without an equals sign there is nothing but the separator. -/
def BareItems (rest : List Byte) (behind : List WChar) : Prop :=
  ∀ item ∈ queryOf rest, 0x3D ∉ item.1 → szStr ((widen item.2 ++ behind).drop 1) = []

end MxLib.Http
