import MxLib.Library.Unicode

/-!
# Characters in UTF-8

A well-formed string is a sequence of characters, one unit or a pair each.  Cutting
its bytes anywhere leaves whole characters in front and behind, and at most one
character in two parts (`exists_cut`).

`decodeText` is the decoder of a byte string that need not be well formed: U+FFFD
stands for each longest beginning of a character that does not go on, and for each
byte that begins none.
-/

namespace MxLib.Library.Unicode

/-- A byte inside a character. -/
def isTrail (b : UInt8) : Bool := 0x80 ≤ b.toNat && b.toNat ≤ 0xBF

theorem isTrail_ofNat_iff {n : Nat} (hn : n < 256) :
    isTrail (.ofNat n) = true ↔ 0x80 ≤ n ∧ n ≤ 0xBF := by
  rw [isTrail, UInt8.toNat_ofNat_of_lt' hn, Bool.and_eq_true, decide_eq_true_iff,
    decide_eq_true_iff]

/-! ### Characters -/

/-- The units of one character. -/
inductive IsCharacter : List UInt16 → Prop
  | single {u : UInt16} : isHighSurrogate u = false → isLowSurrogate u = false → IsCharacter [u]
  | pair {u v : UInt16} : isHighSurrogate u = true → isLowSurrogate v = true → IsCharacter [u, v]

/-- The numbers that stand for characters. -/
def IsScalar (c : Nat) : Prop := c < 0xD800 ∨ 0xE000 ≤ c ∧ c < 0x110000

/-- The units of a code point. -/
def utf16Units (c : Nat) : List UInt16 :=
  if c < 0x10000 then [.ofNat c]
  else [.ofNat (0xD800 + (c - 0x10000) / 1024), .ofNat (0xDC00 + (c - 0x10000) % 1024)]

theorem IsCharacter.ne_nil {c : List UInt16} (h : IsCharacter c) : c ≠ [] := by
  cases h with
  | single _ _ => exact List.cons_ne_nil _ _
  | pair _ _ => exact List.cons_ne_nil _ _

theorem IsCharacter.length_le {c : List UInt16} (h : IsCharacter c) : c.length ≤ 2 := by
  cases h with
  | single _ _ => exact Nat.le_succ 1
  | pair _ _ => exact Nat.le_refl 2

/-- U+FFFD begins no pair. -/
theorem IsCharacter.length_of_head {c : List UInt16} (h : IsCharacter (0xFFFD :: c)) :
    c = [] := by
  cases h with
  | single _ _ => rfl
  | pair hu _ => exact absurd hu (by decide)

theorem isWellFormed_single {u : UInt16} (hu : isHighSurrogate u = false) (s : List UInt16) :
    isWellFormed (u :: s) = (!isLowSurrogate u && isWellFormed s) := by
  cases s with
  | nil => simp [isWellFormed, hu]
  | cons v s => rw [isWellFormed, if_neg (by rw [hu]; decide)]

theorem isWellFormed_pair {u v : UInt16} (hu : isHighSurrogate u = true)
    (hv : isLowSurrogate v = true) (s : List UInt16) :
    isWellFormed (u :: v :: s) = isWellFormed s := by
  rw [isWellFormed, if_pos hu, hv, Bool.true_and]

theorem IsCharacter.isWellFormed_append {c : List UInt16} (h : IsCharacter c) (s : List UInt16) :
    isWellFormed (c ++ s) = isWellFormed s := by
  cases h with
  | single hu hlow => rw [List.singleton_append, isWellFormed_single hu, hlow]; rfl
  | pair hu hv => exact isWellFormed_pair hu hv s

theorem IsCharacter.utf8Text_append {c : List UInt16} (h : IsCharacter c) (s : List UInt16) :
    utf8Text (c ++ s) = utf8Text c ++ utf8Text s := by
  cases h with
  | single hu _ =>
    rw [List.singleton_append, utf8Text_single hu, utf8Text_single hu, utf8Text, List.append_nil]
  | pair hu _ =>
    rw [List.cons_append, List.singleton_append, utf8Text_pair hu, utf8Text_pair hu, utf8Text,
      List.append_nil]

/-- **Induction over a well-formed string**, character by character. -/
@[elab_as_elim]
theorem character_induct {P : List UInt16 → Prop} (nil : P [])
    (character : ∀ c s, IsCharacter c → isWellFormed s = true → P s → P (c ++ s))
    {s : List UInt16} (h : isWellFormed s = true) : P s := by
  refine isWellFormed_induct nil ?single ?pair h
  case single => exact fun u s hu hlow hs ih => character [u] s (.single hu hlow) hs ih
  case pair => exact fun u v s hu hv hs ih => character [u, v] s (.pair hu hv) hs ih

theorem isWellFormed_append {s : List UInt16} (hs : isWellFormed s = true) (t : List UInt16) :
    isWellFormed (s ++ t) = isWellFormed t := by
  refine character_induct rfl ?_ hs
  intro c s hc _ ih
  rw [List.append_assoc, hc.isWellFormed_append, ih]

theorem utf8Text_append_of_wellFormed {s : List UInt16} (hs : isWellFormed s = true)
    (t : List UInt16) : utf8Text (s ++ t) = utf8Text s ++ utf8Text t := by
  refine character_induct rfl ?_ hs
  intro c s hc _ ih
  rw [List.append_assoc, hc.utf8Text_append, hc.utf8Text_append, ih, List.append_assoc]

/-- A character is a number, with its units and its bytes. -/
theorem IsCharacter.exists_scalar {c : List UInt16} (h : IsCharacter c) :
    ∃ n, IsScalar n ∧ utf8Text c = utf8Bytes n ∧ utf16Units n = c := by
  cases h with
  | @single u hu hlow =>
    have hlt := u.toNat_lt
    rw [Bool.eq_false_iff, Ne, isHighSurrogate_iff] at hu
    rw [Bool.eq_false_iff, Ne, isLowSurrogate_iff] at hlow
    refine ⟨u.toNat, ?_, rfl, ?_⟩
    · rw [IsScalar]
      omega
    · rw [utf16Units, if_pos hlt, UInt16.ofNat_toNat]
  | @pair u v hu hv =>
    have hu' := (isHighSurrogate_iff u).mp hu
    have hv' := (isLowSurrogate_iff v).mp hv
    refine ⟨pairValue u v, ?_, ?_, ?_⟩
    · rw [IsScalar, pairValue]
      omega
    · rw [utf8Text_pair hu, utf8Text, List.append_nil]
    · have hhigh : 0xD800 + (pairValue u v - 0x10000) / 1024 = u.toNat := by
        rw [pairValue]
        omega
      have hlow : 0xDC00 + (pairValue u v - 0x10000) % 1024 = v.toNat := by
        rw [pairValue]
        omega
      rw [utf16Units, if_neg (by rw [pairValue]; omega), hhigh, hlow, UInt16.ofNat_toNat,
        UInt16.ofNat_toNat]

/-! ### The bytes of a character -/

/-- The first byte of a character is none of those inside one, and the others are. -/
theorem utf8Bytes_eq_cons {c : Nat} (hc : c < 0x110000) :
    ∃ b t, utf8Bytes c = b :: t ∧ isTrail b = false ∧ (∀ x ∈ t, isTrail x = true) ∧
      t.length ≤ 3 := by
  have hall : ∀ {t : List UInt8}, (∀ x ∈ t, ∃ n, x = .ofNat (0x80 + n % 64)) →
      ∀ x ∈ t, isTrail x = true := by
    intro t ht x hx
    obtain ⟨n, rfl⟩ := ht x hx
    exact (isTrail_ofNat_iff (by omega)).mpr (by omega)
  have hlead : ∀ {n}, n < 256 → n < 0x80 ∨ 0xBF < n → isTrail (.ofNat n) = false := by
    intro n hn hout
    rw [Bool.eq_false_iff, Ne, isTrail_ofNat_iff hn]
    omega
  by_cases h1 : c < 0x80
  · rw [utf8Bytes, if_pos h1]
    exact ⟨_, _, rfl, hlead (by omega) (by omega), List.forall_mem_nil _, Nat.zero_le 3⟩
  by_cases h2 : c < 0x800
  · rw [utf8Bytes, if_neg h1, if_pos h2]
    refine ⟨_, _, rfl, hlead (by omega) (by omega), hall ?_, Nat.le_of_ble_eq_true rfl⟩
    simp only [List.mem_cons, List.not_mem_nil, or_false, forall_eq]
    exact ⟨_, rfl⟩
  by_cases h3 : c < 0x10000
  · rw [utf8Bytes, if_neg h1, if_neg h2, if_pos h3]
    refine ⟨_, _, rfl, hlead (by omega) (by omega), hall ?_, Nat.le_of_ble_eq_true rfl⟩
    simp only [List.mem_cons, List.not_mem_nil, or_false, forall_eq_or_imp, forall_eq]
    exact ⟨⟨_, rfl⟩, _, rfl⟩
  · rw [utf8Bytes, if_neg h1, if_neg h2, if_neg h3]
    refine ⟨_, _, rfl, hlead (by omega) (by omega), hall ?_, Nat.le_of_ble_eq_true rfl⟩
    simp only [List.mem_cons, List.not_mem_nil, or_false, forall_eq_or_imp, forall_eq]
    exact ⟨⟨_, rfl⟩, ⟨_, rfl⟩, _, rfl⟩

theorem IsScalar.lt {c : Nat} (h : IsScalar c) : c < 0x110000 := by
  rw [IsScalar] at h
  omega

theorem IsCharacter.utf8Text_eq_cons {c : List UInt16} (h : IsCharacter c) :
    ∃ b t, utf8Text c = b :: t ∧ isTrail b = false ∧ (∀ x ∈ t, isTrail x = true) ∧
      t.length ≤ 3 := by
  obtain ⟨n, hn, hbytes, -⟩ := h.exists_scalar
  rw [hbytes]
  exact utf8Bytes_eq_cons hn.lt

/-- A text does not begin inside a character. -/
theorem isTrail_head_utf8Text {s : List UInt16} (hs : isWellFormed s = true) :
    ∀ b, (utf8Text s)[0]? = some b → isTrail b = false := by
  refine character_induct nofun ?_ hs
  intro c s hc _ _ b hb
  obtain ⟨x, t, hx, hlead, -⟩ := hc.utf8Text_eq_cons
  rw [hc.utf8Text_append, hx] at hb
  obtain rfl := Option.some.inj hb
  exact hlead

theorem utf8Text_eq_nil_iff {s : List UInt16} (hs : isWellFormed s = true) :
    utf8Text s = [] ↔ s = [] := by
  refine character_induct (iff_of_true rfl rfl) ?_ hs
  intro c s hc _ _
  obtain ⟨x, t, hx, -⟩ := hc.utf8Text_eq_cons
  rw [hc.utf8Text_append, hx]
  exact iff_of_false (List.cons_ne_nil _ _) fun h => hc.ne_nil (List.append_eq_nil_iff.mp h).1

/-! ### Cutting a text -/

/-- The bytes of a character up to one inside it. -/
def IsHead (h : List UInt8) : Prop :=
  ∃ c j, IsCharacter c ∧ j < (utf8Text c).length ∧ h = (utf8Text c).take j

/-- The bytes of a character from one inside it on. -/
def IsTail (t : List UInt8) : Prop :=
  ∃ c j, IsCharacter c ∧ 0 < j ∧ t = (utf8Text c).drop j

theorem isHead_nil : IsHead [] := ⟨[0], 0, .single rfl rfl, Nat.zero_lt_one, rfl⟩

theorem isTail_nil : IsTail [] := ⟨[0], 1, .single rfl rfl, Nat.zero_lt_one, rfl⟩

theorem IsTail.length_le {t : List UInt8} (h : IsTail t) : t.length ≤ 3 := by
  obtain ⟨c, j, hc, hj, rfl⟩ := h
  obtain ⟨b, t, hbytes, -, -, hlen⟩ := hc.utf8Text_eq_cons
  rw [hbytes, List.length_drop, List.length_cons]
  omega

theorem IsTail.isTrail {t : List UInt8} (h : IsTail t) : ∀ b ∈ t, isTrail b = true := by
  obtain ⟨c, j, hc, hj, rfl⟩ := h
  obtain ⟨b, t, hbytes, -, htrail, -⟩ := hc.utf8Text_eq_cons
  obtain ⟨j, rfl⟩ := Nat.exists_eq_add_of_lt hj
  rw [hbytes, Nat.zero_add, List.drop_succ_cons]
  exact fun x hx => htrail x (List.mem_of_mem_drop hx)

/-- How the bytes of a text lie before and behind an index. -/
inductive Cut (s : List UInt16) (k : Nat) : Prop
  | between (p r : List UInt16) : isWellFormed p = true → isWellFormed r = true → s = p ++ r →
      (utf8Text s).take k = utf8Text p → (utf8Text s).drop k = utf8Text r → Cut s k
  | inside (p c r : List UInt16) (j : Nat) : isWellFormed p = true → IsCharacter c →
      isWellFormed r = true → s = p ++ (c ++ r) → 0 < j → j < (utf8Text c).length →
      (utf8Text s).take k = utf8Text p ++ (utf8Text c).take j →
      (utf8Text s).drop k = (utf8Text c).drop j ++ utf8Text r → Cut s k

/-- **An index is between two characters or inside one.** -/
theorem exists_cut {s : List UInt16} (hs : isWellFormed s = true) : ∀ k, Cut s k := by
  refine character_induct ?nil ?character hs
  case nil => exact fun k => .between [] [] rfl rfl rfl List.take_nil List.drop_nil
  case character =>
    intro c s hc hs ih k
    have htext : utf8Text (c ++ s) = utf8Text c ++ utf8Text s := hc.utf8Text_append s
    rcases Nat.eq_zero_or_pos k with rfl | hk
    · exact .between [] (c ++ s) rfl ((hc.isWellFormed_append s).trans hs) rfl rfl rfl
    by_cases hlt : k < (utf8Text c).length
    · refine .inside [] c s k rfl hc hs rfl hk hlt ?_ ?_
      · rw [htext, List.take_append_of_le_length (Nat.le_of_lt hlt)]
        rfl
      · rw [htext, List.drop_append_of_le_length (Nat.le_of_lt hlt)]
    · -- the cut is behind this character
      obtain ⟨i, rfl⟩ := Nat.exists_eq_add_of_le (Nat.not_lt.mp hlt)
      have htake : (utf8Text (c ++ s)).take ((utf8Text c).length + i) =
          utf8Text c ++ (utf8Text s).take i := by
        rw [htext, List.take_length_add_append]
      have hdrop : (utf8Text (c ++ s)).drop ((utf8Text c).length + i) = (utf8Text s).drop i := by
        rw [htext, List.drop_length_add_append]
      cases ih i with
      | between p r hp hr hsplit hfront hback =>
        refine .between (c ++ p) r ((hc.isWellFormed_append p).trans hp) hr ?_ ?_ ?_
        · rw [hsplit, List.append_assoc]
        · rw [htake, hfront, hc.utf8Text_append]
        · rw [hdrop, hback]
      | inside p d r j hp hd hr hsplit hj hjlt hfront hback =>
        refine .inside (c ++ p) d r j ((hc.isWellFormed_append p).trans hp) hd hr ?_ hj hjlt ?_ ?_
        · rw [hsplit, List.append_assoc]
        · rw [htake, hfront, hc.utf8Text_append, List.append_assoc]
        · rw [hdrop, hback]

/-- A string ends between two characters unless its last unit is a high surrogate. -/
theorem isWellFormed_take {s : List UInt16} (hs : isWellFormed s = true) {n : Nat}
    (hlast : ∀ u, s[n - 1]? = some u → isHighSurrogate u = false) :
    isWellFormed (s.take n) = true := by
  obtain ⟨hhighs, hlows⟩ := (isWellFormed_iff s).mp hs
  have hget : ∀ {i u}, (s.take n)[i]? = some u → i < n ∧ s[i]? = some u := by
    intro i u hu
    rw [List.getElem?_take] at hu
    split at hu
    · exact ⟨‹_›, hu⟩
    · cases hu
  refine (isWellFormed_iff _).mpr ⟨fun i u hu hhigh => ?_, fun i v hv hlow => ?_⟩
  · obtain ⟨hi, hu⟩ := hget hu
    obtain ⟨v, hv, hlow⟩ := hhighs i u hu hhigh
    have hnext : i + 1 < n := by
      by_contra hend
      obtain rfl : i = n - 1 := by omega
      rw [hlast u hu] at hhigh
      cases hhigh
    exact ⟨v, by rw [List.getElem?_take, if_pos hnext, hv], hlow⟩
  · obtain ⟨hi, hv⟩ := hget hv
    obtain ⟨j, u, rfl, hu, hhigh⟩ := hlows i v hv hlow
    exact ⟨j, u, rfl, by rw [List.getElem?_take, if_pos (by omega), hu], hhigh⟩

/-! ### A decoder -/

/-- What is known inside a character: how many bytes are to come, what the next one may
be, and the value so far. -/
structure Inside where
  need : Nat
  lower : Nat
  upper : Nat
  value : Nat

/-- The first byte of a character of several bytes. -/
def leadByte (n : Nat) : Option Inside :=
  if 0xC2 ≤ n ∧ n ≤ 0xDF then some ⟨1, 0x80, 0xBF, n - 0xC0⟩
  else if 0xE0 ≤ n ∧ n ≤ 0xEF then
    some ⟨2, if n = 0xE0 then 0xA0 else 0x80, if n = 0xED then 0x9F else 0xBF, n - 0xE0⟩
  else if 0xF0 ≤ n ∧ n ≤ 0xF4 then
    some ⟨3, if n = 0xF0 then 0x90 else 0x80, if n = 0xF4 then 0x8F else 0xBF, n - 0xF0⟩
  else none

/-- A byte between two characters. -/
def decodeLead (n : Nat) : List UInt16 × Option Inside :=
  if n < 0x80 then ([.ofNat n], none)
  else
    match leadByte n with
    | some q => ([], some q)
    | none => ([0xFFFD], none)

/-- A byte inside a character.  One that does not go on with it begins the next. -/
def decodeTrail (q : Inside) (n : Nat) : List UInt16 × Option Inside :=
  if q.lower ≤ n ∧ n ≤ q.upper then
    let value := q.value * 64 + n % 64
    if q.need = 1 then (utf16Units value, none) else ([], some ⟨q.need - 1, 0x80, 0xBF, value⟩)
  else (0xFFFD :: (decodeLead n).1, (decodeLead n).2)

def decodeFrom : Option Inside → List UInt8 → List UInt16
  | none, [] => []
  | some _, [] => [0xFFFD]
  | none, b :: rest => (decodeLead b.toNat).1 ++ decodeFrom (decodeLead b.toNat).2 rest
  | some q, b :: rest => (decodeTrail q b.toNat).1 ++ decodeFrom (decodeTrail q b.toNat).2 rest

/-- The units a byte string stands for, with U+FFFD for what is no character. -/
def decodeText (b : List UInt8) : List UInt16 := decodeFrom none b

/-- The next byte of a character. -/
theorem decodeTrail_of_mem {q : Inside} {n : Nat} (h : q.lower ≤ n ∧ n ≤ q.upper) :
    decodeTrail q n =
      if q.need = 1 then (utf16Units (q.value * 64 + n % 64), none)
      else ([], some ⟨q.need - 1, 0x80, 0xBF, q.value * 64 + n % 64⟩) := by
  rw [decodeTrail, if_pos h]

/-- Between a state and the end of a character: the bytes that come are `t`. -/
inductive Expects : Inside → List UInt8 → Nat → Prop
  | last {q : Inside} {n c : Nat} : n < 256 → q.need = 1 → q.lower ≤ n → n ≤ q.upper →
      q.value * 64 + n % 64 = c → Expects q [.ofNat n] c
  | more {q : Inside} {n v c : Nat} {t : List UInt8} : n < 256 → q.need ≠ 1 → q.lower ≤ n →
      n ≤ q.upper → q.value * 64 + n % 64 = v → Expects ⟨q.need - 1, 0x80, 0xBF, v⟩ t c →
      Expects q (.ofNat n :: t) c

theorem Expects.decodeFrom {q : Inside} {t : List UInt8} {c : Nat} (h : Expects q t c)
    (rest : List UInt8) :
    decodeFrom (some q) (t ++ rest) = utf16Units c ++ decodeFrom none rest := by
  induction h with
  | last hn hneed hlower hupper hvalue =>
    subst hvalue
    rw [List.singleton_append, Unicode.decodeFrom, UInt8.toNat_ofNat_of_lt' hn,
      decodeTrail_of_mem ⟨hlower, hupper⟩, if_pos hneed]
  | more hn hneed hlower hupper hvalue _ ih =>
    subst hvalue
    rw [List.cons_append, Unicode.decodeFrom, UInt8.toNat_ofNat_of_lt' hn,
      decodeTrail_of_mem ⟨hlower, hupper⟩, if_neg hneed, List.nil_append]
    exact ih

/-- A character that is cut off gives one U+FFFD. -/
theorem Expects.decodeFrom_take {q : Inside} {t : List UInt8} {c : Nat} (h : Expects q t c)
    {j : Nat} (hj : j < t.length) : Unicode.decodeFrom (some q) (t.take j) = [0xFFFD] := by
  induction h generalizing j with
  | last _ _ _ _ _ =>
    obtain rfl := Nat.lt_one_iff.mp hj
    rfl
  | more hn hneed hlower hupper hvalue _ ih =>
    subst hvalue
    cases j with
    | zero => rfl
    | succ j =>
      rw [List.take_succ_cons, Unicode.decodeFrom, UInt8.toNat_ofNat_of_lt' hn,
        decodeTrail_of_mem ⟨hlower, hupper⟩, if_neg hneed, List.nil_append]
      exact ih (Nat.lt_of_succ_lt_succ hj)

/-- A character is one byte below `0x80`, or a first byte and those it expects. -/
theorem utf8Bytes_cases {c : Nat} (hc : IsScalar c) :
    c < 0x80 ∧ utf8Bytes c = [.ofNat c] ∨
      ∃ n q t, n < 256 ∧ decodeLead n = ([], some q) ∧ utf8Bytes c = .ofNat n :: t ∧
        Expects q t c := by
  rw [IsScalar] at hc
  by_cases h1 : c < 0x80
  · exact .inl ⟨h1, by rw [utf8Bytes, if_pos h1]⟩
  refine .inr ?_
  by_cases h2 : c < 0x800
  · refine ⟨0xC0 + c / 64, ⟨1, 0x80, 0xBF, c / 64⟩, [.ofNat (0x80 + c % 64)], by omega, ?_, ?_,
      .last (by omega) rfl (Nat.le_add_right _ _) (by dsimp only; omega) (by dsimp only; omega)⟩
    · rw [decodeLead, if_neg (by omega), leadByte, if_pos (by omega), Nat.add_sub_cancel_left]
    · rw [utf8Bytes, if_neg h1, if_pos h2]
  by_cases h3 : c < 0x10000
  · refine ⟨0xE0 + c / 4096,
      ⟨2, if 0xE0 + c / 4096 = 0xE0 then 0xA0 else 0x80,
        if 0xE0 + c / 4096 = 0xED then 0x9F else 0xBF, c / 4096⟩,
      [.ofNat (0x80 + c / 64 % 64), .ofNat (0x80 + c % 64)], by omega, ?_, ?_,
      .more (v := c / 64) (by omega) (Nat.succ_succ_ne_one _) ?_ ?_ (by dsimp only; omega)
        (.last (by omega) rfl (Nat.le_add_right _ _) (by dsimp only; omega) (by dsimp only; omega))⟩
    · rw [decodeLead, if_neg (by omega), leadByte, if_neg (by omega), if_pos (by omega),
        Nat.add_sub_cancel_left]
    · rw [utf8Bytes, if_neg h1, if_neg h2, if_pos h3]
    · dsimp only
      split <;> omega
    · dsimp only
      split <;> omega
  · refine ⟨0xF0 + c / 262144,
      ⟨3, if 0xF0 + c / 262144 = 0xF0 then 0x90 else 0x80,
        if 0xF0 + c / 262144 = 0xF4 then 0x8F else 0xBF, c / 262144⟩,
      [.ofNat (0x80 + c / 4096 % 64), .ofNat (0x80 + c / 64 % 64), .ofNat (0x80 + c % 64)],
      by omega, ?_, ?_,
      .more (v := c / 4096) (by omega) (Nat.succ_succ_ne_one _) ?_ ?_ (by dsimp only; omega)
        (.more (v := c / 64) (by omega) (Nat.succ_succ_ne_one _) (Nat.le_add_right _ _)
          (by dsimp only; omega) (by dsimp only; omega)
          (.last (by omega) rfl (Nat.le_add_right _ _) (by dsimp only; omega)
            (by dsimp only; omega)))⟩
    · rw [decodeLead, if_neg (by omega), leadByte, if_neg (by omega), if_neg (by omega),
        if_pos (by omega), Nat.add_sub_cancel_left]
    · rw [utf8Bytes, if_neg h1, if_neg h2, if_neg h3]
    · dsimp only
      split <;> omega
    · dsimp only
      split <;> omega

/-- **A character is read as itself.** -/
theorem decodeText_character {c : List UInt16} (hc : IsCharacter c) (rest : List UInt8) :
    decodeText (utf8Text c ++ rest) = c ++ decodeText rest := by
  obtain ⟨n, hn, hbytes, hunits⟩ := hc.exists_scalar
  rw [hbytes]
  rcases utf8Bytes_cases hn with ⟨hlt, hone⟩ | ⟨k, q, t, hk, hlead, hmany, hexpects⟩
  · rw [hone, List.singleton_append, decodeText, decodeFrom,
      UInt8.toNat_ofNat_of_lt' (Nat.lt_trans hlt (by decide)),
      decodeLead, if_pos hlt, ← hunits, utf16Units, if_pos (by omega)]
    rfl
  · rw [hmany, List.cons_append, decodeText, decodeFrom, UInt8.toNat_ofNat_of_lt' hk, hlead,
      List.nil_append]
    exact (hexpects.decodeFrom rest).trans (by rw [hunits]; rfl)

theorem decodeText_append {s : List UInt16} (hs : isWellFormed s = true) (rest : List UInt8) :
    decodeText (utf8Text s ++ rest) = s ++ decodeText rest := by
  refine character_induct rfl ?_ hs
  intro c s hc _ ih
  rw [hc.utf8Text_append, List.append_assoc, decodeText_character hc, ih, List.append_assoc]

/-- **The beginning of a character** gives one U+FFFD. -/
theorem decodeText_head {h : List UInt8} (hh : IsHead h) :
    decodeText h = if h = [] then [] else [0xFFFD] := by
  obtain ⟨c, j, hc, hj, rfl⟩ := hh
  obtain ⟨n, hn, hbytes, -⟩ := hc.exists_scalar
  rw [hbytes] at hj ⊢
  rcases Nat.eq_zero_or_pos j with rfl | hpos
  · rfl
  obtain ⟨j, rfl⟩ := Nat.exists_eq_add_of_lt hpos
  rw [Nat.zero_add] at hj ⊢
  rcases utf8Bytes_cases hn with ⟨-, hone⟩ | ⟨k, q, t, hk, hlead, hmany, hexpects⟩
  · rw [hone] at hj
    exact absurd hj (by simp)
  · rw [hmany, List.length_cons] at hj
    rw [hmany, List.take_succ_cons, if_neg (List.cons_ne_nil _ _), decodeText, decodeFrom,
      UInt8.toNat_ofNat_of_lt' hk, hlead, List.nil_append]
    exact hexpects.decodeFrom_take (Nat.lt_of_succ_lt_succ hj)

/-- **The bytes inside a character** give one U+FFFD each. -/
theorem decodeText_trail {t : List UInt8} (ht : ∀ b ∈ t, isTrail b = true) (rest : List UInt8) :
    decodeText (t ++ rest) = List.replicate t.length 0xFFFD ++ decodeText rest := by
  induction t with
  | nil => rfl
  | cons b t ih =>
    obtain ⟨hb, ht⟩ := List.forall_mem_cons.mp ht
    rw [isTrail, Bool.and_eq_true, decide_eq_true_iff, decide_eq_true_iff] at hb
    have hlead : decodeLead b.toNat = ([0xFFFD], none) := by
      rw [decodeLead, if_neg (by omega), leadByte, if_neg (by omega), if_neg (by omega),
        if_neg (by omega)]
    rw [List.cons_append, decodeText, decodeFrom, hlead, List.length_cons, List.replicate_succ]
    exact congrArg _ (ih ht)

end MxLib.Library.Unicode
