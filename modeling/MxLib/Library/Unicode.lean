import Mathlib.Algebra.Order.Ring.Nat
import Mathlib.Data.List.Basic

/-!
# Code points in units of 8 and 16 bits

The UTF-8 form of a code point, and the UTF-16 strings that are well formed.
Surrogates come in pairs there, a high one before a low one, and a pair is one code
point above `U+FFFF`.
-/

namespace MxLib.Library.Unicode

/-- The bytes of a code point. -/
def utf8Bytes (c : Nat) : List UInt8 :=
  if c < 0x80 then [.ofNat c]
  else if c < 0x800 then [.ofNat (0xC0 + c / 64), .ofNat (0x80 + c % 64)]
  else if c < 0x10000 then
    [.ofNat (0xE0 + c / 4096), .ofNat (0x80 + c / 64 % 64), .ofNat (0x80 + c % 64)]
  else
    [.ofNat (0xF0 + c / 262144), .ofNat (0x80 + c / 4096 % 64), .ofNat (0x80 + c / 64 % 64),
      .ofNat (0x80 + c % 64)]

theorem length_utf8Bytes_le {c : Nat} (hc : c < 0x10000) : (utf8Bytes c).length ≤ 3 := by
  by_cases h1 : c < 0x80
  · rw [utf8Bytes, if_pos h1]
    exact Nat.le_of_ble_eq_true rfl
  by_cases h2 : c < 0x800
  · rw [utf8Bytes, if_neg h1, if_pos h2]
    exact Nat.le_of_ble_eq_true rfl
  · rw [utf8Bytes, if_neg h1, if_neg h2, if_pos hc]
    exact Nat.le_of_ble_eq_true rfl

theorem length_utf8Bytes_ascii {c : Nat} (hc : c < 0x80) : (utf8Bytes c).length = 1 := by
  rw [utf8Bytes, if_pos hc]
  rfl

theorem one_lt_length_utf8Bytes {c : Nat} (hc : 0x80 ≤ c) : 1 < (utf8Bytes c).length := by
  rw [utf8Bytes, if_neg (Nat.not_lt.mpr hc)]
  by_cases h2 : c < 0x800
  · rw [if_pos h2]
    exact Nat.le_of_ble_eq_true rfl
  by_cases h3 : c < 0x10000
  · rw [if_neg h2, if_pos h3]
    exact Nat.le_of_ble_eq_true rfl
  · rw [if_neg h2, if_neg h3]
    exact Nat.le_of_ble_eq_true rfl

def isHighSurrogate (u : UInt16) : Bool := 0xD800 ≤ u && u ≤ 0xDBFF

def isLowSurrogate (u : UInt16) : Bool := 0xDC00 ≤ u && u ≤ 0xDFFF

/-- The code point of a pair of surrogates. -/
def pairValue (hi lo : UInt16) : Nat :=
  (hi.toNat - 0xD800) * 1024 + (lo.toNat - 0xDC00) + 0x10000

/-- The surrogates come in pairs. -/
def isWellFormed : List UInt16 → Bool
  | [] => true
  | [u] => !isHighSurrogate u && !isLowSurrogate u
  | u :: v :: s =>
    if isHighSurrogate u then isLowSurrogate v && isWellFormed s
    else !isLowSurrogate u && isWellFormed (v :: s)

/-- The bytes of a string. -/
def utf8Text : List UInt16 → List UInt8
  | [] => []
  | [u] => utf8Bytes u.toNat
  | u :: v :: s =>
    if isHighSurrogate u then utf8Bytes (pairValue u v) ++ utf8Text s
    else utf8Bytes u.toNat ++ utf8Text (v :: s)

theorem utf8Text_single {u : UInt16} (hu : isHighSurrogate u = false) (s : List UInt16) :
    utf8Text (u :: s) = utf8Bytes u.toNat ++ utf8Text s := by
  cases s with
  | nil => simp [utf8Text]
  | cons v s => simp [utf8Text, hu]

theorem utf8Text_pair {u : UInt16} (hu : isHighSurrogate u = true) (v : UInt16) (s : List UInt16) :
    utf8Text (u :: v :: s) = utf8Bytes (pairValue u v) ++ utf8Text s := by
  rw [utf8Text, if_pos hu]

theorem isHighSurrogate_iff (u : UInt16) :
    isHighSurrogate u = true ↔ 0xD800 ≤ u.toNat ∧ u.toNat ≤ 0xDBFF := by
  simp [isHighSurrogate, UInt16.le_iff_toNat_le]

theorem isLowSurrogate_iff (u : UInt16) :
    isLowSurrogate u = true ↔ 0xDC00 ≤ u.toNat ∧ u.toNat ≤ 0xDFFF := by
  simp [isLowSurrogate, UInt16.le_iff_toNat_le]

/-- **Induction over a well-formed string**: a unit that is no surrogate, or a pair. -/
@[elab_as_elim]
theorem isWellFormed_induct {P : List UInt16 → Prop} (nil : P [])
    (single : ∀ u s, isHighSurrogate u = false → isLowSurrogate u = false → isWellFormed s = true →
      P s → P (u :: s))
    (pair : ∀ u v s, isHighSurrogate u = true → isLowSurrogate v = true → isWellFormed s = true →
      P s → P (u :: v :: s)) {s : List UInt16} (h : isWellFormed s = true) : P s := by
  induction s using isWellFormed.induct with
  | case1 => exact nil
  | case2 u =>
    rw [isWellFormed, Bool.and_eq_true, Bool.not_eq_true', Bool.not_eq_true'] at h
    exact single u [] h.1 h.2 rfl nil
  | case3 u v s hu ih =>
    rw [isWellFormed, if_pos hu, Bool.and_eq_true] at h
    exact pair u v s hu h.1 h.2 (ih h.2)
  | case4 u v s hu ih =>
    rw [isWellFormed, if_neg hu, Bool.and_eq_true, Bool.not_eq_true'] at h
    exact single u (v :: s) (by simpa using hu) h.1 h.2 (ih h.2)

/-- The code points of a string. -/
def codePoints : List UInt16 → List Nat
  | [] => []
  | [u] => [u.toNat]
  | u :: v :: s =>
    if isHighSurrogate u then pairValue u v :: codePoints s else u.toNat :: codePoints (v :: s)

theorem codePoints_single {u : UInt16} (hu : isHighSurrogate u = false) (s : List UInt16) :
    codePoints (u :: s) = u.toNat :: codePoints s := by
  cases s with
  | nil => rfl
  | cons v s => rw [codePoints, if_neg (by rw [hu]; decide)]

theorem codePoints_pair {u : UInt16} (hu : isHighSurrogate u = true) (v : UInt16)
    (s : List UInt16) : codePoints (u :: v :: s) = pairValue u v :: codePoints s := by
  rw [codePoints, if_pos hu]

/-! ### Surrogates and their neighbours -/

/-- Every high surrogate is followed by a low one. -/
def HighsPaired (s : List UInt16) : Prop :=
  ∀ i u, s[i]? = some u → isHighSurrogate u = true →
    ∃ v, s[i + 1]? = some v ∧ isLowSurrogate v = true

/-- Every low surrogate is preceded by a high one. -/
def LowsPaired (s : List UInt16) : Prop :=
  ∀ i v, s[i]? = some v → isLowSurrogate v = true →
    ∃ j u, i = j + 1 ∧ s[j]? = some u ∧ isHighSurrogate u = true

theorem isLowSurrogate_of_isHighSurrogate {u : UInt16} (h : isHighSurrogate u = true) :
    isLowSurrogate u = false := by
  rw [isHighSurrogate_iff] at h
  rw [Bool.eq_false_iff, Ne, isLowSurrogate_iff]
  omega

theorem isHighSurrogate_of_isLowSurrogate {v : UInt16} (h : isLowSurrogate v = true) :
    isHighSurrogate v = false := by
  rw [isLowSurrogate_iff] at h
  rw [Bool.eq_false_iff, Ne, isHighSurrogate_iff]
  omega

/-! ### The two conditions, unit by unit -/

theorem highsPaired_nil : HighsPaired [] := fun _ _ h => by cases h

theorem lowsPaired_nil : LowsPaired [] := fun _ _ h => by cases h

theorem HighsPaired.tail {u : UInt16} {s : List UInt16} (h : HighsPaired (u :: s)) : HighsPaired s :=
  fun i v hv => h (i + 1) v hv

theorem highsPaired_single {u : UInt16} (hu : isHighSurrogate u = false) (s : List UInt16) :
    HighsPaired (u :: s) ↔ HighsPaired s := by
  refine ⟨HighsPaired.tail, fun h i => ?_⟩
  cases i with
  | zero =>
    intro v hv hhigh
    obtain rfl := Option.some.inj hv
    rw [hu] at hhigh
    cases hhigh
  | succ i => exact h i

theorem highsPaired_pair {u v : UInt16} (hv : isLowSurrogate v = true) (s : List UInt16) :
    HighsPaired (u :: v :: s) ↔ HighsPaired s := by
  refine ⟨fun h => h.tail.tail, fun h i => ?_⟩
  cases i with
  | zero => exact fun _ _ _ => ⟨v, rfl, hv⟩
  | succ i => exact (highsPaired_single (isHighSurrogate_of_isLowSurrogate hv) s).mpr h i

theorem lowsPaired_single {u : UInt16} (hu : isHighSurrogate u = false) (s : List UInt16) :
    LowsPaired (u :: s) ↔ isLowSurrogate u = false ∧ LowsPaired s := by
  constructor
  · intro h
    refine ⟨?_, fun i v hv hlow => ?_⟩
    · by_contra hlow
      obtain ⟨j, -, hj, -⟩ := h 0 u rfl (by simpa using hlow)
      cases hj
    · obtain ⟨j, x, hj, hx, hhigh⟩ := h (i + 1) v hv hlow
      cases i with
      | zero =>
        -- the unit before it is `u`, which is no high surrogate
        obtain rfl := Nat.succ.inj hj
        obtain rfl := Option.some.inj hx
        rw [hu] at hhigh
        cases hhigh
      | succ i =>
        obtain rfl := Nat.succ.inj hj
        exact ⟨i, x, rfl, hx, hhigh⟩
  · rintro ⟨hlow, h⟩ i v hv hvlow
    cases i with
    | zero =>
      obtain rfl := Option.some.inj hv
      rw [hlow] at hvlow
      cases hvlow
    | succ i =>
      obtain ⟨j, x, rfl, hx, hhigh⟩ := h i v hv hvlow
      exact ⟨j + 1, x, rfl, hx, hhigh⟩

theorem lowsPaired_pair {u v : UInt16} (hu : isHighSurrogate u = true)
    (hv : isLowSurrogate v = true) (s : List UInt16) : LowsPaired (u :: v :: s) ↔ LowsPaired s := by
  constructor
  · intro h i x hx hlow
    obtain ⟨j, y, hj, hy, hhigh⟩ := h (i + 2) x hx hlow
    cases i with
    | zero =>
      obtain rfl := Nat.succ.inj hj
      obtain rfl := Option.some.inj hy
      rw [isHighSurrogate_of_isLowSurrogate hv] at hhigh
      cases hhigh
    | succ i =>
      obtain rfl := Nat.succ.inj hj
      exact ⟨i, y, rfl, hy, hhigh⟩
  · intro h i x hx hlow
    match i with
    | 0 =>
      obtain rfl := Option.some.inj hx
      rw [isLowSurrogate_of_isHighSurrogate hu] at hlow
      cases hlow
    | 1 => exact ⟨0, u, rfl, rfl, hu⟩
    | i + 2 =>
      obtain ⟨j, y, rfl, hy, hhigh⟩ := h i x hx hlow
      exact ⟨j + 2, y, rfl, hy, hhigh⟩

/-- A string is well formed if the surrogates are in pairs. -/
theorem isWellFormed_iff (s : List UInt16) :
    isWellFormed s = true ↔ HighsPaired s ∧ LowsPaired s := by
  induction s using isWellFormed.induct with
  | case1 => exact iff_of_true rfl ⟨highsPaired_nil, lowsPaired_nil⟩
  | case2 u =>
    rw [isWellFormed, Bool.and_eq_true, Bool.not_eq_true', Bool.not_eq_true']
    constructor
    · rintro ⟨hhigh, hlow⟩
      exact ⟨(highsPaired_single hhigh []).mpr highsPaired_nil,
        (lowsPaired_single hhigh []).mpr ⟨hlow, lowsPaired_nil⟩⟩
    · rintro ⟨hhighs, hlows⟩
      have hhigh : isHighSurrogate u = false := by
        by_contra hhigh
        obtain ⟨v, hv, -⟩ := hhighs 0 u rfl (by simpa using hhigh)
        cases hv
      exact ⟨hhigh, ((lowsPaired_single hhigh []).mp hlows).1⟩
  | case3 u v s hu ih =>
    rw [isWellFormed, if_pos hu, Bool.and_eq_true]
    constructor
    · rintro ⟨hv, hs⟩
      rw [highsPaired_pair hv, lowsPaired_pair hu hv]
      exact ih.mp hs
    · intro h
      obtain ⟨x, hx, hv⟩ := h.1 0 u rfl hu
      obtain rfl := Option.some.inj hx
      rw [highsPaired_pair hv, lowsPaired_pair hu hv] at h
      exact ⟨hv, ih.mpr h⟩
  | case4 u v s hu ih =>
    rw [Bool.not_eq_true] at hu
    rw [isWellFormed, if_neg (by rw [hu]; decide), Bool.and_eq_true, Bool.not_eq_true',
      highsPaired_single hu, lowsPaired_single hu, ih]
    exact and_left_comm

/-- **Induction over a string whose high surrogates are paired**: a unit that is none of them,
or a pair. -/
@[elab_as_elim]
theorem highsPaired_induct {P : List UInt16 → Prop} (nil : P [])
    (single : ∀ u s, isHighSurrogate u = false → HighsPaired s → P s → P (u :: s))
    (pair : ∀ u v s, isHighSurrogate u = true → isLowSurrogate v = true → HighsPaired s →
      P s → P (u :: v :: s)) {s : List UInt16} (h : HighsPaired s) : P s := by
  induction s using isWellFormed.induct with
  | case1 => exact nil
  | case2 u =>
    have hu : isHighSurrogate u = false := by
      by_contra hu
      obtain ⟨v, hv, -⟩ := h 0 u rfl (by simpa using hu)
      cases hv
    exact single u [] hu highsPaired_nil nil
  | case3 u v s hu ih =>
    obtain ⟨x, hx, hv⟩ := h 0 u rfl hu
    obtain rfl := Option.some.inj hx
    exact pair u v s hu hv h.tail.tail (ih h.tail.tail)
  | case4 u v s hu ih =>
    exact single u (v :: s) (by simpa using hu) h.tail (ih h.tail)

end MxLib.Library.Unicode
