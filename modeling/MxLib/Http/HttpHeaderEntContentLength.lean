import Mathlib.Data.List.TakeWhile
import MxLib.Http.HttpHeaders

/-!
# The length a Content-Length gives

`CHttpHeaderEntContentLength::Parse` adds up its digits in 64 bits and compares each
product and each sum with what it had, to see that they wrapped.  A product that wraps
may still be the larger one.  The number is exact when every text that is too large has
a place where the comparison does show it.
-/

namespace MxLib.Http

/-! ### Digits and their number -/

def digitValue (ch : Byte) : Nat := ch.toNat - 0x30

/-- The number that `digits` make when they follow the digits of `n`. -/
def decimalFrom (n : Nat) (digits : List Byte) : Nat :=
  digits.foldl (fun n ch => 10 * n + digitValue ch) n

/-- The digits of a text that has nothing else but blanks around them. -/
def HasDigits (v digits : List Byte) : Prop :=
  digits ≠ [] ∧ (∀ ch ∈ digits, isDigit ch = true) ∧
    ∃ before after, v = before ++ (digits ++ after) ∧
      (∀ ch ∈ before, isBlank ch = true) ∧ ∀ ch ∈ after, isBlank ch = true

/-- The text is a length of `n` octets. -/
def IsLength (v : List Byte) (n : Nat) : Prop :=
  ∃ digits, HasDigits v digits ∧ decimalFrom 0 digits = n

/-- `Parse` takes the texts of the numbers below `2 ^ 64` as these numbers, and refuses
the other texts. -/
def ContentLengthExact (v : List Byte) : Prop :=
  (∀ nLength, parseContentLength v = .ok nLength ↔ IsLength v nLength.toNat) ∧
    ∀ n, 2 ^ 64 ≤ n → IsLength v n → ∃ hRes, parseContentLength v = .error hRes

/-- With one digit more, the 64 bits of the number get smaller. -/
def ShowsWrap (n : Nat) (ch : Byte) : Prop :=
  10 * n % 2 ^ 64 < n % 2 ^ 64 ∨ 2 ^ 64 ≤ 10 * n % 2 ^ 64 + digitValue ch

/-- One of the digits that follow `n` shows that the number wrapped. -/
def WrapSeen (n : Nat) (digits : List Byte) : Prop :=
  ∃ before ch after, digits = before ++ ch :: after ∧ ShowsWrap (decimalFrom n before) ch

theorem le_decimalFrom (digits : List Byte) (n : Nat) : n ≤ decimalFrom n digits := by
  induction digits generalizing n with
  | nil => exact Nat.le_refl n
  | cons ch digits ih =>
    have hle := ih (10 * n + digitValue ch)
    simp only [decimalFrom, List.foldl_cons] at hle ⊢
    omega

theorem wrapSeen_nil (n : Nat) : ¬ WrapSeen n [] := by
  rintro ⟨before, ch, after, heq, _⟩
  exact absurd heq (by simp)

theorem wrapSeen_cons {n : Nat} {ch : Byte} {digits : List Byte} :
    WrapSeen n (ch :: digits) ↔ ShowsWrap n ch ∨ WrapSeen (10 * n + digitValue ch) digits := by
  constructor
  · rintro ⟨before, ch', after, heq, hshows⟩
    cases before with
    | nil =>
      obtain ⟨rfl, rfl⟩ := List.cons.inj heq
      exact Or.inl hshows
    | cons first before =>
      obtain ⟨rfl, rfl⟩ := List.cons.inj heq
      exact Or.inr ⟨before, ch', after, rfl, hshows⟩
  · rintro (hshows | ⟨before, ch', after, rfl, hshows⟩)
    · exact ⟨[], ch, digits, rfl, hshows⟩
    · exact ⟨ch :: before, ch', after, rfl, hshows⟩

/-- A number that fits in 64 bits wraps nowhere. -/
theorem not_wrapSeen_of_lt {n : Nat} {digits : List Byte} (h : decimalFrom n digits < 2 ^ 64) :
    ¬ WrapSeen n digits := by
  rintro ⟨before, ch, after, rfl, hshows⟩
  have hle := le_decimalFrom after (10 * decimalFrom n before + digitValue ch)
  have heq : decimalFrom n (before ++ ch :: after) =
      decimalFrom (10 * decimalFrom n before + digitValue ch) after := by
    simp only [decimalFrom, List.foldl_append, List.foldl_cons]
  rw [ShowsWrap, Nat.mod_eq_of_lt (by omega), Nat.mod_eq_of_lt (by omega)] at hshows
  omega

/-! ### The loop over the digits -/

theorem le_of_isDigit {ch : Byte} (h : isDigit ch = true) : 0x30 ≤ ch := by
  simp only [isDigit, Bool.and_eq_true, decide_eq_true_eq] at h
  exact h.1

/-- The number with one character more. -/
theorem toNat_digit {N : Nat} {nLength : UInt64} (hN : nLength.toNat = N % 2 ^ 64) {ch : Byte}
    (hch : 0x30 ≤ ch) :
    (nLength * 10 + ch.toUInt64 - 0x30).toNat = (10 * N + digitValue ch) % 2 ^ 64 := by
  have hge := UInt8.le_iff_toNat_le.mp hch
  simp only [UInt8.reduceToNat] at hge
  rw [UInt64.toNat_sub, UInt64.toNat_add, UInt64.toNat_mul, hN, UInt8.toNat_toUInt64]
  simp only [UInt64.reduceToNat, digitValue]
  omega

/-- The comparisons of the loop, on the number that the digits so far make. -/
theorem showsWrap_iff {N : Nat} {nLength : UInt64} (hN : nLength.toNat = N % 2 ^ 64) {ch : Byte}
    (hch : 0x30 ≤ ch) :
    ShowsWrap N ch ↔
      nLength * 10 < nLength ∨ nLength * 10 + ch.toUInt64 - 0x30 < nLength * 10 := by
  have hlt : digitValue ch < 2 ^ 64 := by
    have := ch.toNat_lt
    rw [digitValue]
    omega
  have hmul : (nLength * 10).toNat = 10 * N % 2 ^ 64 := by
    rw [UInt64.toNat_mul, hN]
    simp only [UInt64.reduceToNat]
    omega
  rw [ShowsWrap, UInt64.lt_iff_toNat_lt, UInt64.lt_iff_toNat_lt, toNat_digit hN hch, hmul, hN]
  omega

open Classical in
/-- **The loop adds up the digits modulo `2 ^ 64`, unless one of them shows the wrap.** -/
theorem lengthDigits_append {digits rest : List Byte} (hdigits : ∀ ch ∈ digits, isDigit ch = true)
    (hrest : ∀ ch ∈ rest.head?, isDigit ch = false) {N : Nat} {nLength : UInt64}
    (hN : nLength.toNat = N % 2 ^ 64) :
    lengthDigits nLength (digits ++ rest) =
      if WrapSeen N digits then .error .mxArithmeticOverflow
      else .ok (UInt64.ofNat (decimalFrom N digits), rest) := by
  induction digits generalizing N nLength with
  | nil =>
    have hstop : lengthDigits nLength rest = .ok (nLength, rest) := by
      cases rest with
      | nil => rfl
      | cons ch rest => rw [lengthDigits, if_neg (by simp [hrest ch rfl])]
    have heq : nLength = UInt64.ofNat N := by
      apply UInt64.toNat_inj.mp
      rw [hN, UInt64.toNat_ofNat']
    rw [List.nil_append, hstop, if_neg (wrapSeen_nil N), decimalFrom, List.foldl_nil, heq]
  | cons ch digits ih =>
    have hch := hdigits ch (List.mem_cons_self ..)
    have hshows := showsWrap_iff hN (le_of_isDigit hch)
    rw [List.cons_append, lengthDigits, if_pos hch]
    by_cases hmul : nLength * 10 < nLength
    · rw [if_pos hmul, if_pos (wrapSeen_cons.mpr (Or.inl (hshows.mpr (Or.inl hmul))))]
    · rw [if_neg hmul]
      by_cases hadd : nLength * 10 + ch.toUInt64 - 0x30 < nLength * 10
      · rw [if_pos hadd, if_pos (wrapSeen_cons.mpr (Or.inl (hshows.mpr (Or.inr hadd))))]
      · have hnot : ¬ ShowsWrap N ch := fun h => (hshows.mp h).elim hmul hadd
        rw [if_neg hadd, ih (fun x hx => hdigits x (List.mem_cons_of_mem _ hx))
          (toNat_digit hN (le_of_isDigit hch))]
        simp only [wrapSeen_cons, hnot, false_or, decimalFrom, List.foldl_cons]

theorem lengthDigits_zeros (sA : List Byte) :
    lengthDigits 0 (sA.dropWhile (· == 0x30)) = lengthDigits 0 sA := by
  induction sA with
  | nil => rfl
  | cons ch sA ih =>
    by_cases hch : ch = 0x30
    · subst hch
      rw [List.dropWhile_cons_of_pos rfl, ih]
      rfl
    · rw [List.dropWhile_cons_of_neg (by simpa using hch)]

/-! ### The text -/

theorem isDigit_of_isBlank {ch : Byte} (h : isBlank ch = true) : isDigit ch = false := by
  simp only [isBlank, Bool.or_eq_true, beq_iff_eq] at h
  rcases h with rfl | rfl <;> decide

theorem skipSpaces_eq_nil {sA : List Byte} : skipSpaces sA = [] ↔ ∀ ch ∈ sA, isBlank ch = true := by
  rw [skipSpaces, List.dropWhile_eq_nil_iff]

open Classical in
theorem parseContentLength_eq {v digits : List Byte} (h : HasDigits v digits) :
    parseContentLength v =
      if WrapSeen 0 digits then .error .mxArithmeticOverflow
      else .ok (UInt64.ofNat (decimalFrom 0 digits)) := by
  obtain ⟨hne, hdigits, before, after, rfl, hbefore, hafter⟩ := h
  obtain ⟨ch, digits, rfl⟩ := List.exists_cons_of_ne_nil hne
  have hch := hdigits ch (List.mem_cons_self ..)
  have hblank : isBlank ch = false := by
    cases hb : isBlank ch with
    | false => rfl
    | true => rw [isDigit_of_isBlank hb] at hch; exact absurd hch (by decide)
  have hskip : skipSpaces (before ++ (ch :: digits ++ after)) = ch :: digits ++ after := by
    rw [skipSpaces, List.dropWhile_append_of_pos hbefore, List.cons_append,
      List.dropWhile_cons_of_neg (by simp [hblank])]
  have hrest : ∀ x ∈ after.head?, isDigit x = false := fun x hx =>
    isDigit_of_isBlank (hafter x (List.mem_of_mem_head? hx))
  have hfirst : charAt (ch :: digits ++ after) 0 = ch := rfl
  simp only [parseContentLength, hskip, hfirst, hch, lengthDigits_zeros,
    lengthDigits_append hdigits hrest (show (0 : UInt64).toNat = 0 % 2 ^ 64 from rfl)]
  by_cases hseen : WrapSeen 0 (ch :: digits)
  · simp only [hseen, if_true]
    rfl
  · simp only [hseen, if_false, skipSpaces_eq_nil.mpr hafter]
    rfl

/-- What `Parse` accepts has digits and only blanks around them. -/
theorem hasDigits_of_parseContentLength {v : List Byte} {nLength : UInt64}
    (h : parseContentLength v = .ok nLength) : ∃ digits, HasDigits v digits := by
  have hv : v = v.takeWhile isBlank ++ skipSpaces v := (List.takeWhile_append_dropWhile).symm
  have hs : skipSpaces v = (skipSpaces v).takeWhile isDigit ++ (skipSpaces v).dropWhile isDigit :=
    (List.takeWhile_append_dropWhile).symm
  have hdigits : ∀ ch ∈ (skipSpaces v).takeWhile isDigit, isDigit ch = true :=
    fun ch hch => List.mem_takeWhile_imp hch
  have hrest : ∀ ch ∈ ((skipSpaces v).dropWhile isDigit).head?, isDigit ch = false := by
    intro ch hch
    have := List.head?_dropWhile_not isDigit (skipSpaces v)
    rw [Option.mem_def.mp hch] at this
    simpa using this
  rw [parseContentLength] at h
  by_cases hfirst : isDigit (charAt (skipSpaces v) 0) = true
  · refine ⟨(skipSpaces v).takeWhile isDigit, ?_, hdigits, v.takeWhile isBlank,
      (skipSpaces v).dropWhile isDigit, by rw [← hs]; exact hv,
      fun ch hch => List.mem_takeWhile_imp hch, ?_⟩
    · cases hsv : skipSpaces v with
      | nil => rw [hsv] at hfirst; exact absurd hfirst (by decide)
      | cons ch rest =>
        rw [hsv] at hfirst
        rw [List.takeWhile_cons_of_pos (show isDigit ch = true from hfirst)]
        exact List.cons_ne_nil _ _
    · simp only [hfirst, lengthDigits_zeros] at h
      rw [hs, lengthDigits_append hdigits hrest
        (show (0 : UInt64).toNat = 0 % 2 ^ 64 from rfl)] at h
      by_cases hseen : WrapSeen 0 ((skipSpaces v).takeWhile isDigit)
      · simp [hseen] at h
      · by_cases hend : skipSpaces ((skipSpaces v).dropWhile isDigit) = []
        · exact skipSpaces_eq_nil.mp hend
        · simp [hseen, hend] at h
  · simp [hfirst] at h

/-! ### Exact lengths -/

/-- **A Content-Length is exact when a text that is too large shows it at some digit.** -/
theorem contentLengthExact_iff (v : List Byte) :
    ContentLengthExact v ↔
      ∀ digits, HasDigits v digits → 2 ^ 64 ≤ decimalFrom 0 digits → WrapSeen 0 digits := by
  constructor
  · rintro ⟨_, hlarge⟩ digits hdigits hle
    obtain ⟨hRes, herror⟩ := hlarge _ hle ⟨digits, hdigits, rfl⟩
    by_contra hseen
    rw [parseContentLength_eq hdigits, if_neg hseen] at herror
    exact absurd herror (by simp)
  · intro hshows
    refine ⟨fun nLength => ⟨fun h => ?_, ?_⟩, ?_⟩
    · obtain ⟨digits, hdigits⟩ := hasDigits_of_parseContentLength h
      have hseen : ¬ WrapSeen 0 digits := by
        intro hseen
        rw [parseContentLength_eq hdigits, if_pos hseen] at h
        exact absurd h (by simp)
      have hlt : decimalFrom 0 digits < 2 ^ 64 := by
        by_contra hge
        exact hseen (hshows digits hdigits (by omega))
      rw [parseContentLength_eq hdigits, if_neg hseen] at h
      refine ⟨digits, hdigits, ?_⟩
      rw [← Except.ok.inj h, UInt64.toNat_ofNat_of_lt' hlt]
    · rintro ⟨digits, hdigits, heq⟩
      have hlt : decimalFrom 0 digits < 2 ^ 64 := heq ▸ nLength.toNat_lt
      rw [parseContentLength_eq hdigits, if_neg (not_wrapSeen_of_lt hlt), heq, UInt64.ofNat_toNat]
    · rintro n hle ⟨digits, hdigits, rfl⟩
      exact ⟨.mxArithmeticOverflow, by
        rw [parseContentLength_eq hdigits, if_pos (hshows digits hdigits hle)]⟩

/-- Twenty digits whose product with ten wraps to a larger number. -/
theorem not_contentLengthExact : ¬ ∀ v, ContentLengthExact v := by
  intro h
  obtain ⟨hRes, herror⟩ := (h (ascii "30000000000000000000")).2 30000000000000000000 (by decide)
    ⟨ascii "30000000000000000000", ⟨List.cons_ne_nil _ _, List.all_eq_true.mp (by decide), [], [],
      rfl, fun _ h => absurd h List.not_mem_nil, fun _ h => absurd h List.not_mem_nil⟩, by decide⟩
  have hok : parseContentLength (ascii "30000000000000000000") = .ok 11553255926290448384 := by
    decide
  rw [hok] at herror
  exact absurd herror (by simp)

end MxLib.Http
