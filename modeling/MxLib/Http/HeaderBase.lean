import MxLib.Http.HttpUtils
import MxLib.Library.Loop

/-!
# The scanners of `CHttpHeaderBase`

Every header class reads its value with the same few helpers, which move a
cursor `sA` towards `szEndA`.  The model keeps what is left between the two: a
cursor is the list of the bytes from `sA` to `szEndA`, so a later cursor is a
shorter list.

`getQuotedString` is the one with two nested loops.  Its inner loop runs over
plain text and stops at a quote, at a backslash or at a control character; the
outer loop then deals with the first two and not with the third.  The text a
quoted string may hold without stopping the scan for good is `quotedTextOk`, and
`getQuotedString_progress_iff` says this is exactly when the scan ends.
-/

namespace MxLib.Http

open MxLib.Library

def skipSpaces (sA : List Byte) : List Byte := sA.dropWhile isBlank

theorem skipSpaces_cons {ch : Byte} (h : isBlank ch = false) (rest : List Byte) :
    skipSpaces (ch :: rest) = ch :: rest := by
  rw [skipSpaces, List.dropWhile_cons, if_neg (by rw [h]; decide)]

/-- `SkipUntil` -/
def skipUntil (szStopCharsA sA : List Byte) : List Byte :=
  sA.dropWhile fun ch => !szStopCharsA.contains ch

def szSeparators : List Byte := ascii "()<>@,;:\\\"/[]?=\x7b\x7d"

/-- The characters `GetToken` steps over. -/
def isTokenChar (ch : Byte) : Bool :=
  !(ch < 0x21 || ch > 0x7E || szSeparators.contains ch)

/-- The token at the cursor and the cursor after it. -/
def getToken (sA : List Byte) : List Byte × List Byte :=
  (sA.takeWhile isTokenChar, sA.dropWhile isTokenChar)

/-! ### Quoted strings -/

/-- The characters the inner loop of `GetQuotedString` steps over. -/
def isQuotedText (ch : Byte) : Bool :=
  (0x20 ≤ ch || ch == chTab || ch == chCR || ch == chLF) && ch != chBackslash && ch != chQuote

/-- The outer loop of `GetQuotedString` between two turns. -/
structure QuotedScan where
  sA : List Byte
  cStrA : List Byte
deriving DecidableEq

/-- What `GetQuotedString` returns: its code, the text and the cursor. -/
structure QuotedResult where
  hRes : HResult
  cStrA : List Byte
  sA : List Byte
deriving DecidableEq

/-- What follows the inner loop: the end of the value, a backslash with the
character it protects, or another turn from where the inner loop stopped. -/
def quotedStop (sA cStrA : List Byte) : QuotedScan ⊕ QuotedResult :=
  match sA with
  | [] => .inr ⟨.eInvalidArg, cStrA, []⟩
  | ch :: rest =>
    if ch == chBackslash then
      match rest with
      | [] => .inr ⟨.eInvalidArg, cStrA, []⟩
      | esc :: rest' =>
        if esc == 0 then .inr ⟨.eInvalidArg, cStrA, esc :: rest'⟩
        else .inl ⟨rest', cStrA ++ [esc]⟩
    else .inl ⟨ch :: rest, cStrA⟩

/-- One turn of the outer loop of `GetQuotedString`, and its exit. -/
def quotedTurn (s : QuotedScan) : QuotedScan ⊕ QuotedResult :=
  match s.sA with
  | [] => .inr ⟨.eInvalidArg, s.cStrA, []⟩
  | ch :: rest =>
    if ch == chQuote then .inr ⟨.sOk, s.cStrA, rest⟩
    else quotedStop (s.sA.dropWhile isQuotedText) (s.cStrA ++ s.sA.takeWhile isQuotedText)

/-- `GetQuotedString` with at most `fuel` turns of its outer loop. -/
def getQuotedString (fuel : Nat) (sA : List Byte) : Option QuotedResult :=
  match sA with
  | [] => some ⟨.eInvalidArg, [], []⟩
  | ch :: rest =>
    if ch == chQuote then Loop.run quotedTurn fuel ⟨rest, []⟩
    else some ⟨.eInvalidArg, [], ch :: rest⟩

/-- The text after an opening quote never stops the scan for good: up to the
closing quote, a bad escape or the end of the value, every character that is not
escaped is plain text. -/
def quotedTextOk : List Byte → Bool
  | [] => true
  | [ch] => ch == chQuote || ch == chBackslash || isQuotedText ch
  | ch :: esc :: rest =>
    if ch == chQuote then true
    else if ch == chBackslash then esc == 0 || quotedTextOk rest
    else isQuotedText ch && quotedTextOk (esc :: rest)

theorem isQuotedText_ne {ch : Byte} (h : isQuotedText ch = true) :
    ch ≠ chQuote ∧ ch ≠ chBackslash := by
  simp only [isQuotedText, Bool.and_eq_true, bne_iff_ne] at h
  exact ⟨h.2, h.1.2⟩

theorem quotedTextOk_quote (rest : List Byte) : quotedTextOk (chQuote :: rest) = true := by
  cases rest with
  | nil => simp [quotedTextOk]
  | cons esc rest => simp [quotedTextOk]

theorem quotedTextOk_plain {ch : Byte} (h : isQuotedText ch = true) (rest : List Byte) :
    quotedTextOk (ch :: rest) = quotedTextOk rest := by
  obtain ⟨hq, hb⟩ := isQuotedText_ne h
  cases rest with
  | nil => simp [quotedTextOk, h]
  | cons esc rest => simp [quotedTextOk, hq, hb, h]

theorem quotedTextOk_escape (esc : Byte) (rest : List Byte) :
    quotedTextOk (chBackslash :: esc :: rest) = (esc == 0 || quotedTextOk rest) := by
  simp [quotedTextOk, show chBackslash ≠ chQuote by decide]

/-- A character that is not plain text, not a quote and not a backslash stops
the scan for good. -/
theorem quotedTextOk_control {ch : Byte} (hq : ch ≠ chQuote) (hb : ch ≠ chBackslash)
    (h : isQuotedText ch = false) (rest : List Byte) : quotedTextOk (ch :: rest) = false := by
  cases rest with
  | nil => simp [quotedTextOk, hq, hb, h]
  | cons esc rest => simp [quotedTextOk, hq, hb, h]

/-- The inner loop does not change whether the text is sound. -/
theorem quotedTextOk_dropWhile (sA : List Byte) :
    quotedTextOk (sA.dropWhile isQuotedText) = quotedTextOk sA := by
  induction sA with
  | nil => rfl
  | cons ch rest ih =>
    by_cases h : isQuotedText ch = true
    · rw [List.dropWhile_cons, if_pos h, ih, quotedTextOk_plain h]
    · rw [List.dropWhile_cons, if_neg h]

theorem quotedStop_escape {esc : Byte} (he : esc ≠ 0) (rest cStrA : List Byte) :
    quotedStop (chBackslash :: esc :: rest) cStrA = .inl ⟨rest, cStrA ++ [esc]⟩ := by
  simp [quotedStop, he]

theorem quotedStop_of_ne {ch : Byte} (hb : ch ≠ chBackslash) (rest cStrA : List Byte) :
    quotedStop (ch :: rest) cStrA = .inl ⟨ch :: rest, cStrA⟩ := by
  simp [quotedStop, hb]

/-- What `quotedStop` does where the inner loop stopped: the cursor moves past an
escape, stays on a quote, or stays on a control character. -/
theorem quotedStop_inl {sA cStrA : List Byte} {t : QuotedScan}
    (h : quotedStop sA cStrA = .inl t) :
    (∃ esc rest, esc ≠ 0 ∧ sA = chBackslash :: esc :: rest ∧ t.sA = rest) ∨
      (∃ ch rest, ch ≠ chBackslash ∧ sA = ch :: rest ∧ t.sA = sA) := by
  cases sA with
  | nil => simp [quotedStop] at h
  | cons ch rest =>
    by_cases hb : ch = chBackslash
    · subst hb
      cases rest with
      | nil => simp [quotedStop] at h
      | cons esc rest' =>
        by_cases he : esc = 0
        · simp [quotedStop, he] at h
        · rw [quotedStop_escape he, Sum.inl.injEq] at h
          exact Or.inl ⟨esc, rest', he, rfl, by rw [← h]⟩
    · rw [quotedStop_of_ne hb, Sum.inl.injEq] at h
      exact Or.inr ⟨ch, rest, hb, rfl, by rw [← h]⟩

theorem quotedTurn_of_ne {c : Byte} (hc : c ≠ chQuote) (tail cStrA : List Byte) :
    quotedTurn ⟨c :: tail, cStrA⟩ = quotedStop ((c :: tail).dropWhile isQuotedText)
      (cStrA ++ (c :: tail).takeWhile isQuotedText) := by
  simp [quotedTurn, hc]

/-- **On sound text every turn moves the cursor**, and the text left is sound. -/
theorem quotedTurn_progress {s t : QuotedScan} (hok : quotedTextOk s.sA = true)
    (h : quotedTurn s = .inl t) :
    quotedTextOk t.sA = true ∧ t.sA.length < s.sA.length := by
  obtain ⟨sA, cStrA⟩ := s
  cases sA with
  | nil => simp [quotedTurn] at h
  | cons c tail =>
    by_cases hc : c = chQuote
    · simp [quotedTurn, hc] at h
    rw [quotedTurn_of_ne hc] at h
    have hok' := hok
    rw [← quotedTextOk_dropWhile] at hok'
    have hlen := (List.dropWhile_sublist (p := isQuotedText) (l := c :: tail)).length_le
    rcases quotedStop_inl h with ⟨esc, rest, he, hstop, ht⟩ | ⟨ch, rest, hb, hstop, ht⟩
    · rw [hstop, quotedTextOk_escape] at hok'
      rw [hstop] at hlen
      simp only [List.length_cons] at hlen ⊢
      rw [ht]
      exact ⟨by simpa [he] using hok', by omega⟩
    · rw [ht]
      refine ⟨hok', ?_⟩
      -- the inner loop moved: a first character left in place is a control character
      by_cases hp : isQuotedText c = true
      · rw [List.dropWhile_cons, if_pos hp]
        exact Nat.lt_succ_of_le (List.dropWhile_sublist _).length_le
      · rw [List.dropWhile_cons, if_neg hp] at hstop hok'
        obtain rfl := (List.cons.inj hstop).1
        rw [quotedTextOk_control hc hb (by simpa using hp)] at hok'
        exact absurd hok' (by simp)

/-- **On text that is not sound the loop always asks for another turn.** -/
theorem quotedTurn_stuck {s : QuotedScan} (hbad : quotedTextOk s.sA = false) :
    ∃ t, quotedTurn s = .inl t ∧ quotedTextOk t.sA = false := by
  obtain ⟨sA, cStrA⟩ := s
  cases sA with
  | nil => simp [quotedTextOk] at hbad
  | cons c tail =>
    by_cases hc : c = chQuote
    · rw [hc, quotedTextOk_quote] at hbad
      exact absurd hbad (by simp)
    have hbad' := hbad
    rw [← quotedTextOk_dropWhile] at hbad'
    rw [quotedTurn_of_ne hc]
    cases hd : (c :: tail).dropWhile isQuotedText with
    | nil => rw [hd] at hbad'; simp [quotedTextOk] at hbad'
    | cons ch rest =>
      rw [hd] at hbad'
      by_cases hb : ch = chBackslash
      · subst hb
        cases rest with
        | nil => simp [quotedTextOk] at hbad'
        | cons esc rest' =>
          rw [quotedTextOk_escape, Bool.or_eq_false_iff, beq_eq_false_iff_ne] at hbad'
          exact ⟨_, quotedStop_escape hbad'.1 _ _, hbad'.2⟩
      · exact ⟨_, quotedStop_of_ne hb _ _, hbad'⟩

theorem not_terminates_of_quotedTextOk {rest : List Byte} (hbad : quotedTextOk rest = false) :
    ¬ Loop.Terminates quotedTurn ⟨rest, []⟩ :=
  Loop.not_terminates_of_invariant (fun s => quotedTextOk s.sA = false)
    (fun _ hs => quotedTurn_stuck hs) hbad

/-- The scan ends, and the cursor moves on each turn of the outer loop. -/
def QuotedProgress (sA : List Byte) : Prop :=
  (∃ fuel r, getQuotedString fuel sA = some r) ∧
    ∀ rest, sA = chQuote :: rest → ∀ s t, Loop.Reach quotedTurn ⟨rest, []⟩ s →
      Loop.Turn quotedTurn s t → t.sA.length < s.sA.length

theorem exists_getQuotedString_iff (rest : List Byte) :
    (∃ fuel r, getQuotedString fuel (chQuote :: rest) = some r) ↔
      Loop.Terminates quotedTurn ⟨rest, []⟩ := by
  simp [getQuotedString, Loop.Terminates]

/-- **The scan of a quoted string ends, advancing on every turn, exactly when the
text after the opening quote is sound.** -/
theorem getQuotedString_progress_iff (text : List Byte) (pos : Nat) :
    QuotedProgress (text.drop pos) ↔
      ∀ rest, text.drop pos = chQuote :: rest → quotedTextOk rest = true := by
  constructor
  · rintro ⟨hend, -⟩ rest hrest
    rw [hrest, exists_getQuotedString_iff] at hend
    by_contra hbad
    exact not_terminates_of_quotedTextOk (by simpa using hbad) hend
  · intro hok
    refine ⟨?_, fun rest hrest s t hreach hturn => ?_⟩
    · cases hsA : text.drop pos with
      | nil => exact ⟨0, _, rfl⟩
      | cons ch rest =>
        by_cases hq : ch = chQuote
        · subst hq
          rw [exists_getQuotedString_iff]
          obtain ⟨r, hr⟩ := Loop.exists_run_of_measure
            (fun s => quotedTextOk s.sA = true) (fun s : QuotedScan => s.sA.length)
            (fun s t hs h => quotedTurn_progress hs h) (rest.length + 1) ⟨rest, []⟩
            (hok rest hsA) (Nat.lt_succ_self _)
          exact ⟨_, r, hr⟩
        · exact ⟨0, ⟨.eInvalidArg, [], ch :: rest⟩, by simp [getQuotedString, hq]⟩
    · have hs : quotedTextOk s.sA = true :=
        Loop.reach_induct (fun s => quotedTextOk s.sA = true)
          (fun s t hs h => (quotedTurn_progress hs h).1) (hok rest hrest) hreach
      exact (quotedTurn_progress hs hturn).2

/-- The scan of a quote, the control character `0x01` and a quote never ends. -/
theorem getQuotedString_control_diverges : ¬ QuotedProgress (List.drop 0 [0x22, 0x01, 0x22]) := by
  rintro ⟨hend, -⟩
  rw [List.drop_zero, show (0x22 : Byte) = chQuote from rfl, exists_getQuotedString_iff] at hend
  exact not_terminates_of_quotedTextOk (by decide) hend

end MxLib.Http
