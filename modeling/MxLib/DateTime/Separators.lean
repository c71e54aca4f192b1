import MxLib.DateTime.DateText

/-!
# Separators

What stands between the items, in a format and in a text that was written with it.  Blanks are
read as a run on both sides, and every other character stands for itself, but for two: a percent
sign is written twice in a format, and behind a backslash the next character is compared with the
text and not taken from it.  So a text with a backslash is not read behind it
(`scanFrom_backslash`).
-/

namespace MxLib.DateTime

/-- The separator in a format. -/
def separatorFormat (sep : List WChar) : List WChar :=
  sep.flatMap fun ch => if ch == 0x25 || ch == 0x5C then [ch, ch] else [ch]

theorem separatorFormat_cons (ch : WChar) (sep : List WChar) : separatorFormat (ch :: sep) =
    (if ch == 0x25 || ch == 0x5C then [ch, ch] else [ch]) ++ separatorFormat sep :=
  List.flatMap_cons

theorem separatorFormat_plain {ch : WChar} (h : ch ≠ 0x25) (h' : ch ≠ 0x5C) (sep : List WChar) :
    separatorFormat (ch :: sep) = ch :: separatorFormat sep := by
  rw [separatorFormat_cons, if_neg (by simp [h, h'])]
  rfl

theorem ne_of_isBlankW {ch : WChar} (h : isBlankW ch = true) : ch ≠ 0x25 ∧ ch ≠ 0x5C := by
  constructor
  · rintro rfl
    exact absurd h (by decide)
  · rintro rfl
    exact absurd h (by decide)

theorem dropWhile_isBlankW {sW : List WChar} (h : isBlankW (charAt sW 0) = false) :
    sW.dropWhile isBlankW = sW := by
  cases sW with
  | nil => rfl
  | cons ch sW => rw [List.dropWhile_cons, if_neg (by rw [← Bool.not_eq_true] at h; exact h)]

/-- Blanks at the front of a separator are blanks at the front of the format. -/
theorem dropWhile_separatorFormat {szFormatW : List WChar}
    (hformat : isBlankW (charAt szFormatW 0) = false) (sep : List WChar) :
    (separatorFormat sep ++ szFormatW).dropWhile isBlankW =
      separatorFormat (sep.dropWhile isBlankW) ++ szFormatW := by
  induction sep with
  | nil => exact dropWhile_isBlankW hformat
  | cons ch sep ih =>
    by_cases hch : isBlankW ch = true
    · obtain ⟨hpercent, hbackslash⟩ := ne_of_isBlankW hch
      rw [separatorFormat_plain hpercent hbackslash, List.cons_append, List.dropWhile_cons,
        if_pos hch, ih, List.dropWhile_cons, if_pos hch]
    · rw [List.dropWhile_cons, if_neg hch, separatorFormat_cons]
      split
      · exact List.dropWhile_cons_of_neg hch
      · exact List.dropWhile_cons_of_neg hch

theorem dropWhile_append_isBlankW {szDateW : List WChar}
    (hdate : isBlankW (charAt szDateW 0) = false) (sep : List WChar) :
    (sep ++ szDateW).dropWhile isBlankW = sep.dropWhile isBlankW ++ szDateW := by
  induction sep with
  | nil => exact dropWhile_isBlankW hdate
  | cons ch sep ih =>
    by_cases hch : isBlankW ch = true
    · rw [List.cons_append, List.dropWhile_cons, if_pos hch, ih, List.dropWhile_cons, if_pos hch]
    · rw [List.dropWhile_cons, if_neg hch]
      exact List.dropWhile_cons_of_neg hch

section Scan

variable {env : DateEnvironment} {nTwoDigitsYearRule : Int} {szOrigDateW : List WChar}
  {v : DateValues}

theorem scanFrom_blanks {ch : WChar} (hch : isBlankW ch = true) (szFormatW szDateW : List WChar) :
    scanFrom env nTwoDigitsYearRule szOrigDateW ⟨ch :: szFormatW, ch :: szDateW, none, v⟩ =
      scanFrom env nTwoDigitsYearRule szOrigDateW
        ⟨szFormatW.dropWhile isBlankW, szDateW.dropWhile isBlankW, none, v⟩ := by
  have hne : ∀ ch', isBlankW ch' = false → ¬ (ch == ch') = true := by
    intro ch' hch' heq
    rw [beq_iff_eq] at heq
    rw [heq, hch'] at hch
    cases hch
  refine scanFrom_literal (ne_of_isBlankW hch).1 (List.cons_ne_nil _ _) ?_
  unfold readLiteral
  rw [if_neg (hne _ (by decide)), if_neg (hne _ (by decide)), if_neg (hne _ (by decide)),
    if_pos hch, charAt_cons_zero, hch, List.dropWhile_cons, if_pos hch]
  rfl

theorem scanFrom_slash (szFormatW szDateW : List WChar) :
    scanFrom env nTwoDigitsYearRule szOrigDateW ⟨0x2F :: szFormatW, 0x2F :: szDateW, none, v⟩ =
      scanFrom env nTwoDigitsYearRule szOrigDateW ⟨szFormatW, szDateW, none, v⟩ := by
  have hread : readSeparator szDateSeparatorW (0x2F :: szDateW) = .ok szDateW := by
    have hsame : strNCompareW (0x2F :: szDateW) szDateSeparatorW szDateSeparatorW.length true =
        true := by
      rw [strNCompareW]
      rfl
    rw [readSeparator, hsame]
    rfl
  refine scanFrom_literal (by decide) (List.cons_ne_nil _ _) ?_
  unfold readLiteral
  rw [if_pos (by decide), hread]
  rfl

theorem scanFrom_percent (szFormatW szDateW : List WChar) :
    scanFrom env nTwoDigitsYearRule szOrigDateW
        ⟨0x25 :: 0x25 :: szFormatW, 0x25 :: szDateW, none, v⟩ =
      scanFrom env nTwoDigitsYearRule szOrigDateW ⟨szFormatW, szDateW, none, v⟩ :=
  scanFrom_item (by decide) (List.cons_ne_nil _ _) rfl

/-- **A separator is read**, where neither the format nor the text goes on with a blank. -/
theorem scanFrom_separator {szFormatW szDateW : List WChar}
    (hformat : isBlankW (charAt szFormatW 0) = false)
    (hdate : isBlankW (charAt szDateW 0) = false) {sep : List WChar}
    (hsep : (0x5C : WChar) ∉ sep) :
    scanFrom env nTwoDigitsYearRule szOrigDateW
        ⟨separatorFormat sep ++ szFormatW, sep ++ szDateW, none, v⟩ =
      scanFrom env nTwoDigitsYearRule szOrigDateW ⟨szFormatW, szDateW, none, v⟩ := by
  induction hlen : sep.length using Nat.strongRecOn generalizing sep with
  | ind n ih =>
    cases sep with
    | nil => rfl
    | cons ch sep =>
      obtain ⟨hbackslash, hrest⟩ := List.ne_and_not_mem_of_not_mem_cons hsep
      have hgo := ih sep.length (by rw [← hlen]; exact Nat.lt_succ_self _) hrest rfl
      by_cases hpercent : ch = 0x25
      · subst hpercent
        rw [separatorFormat_cons, if_pos (by decide)]
        exact (scanFrom_percent _ _).trans hgo
      rw [separatorFormat_plain hpercent (Ne.symm hbackslash), List.cons_append, List.cons_append]
      by_cases hblank : isBlankW ch = true
      · -- the blanks behind this one go with it
        have hle := (List.dropWhile_sublist isBlankW (l := sep)).length_le
        rw [scanFrom_blanks hblank, dropWhile_separatorFormat hformat,
          dropWhile_append_isBlankW hdate]
        refine ih _ ?_ (fun hmem => hrest ((List.dropWhile_sublist _).subset hmem)) rfl
        rw [← hlen, List.length_cons]
        omega
      by_cases hslash : ch = 0x2F
      · subst hslash
        rw [scanFrom_slash, hgo]
      by_cases hcolon : ch = 0x3A
      · subst hcolon
        rw [scanFrom_colon, hgo]
      have hspecial : isSpecial ch = false := by
        have hchars : wide "%/:\\ \t" = [0x25, 0x2F, 0x3A, 0x5C, 0x20, 0x09] := by decide
        rw [isBlankW, Bool.or_eq_true, beq_iff_eq, beq_iff_eq, not_or] at hblank
        simp [isSpecial, hchars, hpercent, hslash, hcolon, Ne.symm hbackslash, hblank]
      rw [scanFrom_char hspecial, hgo]

/-- What stands behind a backslash in the format is not taken from the text. -/
theorem scanFrom_backslash (szFormatW szDateW : List WChar) :
    scanFrom env nTwoDigitsYearRule szOrigDateW
        ⟨0x5C :: 0x5C :: szFormatW, 0x5C :: szDateW, none, v⟩ =
      scanFrom env nTwoDigitsYearRule szOrigDateW ⟨szFormatW, 0x5C :: szDateW, none, v⟩ :=
  scanFrom_literal (by decide) (List.cons_ne_nil _ _) rfl

/-- Another character than a backslash is refused where a backslash stands. -/
theorem scanFrom_separator_error {ch : WChar} (hch : ch ≠ 0x5C)
    (sep szFormatW szDateW : List WChar) :
    scanFrom env nTwoDigitsYearRule szOrigDateW
        ⟨separatorFormat (ch :: sep) ++ szFormatW, 0x5C :: szDateW, none, v⟩ = .error .eFail := by
  by_cases hpercent : ch = 0x25
  · subst hpercent
    rw [separatorFormat_cons, if_pos (by decide)]
    exact scanFrom_item_error (by decide) (List.cons_ne_nil _ _) rfl
  rw [separatorFormat_plain hpercent hch, List.cons_append]
  refine scanFrom_literal_error hpercent (List.cons_ne_nil _ _) ?_
  have hupper : charToUpperW ch ≠ 0x5C := by
    rw [charToUpperW]
    split
    · rename_i hsmall
      intro h
      have hvalue : ch = 0x7C := by
        rw [← UInt16.sub_add_cancel ch 0x20, h]
        rfl
      rw [hvalue] at hsmall
      cases hsmall
    · exact hch
  have hother : ¬ (charToUpperW 0x5C == charToUpperW ch) = true := fun heq =>
    hupper (beq_iff_eq.mp heq).symm
  have hdate : strNCompareW (0x5C :: szDateW) szDateSeparatorW szDateSeparatorW.length true =
      false := by
    rw [strNCompareW]
    rfl
  have htime : strNCompareW (0x5C :: szDateW) szTimeSeparatorW szTimeSeparatorW.length true =
      false := by
    rw [strNCompareW]
    rfl
  unfold readLiteral
  split
  · rw [readSeparator, hdate]
    rfl
  split
  · rw [readSeparator, htime]
    rfl
  split
  · rename_i hsame
    exact absurd (beq_iff_eq.mp hsame) hch
  split
  · rfl
  · rw [charAt_cons_zero, if_neg hother]

/-- **A text is not read behind its first backslash.**  The format goes on where nothing but
backslashes stands behind it. -/
theorem scanFrom_behind_backslash (sep szFormatW szDateW : List WChar) :
    scanFrom env nTwoDigitsYearRule szOrigDateW
        ⟨separatorFormat sep ++ szFormatW, 0x5C :: szDateW, none, v⟩ =
      if sep.all (· == 0x5C) then
        scanFrom env nTwoDigitsYearRule szOrigDateW ⟨szFormatW, 0x5C :: szDateW, none, v⟩
      else .error .eFail := by
  induction sep with
  | nil => rfl
  | cons ch sep ih =>
    by_cases hch : ch = 0x5C
    · subst hch
      rw [separatorFormat_cons, if_pos (by decide), List.all_cons, beq_self_eq_true,
        Bool.true_and, ← ih]
      exact scanFrom_backslash _ _
    · rw [scanFrom_separator_error hch, List.all_cons, if_neg (by simp [hch])]

/-- What stands behind the first backslash, with it. -/
def fromBackslash (sep : List WChar) : List WChar := sep.dropWhile (· != 0x5C)

/-- **What becomes of a separator**, where neither the format nor the text goes on with a
blank. -/
theorem scanFrom_separator_cases {szFormatW szDateW : List WChar}
    (hformat : isBlankW (charAt szFormatW 0) = false)
    (hdate : isBlankW (charAt szDateW 0) = false) (sep : List WChar) :
    scanFrom env nTwoDigitsYearRule szOrigDateW
        ⟨separatorFormat sep ++ szFormatW, sep ++ szDateW, none, v⟩ =
      if (fromBackslash sep).all (· == 0x5C) then
        scanFrom env nTwoDigitsYearRule szOrigDateW
          ⟨szFormatW, fromBackslash sep ++ szDateW, none, v⟩
      else .error .eFail := by
  have hkeep : ∀ {front : List WChar}, (0x5C : WChar) ∉ front →
      ∀ ch ∈ front, (ch != 0x5C) = true := by
    intro front hfront ch hch
    rw [bne_iff_ne]
    rintro rfl
    exact hfront hch
  by_cases hmem : (0x5C : WChar) ∈ sep
  · obtain ⟨front, rest, rfl, hfront⟩ := List.eq_append_cons_of_mem hmem
    have hfrom : fromBackslash (front ++ 0x5C :: rest) = 0x5C :: rest := by
      rw [fromBackslash, List.dropWhile_append_of_pos (hkeep hfront)]
      rfl
    have hsplit : separatorFormat (front ++ 0x5C :: rest) =
        separatorFormat front ++ 0x5C :: 0x5C :: separatorFormat rest := List.flatMap_append
    rw [hfrom, hsplit, List.append_assoc, List.append_assoc, List.cons_append, List.cons_append,
      List.cons_append, scanFrom_separator rfl rfl hfront, scanFrom_backslash,
      scanFrom_behind_backslash]
    rfl
  · have hnone : fromBackslash sep = [] := by
      rw [fromBackslash, ← List.append_nil sep, List.dropWhile_append_of_pos (hkeep hmem)]
      rfl
    rw [hnone, scanFrom_separator hformat hdate hmem]
    rfl

/-- The end of a format. -/
theorem scanFrom_end (szDateW : List WChar) :
    scanFrom env nTwoDigitsYearRule szOrigDateW ⟨[], szDateW, none, v⟩ = .ok v := by
  cases szDateW with
  | nil => exact scanFrom_nil
  | cons ch szDateW => exact scanFrom_inr rfl

end Scan

end MxLib.DateTime
