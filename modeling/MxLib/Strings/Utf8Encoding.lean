import MxLib.Strings.Utf8RoundTrip

/-!
# What is encoded

`Utf8_Encode` refuses a high surrogate that no low one follows.  Nothing looks for the
other half of the condition: a low surrogate without a high one before it is taken for a
character and gets the three bytes of its value.
-/

namespace MxLib

open MxLib.Library.Unicode

/-- **The encoder takes the strings in which the high surrogates are paired.** -/
theorem utf8Encode_succeeds_iff (s : List WChar) :
    (∃ b, utf8Encode s = .ok b) ↔ HighsPaired s := by
  have hmap : ∀ (x : Except HResult (List Byte)) (f : List Byte → List Byte),
      (∃ b, x.map f = .ok b) ↔ ∃ b, x = .ok b := by
    intro x f
    cases x with
    | error r => exact iff_of_false (fun ⟨_, h⟩ => by cases h) (fun ⟨_, h⟩ => by cases h)
    | ok a => exact iff_of_true ⟨_, rfl⟩ ⟨a, rfl⟩
  induction s using isWellFormed.induct with
  | case1 => exact iff_of_true ⟨[], rfl⟩ highsPaired_nil
  | case2 u =>
    by_cases hu : isHighSurrogate u = true
    · have hrange : (0xD800 ≤ u && u ≤ 0xDBFF) = true := hu
      refine iff_of_false ?_ ?_
      · rintro ⟨b, hb⟩
        rw [utf8Encode, if_pos hrange] at hb
        cases hb
      · intro h
        obtain ⟨v, hv, -⟩ := h 0 u rfl hu
        cases hv
    · rw [Bool.not_eq_true] at hu
      rw [utf8Encode_single hu, hmap, highsPaired_single hu]
      exact iff_of_true ⟨[], rfl⟩ highsPaired_nil
  | case3 u v s hu ih =>
    by_cases hv : isLowSurrogate v = true
    · rw [utf8Encode_pair hu hv, hmap, highsPaired_pair hv]
      exact ih
    · refine iff_of_false ?_ ?_
      · rintro ⟨b, hb⟩
        have hrange : (0xD800 ≤ u && u ≤ 0xDBFF) = true := hu
        have hnext : (v < 0xDC00 || v > 0xDFFF) = true := by
          rw [isLowSurrogate, Bool.and_eq_true, not_and_or] at hv
          simpa [UInt16.not_le] using hv
        rw [utf8Encode, if_pos hrange, if_pos hnext] at hb
        cases hb
      · intro h
        obtain ⟨x, hx, hlow⟩ := h 0 u rfl hu
        obtain rfl := Option.some.inj hx
        exact hv hlow
  | case4 u v s hu ih =>
    rw [Bool.not_eq_true] at hu
    rw [utf8Encode_single hu, hmap, highsPaired_single hu]
    exact ih

/-- The encoder takes the well-formed strings and no others, and gives their UTF-8 form. -/
def EncodesExactly (s : List WChar) : Prop :=
  ((∃ b, utf8Encode s = .ok b) ↔ HighsPaired s ∧ LowsPaired s) ∧
    ((∃ b, utf8Encode s = .ok b) → utf8Encode s = .ok (utf8Text s))

/-- **A string is treated as it should be unless all its high surrogates are paired and one
of its low ones is not.** -/
theorem encodesExactly_iff (s : List WChar) :
    EncodesExactly s ↔ (HighsPaired s → LowsPaired s) := by
  rw [EncodesExactly, utf8Encode_succeeds_iff]
  constructor
  · intro h hhighs
    exact (h.1.mp hhighs).2
  · intro h
    refine ⟨⟨fun hhighs => ⟨hhighs, h hhighs⟩, And.left⟩, fun hhighs => ?_⟩
    exact utf8Encode_eq_utf8Text ((isWellFormed_iff s).mpr ⟨hhighs, h hhighs⟩)

/-- A low surrogate alone. -/
theorem not_encodesExactly_low : utf8Encode [0xDC00] = .ok [0xED, 0xB0, 0x80] ∧
    ¬ EncodesExactly [0xDC00] := by
  have henc : utf8Encode [0xDC00] = .ok [0xED, 0xB0, 0x80] := by decide
  refine ⟨henc, fun h => ?_⟩
  obtain ⟨j, -, hj, -⟩ := (h.1.mp ⟨_, henc⟩).2 0 0xDC00 rfl (by decide)
  cases hj

end MxLib
