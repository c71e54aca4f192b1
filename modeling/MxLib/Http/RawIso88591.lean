import Mathlib.Data.List.TakeWhile
import MxLib.Library.Loop
import MxLib.Strings.Utf8RoundTrip

/-!
# UTF-8 that was read as ISO-8859-1

`RawISO_8859_1_to_UTF8` takes the low bytes of a wide text and decodes them, with a window
of four bytes.  A byte that begins no character is dropped.  A character takes more bytes
than it gives units unless it is ASCII, so only ASCII text keeps its length
(`szStr_rawIso88591ToUtf8_iff`).
-/

namespace MxLib.Http

open MxLib.Library

/-! ### The loop -/

/-- The loop of `RawISO_8859_1_to_UTF8` between two turns. -/
structure RawScan where
  szSrcW : List WChar
  szInputA : List Byte
  cStrDestW : List WChar

/-- A turn of the loop of `RawISO_8859_1_to_UTF8`, and its exit: the window is filled up
to four bytes, and what is decoded leaves it, or the byte in front does. -/
def rawTurn (s : RawScan) : RawScan ⊕ List WChar :=
  if s.szSrcW = [] ∧ s.szInputA = [] then .inr s.cStrDestW
  else
    let nFree := 4 - s.szInputA.length
    let szInputA := s.szInputA ++ (s.szSrcW.take nFree).map UInt16.toUInt8
    let szSrcW := s.szSrcW.drop nFree
    match utf8DecodeChar szInputA with
    | none => .inl ⟨szSrcW, szInputA.drop 1, s.cStrDestW⟩
    | some (ch0, ch1, len) =>
      .inl ⟨szSrcW, szInputA.drop len, s.cStrDestW ++ if ch1 != 0 then [ch0, ch1] else [ch0]⟩

/-- The bytes that are still to be decoded. -/
def RawScan.rest (s : RawScan) : List Byte := s.szInputA ++ s.szSrcW.map UInt16.toUInt8

/-- `RawISO_8859_1_to_UTF8` -/
def rawIso88591ToUtf8 (szSrcW : List WChar) : List WChar :=
  Loop.exec rawTurn (fun s => s.rest.length) [] ⟨szSrcW, [], []⟩

/-- What one call of the decoder reads: an ASCII character, or more bytes than the
units it gives. -/
theorem utf8DecodeChar_units {ch : Byte} {rest : List Byte} {ch0 ch1 : WChar} {len : Nat}
    (h : utf8DecodeChar (ch :: rest) = some (ch0, ch1, len)) :
    (ch.toNat < 0x80 ∧ ch0 = ch.toUInt16 ∧ ch1 = 0 ∧ len = 1) ∨
      (0x80 ≤ ch.toNat ∧ ch1 = 0 ∧ 1 < len ∧ len ≤ (ch :: rest).length) := by
  by_cases h0 : ch.toNat < 0x80
  · have hascii : ch < 0x80 := by
      simpa only [UInt8.lt_iff_toNat_lt, UInt8.reduceToNat] using h0
    rw [utf8DecodeChar_ascii hascii, Option.some.injEq, Prod.mk.injEq, Prod.mk.injEq] at h
    exact Or.inl ⟨h0, h.1.symm, h.2.1.symm, h.2.2.symm⟩
  refine Or.inr ?_
  by_cases h1 : ch.toNat < 0xC2 ∨ 0xF8 < ch.toNat
  · rw [utf8DecodeChar_none (by rw [charAt_cons_zero]; omega)] at h
    cases h
  by_cases h2 : ch.toNat ≤ 0xDF
  · rw [utf8DecodeChar_two (by rw [charAt_cons_zero]; omega) (by rw [charAt_cons_zero]; omega)] at h
    split at h
    next hform =>
      rw [Option.some.injEq, Prod.mk.injEq, Prod.mk.injEq] at h
      exact ⟨by omega, h.2.1.symm, by omega, by omega⟩
    · cases h
  · rw [utf8DecodeChar_three (by rw [charAt_cons_zero]; omega)
      (by rw [charAt_cons_zero]; omega)] at h
    split at h
    next hform =>
      rw [Option.some.injEq, Prod.mk.injEq, Prod.mk.injEq] at h
      exact ⟨by omega, h.2.1.symm, by omega, by omega⟩
    · cases h

/-- **What a turn does**: an ASCII character is taken over; else at least as many bytes
go as units come, and one more. -/
theorem rawTurn_cases (s : RawScan) :
    (s.rest = [] ∧ rawTurn s = .inr s.cStrDestW) ∨
    ∃ t, rawTurn s = .inl t ∧ ∃ ch tail, s.rest = ch :: tail ∧
      ((ch.toNat < 0x80 ∧ t.rest = tail ∧ t.cStrDestW = s.cStrDestW ++ [ch.toUInt16]) ∨
        (0x80 ≤ ch.toNat ∧ ∃ out, out.length + t.rest.length ≤ tail.length ∧
          t.rest.length ≤ tail.length ∧ t.cStrDestW = s.cStrDestW ++ out)) := by
  by_cases hend : s.szSrcW = [] ∧ s.szInputA = []
  · refine Or.inl ⟨?_, by rw [rawTurn, if_pos hend]⟩
    rw [RawScan.rest, hend.1, hend.2]
    rfl
  refine Or.inr ?_
  -- the window and what is left behind it
  let szInputA := s.szInputA ++ (s.szSrcW.take (4 - s.szInputA.length)).map UInt16.toUInt8
  let szSrcW := s.szSrcW.drop (4 - s.szInputA.length)
  have hrest : s.rest = szInputA ++ szSrcW.map UInt16.toUInt8 := by
    rw [RawScan.rest, List.append_assoc, ← List.map_append, List.take_append_drop]
  have hturn : rawTurn s = match utf8DecodeChar szInputA with
      | none => .inl ⟨szSrcW, szInputA.drop 1, s.cStrDestW⟩
      | some (ch0, ch1, len) =>
        .inl ⟨szSrcW, szInputA.drop len, s.cStrDestW ++ if ch1 != 0 then [ch0, ch1] else [ch0]⟩ := by
    rw [rawTurn, if_neg hend]
  have hne : szInputA ≠ [] := by
    intro hnil
    obtain ⟨hin, hsrc⟩ := List.append_eq_nil_iff.mp hnil
    rw [hin, List.length_nil, List.map_eq_nil_iff] at hsrc
    rcases List.take_eq_nil_iff.mp hsrc with h | h
    · exact absurd h (by decide)
    · exact hend ⟨h, hin⟩
  obtain ⟨ch, window, hwindow⟩ := List.exists_cons_of_ne_nil hne
  rw [hwindow] at hturn hrest
  cases hdec : utf8DecodeChar (ch :: window) with
  | none =>
    rw [hdec] at hturn
    refine ⟨_, hturn, ch, window ++ szSrcW.map UInt16.toUInt8, hrest, Or.inr ⟨?_, [], ?_⟩⟩
    · by_contra hlt
      have hascii : ch < 0x80 := by
        simpa only [UInt8.lt_iff_toNat_lt, UInt8.reduceToNat, Nat.not_le] using hlt
      rw [utf8DecodeChar_ascii hascii] at hdec
      cases hdec
    · simp [RawScan.rest]
  | some r =>
    obtain ⟨ch0, ch1, len⟩ := r
    rw [hdec] at hturn
    refine ⟨_, hturn, ch, window ++ szSrcW.map UInt16.toUInt8, hrest, ?_⟩
    rcases utf8DecodeChar_units hdec with ⟨hlt, rfl, rfl, rfl⟩ | ⟨hle, rfl, hlen, hlen'⟩
    · exact Or.inl ⟨hlt, rfl, rfl⟩
    · refine Or.inr ⟨hle, [ch0], ?_, ?_, rfl⟩
      · simp only [RawScan.rest, List.length_append, List.length_drop, List.length_cons,
          List.length_nil, List.length_map] at hlen' ⊢
        omega
      · simp only [RawScan.rest, List.length_append, List.length_drop, List.length_cons,
          List.length_map]
        omega

theorem rawTurn_measure (s t : RawScan) (h : rawTurn s = .inl t) :
    t.rest.length < s.rest.length := by
  rcases rawTurn_cases s with ⟨_, hleave⟩ | ⟨t', hturn, ch, tail, hrest, hcase⟩
  · rw [hleave] at h
    cases h
  · obtain rfl := Sum.inl.inj (hturn.symm.trans h)
    rw [hrest, List.length_cons]
    rcases hcase with ⟨_, htail, _⟩ | ⟨_, _, _, hle, _⟩
    · rw [htail]
      omega
    · omega

/-- **Only ASCII text keeps its length.** -/
theorem exec_rawTurn (n : Nat) : ∀ s : RawScan, s.rest.length = n →
    ∃ out, Loop.exec rawTurn (fun s => s.rest.length) [] s = s.cStrDestW ++ out ∧
      out.length ≤ n ∧ (out.length = n → ∀ ch ∈ s.rest, ch.toNat < 0x80) ∧
      ((∀ ch ∈ s.rest, ch.toNat < 0x80) → out = s.rest.map UInt8.toUInt16) := by
  induction n using Nat.strongRecOn with
  | ind n ih =>
    intro s hn
    rcases rawTurn_cases s with ⟨hnil, hleave⟩ | ⟨t, hturn, ch, tail, hrest, hcase⟩
    · refine ⟨[], ?_, Nat.zero_le _, fun _ => ?_, fun _ => ?_⟩
      · rw [Loop.exec_inr [] hleave, List.append_nil]
      · rw [hnil]
        exact fun _ h => absurd h List.not_mem_nil
      · rw [hnil]
        rfl
    have hstep := Loop.exec_inl rawTurn_measure [] hturn
    have hlt := rawTurn_measure s t hturn
    rw [hrest, List.length_cons] at hn hlt
    obtain ⟨out, hexec, hlen, hascii, hout⟩ := ih t.rest.length (by omega) t rfl
    rcases hcase with ⟨hch, htail, hdest⟩ | ⟨hch, out', hlen', hle, hdest⟩
    · refine ⟨ch.toUInt16 :: out, ?_, ?_, fun hfull => ?_, fun hall => ?_⟩
      · rw [hstep, hexec, hdest, List.append_assoc]
        rfl
      · rw [List.length_cons]
        rw [htail] at hlen
        omega
      · rw [List.length_cons] at hfull
        rw [hrest]
        rw [htail] at hascii
        exact List.forall_mem_cons.mpr ⟨hch, hascii (by omega)⟩
      · rw [hrest] at hall ⊢
        rw [List.map_cons, ← htail, ← hout (htail ▸ (List.forall_mem_cons.mp hall).2)]
    · refine ⟨out' ++ out, ?_, ?_, fun hfull => ?_, fun hall => ?_⟩
      · rw [hstep, hexec, hdest, List.append_assoc]
      · rw [List.length_append]
        omega
      · rw [List.length_append] at hfull
        omega
      · rw [hrest] at hall
        have := (List.forall_mem_cons.mp hall).1
        omega

/-- **The second decoding gives a text back exactly when it is ASCII.** -/
theorem szStr_rawIso88591ToUtf8_iff {s : List WChar} (h : ∀ u ∈ s, 0x20 ≤ u) :
    szStr (rawIso88591ToUtf8 s) = s ↔ ∀ u ∈ s, u < 0x80 := by
  obtain ⟨out, hexec, hlen, hascii, hout⟩ := exec_rawTurn (s.map UInt16.toUInt8).length
    ⟨s, [], []⟩ rfl
  have hraw : rawIso88591ToUtf8 s = out := hexec
  rw [List.length_map] at hlen hascii
  have hback : (∀ ch ∈ s.map UInt16.toUInt8, ch.toNat < 0x80) →
      out = s.map fun u => u.toUInt8.toUInt16 := by
    intro hall
    rw [hout hall]
    exact List.map_map
  rw [hraw]
  constructor
  · intro heq u hu
    have hle : (szStr out).length ≤ out.length := (List.takeWhile_sublist _).length_le
    rw [heq] at hle
    have hbytes := hascii (by omega)
    have htake : szStr out = out :=
      (List.takeWhile_prefix _).eq_of_length (by rw [← szStr, heq]; omega)
    rw [heq, hback hbytes] at htake
    rw [htake, List.mem_map] at hu
    obtain ⟨v, hv, rfl⟩ := hu
    have hlt := hbytes v.toUInt8 (List.mem_map_of_mem hv)
    simpa only [UInt16.lt_iff_toNat_lt, UInt8.toNat_toUInt16, UInt16.reduceToNat] using hlt
  · intro hall
    have hne : ∀ u ∈ s, u ≠ 0 := fun u hu hz => absurd (h u hu) (by rw [hz]; decide)
    have hlt : ∀ u ∈ s, u.toNat < 0x80 := fun u hu => by
      simpa only [UInt16.lt_iff_toNat_lt, UInt16.reduceToNat] using hall u hu
    have hself : ∀ u ∈ s, u.toUInt8.toUInt16 = u := by
      intro u hu
      have hu' := hlt u hu
      rw [← UInt16.toNat_inj, UInt8.toNat_toUInt16, UInt16.toNat_toUInt8]
      omega
    have hbytes : ∀ ch ∈ s.map UInt16.toUInt8, ch.toNat < 0x80 := by
      intro ch hch
      obtain ⟨u, hu, rfl⟩ := List.mem_map.mp hch
      have hu' := hlt u hu
      rw [UInt16.toNat_toUInt8]
      omega
    rw [hback hbytes, List.map_congr_left (g := id) hself, List.map_id, szStr_of_ne_zero hne]

end MxLib.Http
