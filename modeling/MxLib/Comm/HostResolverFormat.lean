import MxLib.Comm.HostResolverIPv6Text

/-!
# Printing an IPv6 address

`FormatAddress` prints the words in front of the longest run of zeros, a double colon,
and the words behind it.  A run of less than two words is not left out, but the double
colon stands there all the same, so the text has nine parts and `IsValidIPV6` does not
take it back (`ipv6Address_formatAddress_iff`).
-/

namespace MxLib.HostResolver

open Numeral

/-! ### The code -/

/-- `%x` -/
def hexText (n : Nat) : List WChar := (Nat.toDigits 16 n).map fun c => UInt16.ofNat c.toNat

/-- `while (nOfs < 8 && lpW[nOfs] == 0) { nCurrSeqLen++; nOfs++; }` -/
def zerosFrom (lpW : List Nat) (nOfs : Nat) : Nat :=
  if nOfs < 8 ∧ lpW.getD nOfs 0 = 0 then zerosFrom lpW (nOfs + 1) + 1 else 0
termination_by 8 - nOfs

theorem zerosFrom_pos {lpW : List Nat} {nOfs : Nat} (hlt : nOfs < 8) (h : lpW.getD nOfs 0 = 0) :
    0 < zerosFrom lpW nOfs := by
  rw [zerosFrom, if_pos ⟨hlt, h⟩]
  exact Nat.succ_pos _

/-- The start and the length of the longest sequence of zeros, from `nOfs` on. -/
def longestZeros (lpW : List Nat) (nOfs nSeqStart nSeqLen : Nat) : Nat × Nat :=
  if h : nOfs < 8 then
    if h0 : lpW.getD nOfs 0 = 0 then
      let nCurrSeqLen := zerosFrom lpW nOfs
      have := zerosFrom_pos h h0
      if nCurrSeqLen > nSeqLen then longestZeros lpW (nOfs + nCurrSeqLen) nOfs nCurrSeqLen
      else longestZeros lpW (nOfs + nCurrSeqLen) nSeqStart nSeqLen
    else longestZeros lpW (nOfs + 1) nSeqStart nSeqLen
  else (nSeqStart, nSeqLen)
termination_by 8 - nOfs

/-- `for (nOfs = nFrom; nOfs < nTo; nOfs++) cStrDestW.AppendFormat(L"%x:", lpW[nOfs])` -/
def hexWords (lpW : List Nat) (nFrom nTo : Nat) : List WChar :=
  ((lpW.take nTo).drop nFrom).flatMap fun w => hexText w ++ [0x3A]

/-- `FormatAddress` of the words of an IPv6 address. -/
def formatAddress (lpW : List Nat) : List WChar :=
  let (nSeqStart, nSeqLen) := longestZeros lpW 0 0 0
  let nSeqLen := if nSeqLen < 2 then 0 else nSeqLen
  let cStrDestW := if nSeqStart = 0 then [0x3A] else hexWords lpW 0 nSeqStart
  let cStrDestW := cStrDestW ++ [0x3A] ++ hexWords lpW (nSeqStart + nSeqLen) 7
  if max (nSeqStart + nSeqLen) 7 < 8 then cStrDestW ++ hexText (lpW.getD 7 0) else cStrDestW

example : formatAddress [0xfe80, 0, 0, 0, 0x12, 0, 0, 0x3b4] = wide "fe80::12:0:0:3b4" ∧
    formatAddress [1, 2, 3, 4, 5, 6, 7, 8] = wide "::1:2:3:4:5:6:7:8" := by
  decide +kernel

/-! ### The longest sequence of zeros -/

theorem zerosFrom_spec (lpW : List Nat) (nOfs : Nat) (h : nOfs ≤ 8) :
    nOfs + zerosFrom lpW nOfs ≤ 8 ∧ (∀ k < zerosFrom lpW nOfs, lpW.getD (nOfs + k) 0 = 0) ∧
      (nOfs + zerosFrom lpW nOfs < 8 → lpW.getD (nOfs + zerosFrom lpW nOfs) 0 ≠ 0) := by
  induction nOfs using zerosFrom.induct lpW with
  | case1 nOfs hzero ih =>
    obtain ⟨hle, hall, hend⟩ := ih (by omega)
    rw [zerosFrom, if_pos hzero]
    refine ⟨by omega, ?_, ?_⟩
    · intro k hk
      cases k with
      | zero => exact hzero.2
      | succ k => rw [show nOfs + (k + 1) = nOfs + 1 + k by omega]; exact hall k (by omega)
    · intro hlt
      rw [show nOfs + (zerosFrom lpW (nOfs + 1) + 1) = nOfs + 1 + zerosFrom lpW (nOfs + 1) by omega]
      exact hend (by omega)
  | case2 nOfs hstop =>
    rw [zerosFrom, if_neg hstop]
    exact ⟨h, fun k hk => absurd hk (Nat.not_lt_zero k), fun hlt h0 => hstop ⟨hlt, h0⟩⟩

/-- A sequence of zeros goes on behind a zero that is followed by one. -/
theorem two_le_zerosFrom {lpW : List Nat} {nOfs i : Nat} (hi : nOfs ≤ i)
    (hrun : i < nOfs + zerosFrom lpW nOfs) (hlt : i < 7) (hi1 : lpW.getD (i + 1) 0 = 0) :
    2 ≤ zerosFrom lpW nOfs := by
  obtain ⟨-, -, hend⟩ := zerosFrom_spec lpW nOfs (by omega)
  by_contra hone
  have hlast : nOfs + zerosFrom lpW nOfs = i + 1 := by omega
  rw [hlast] at hend
  exact hend (by omega) hi1

/-- A sequence of zeros. -/
def IsZeros (lpW : List Nat) (nSeq : Nat × Nat) : Prop :=
  nSeq.1 + nSeq.2 ≤ 8 ∧ ∀ k < nSeq.2, lpW.getD (nSeq.1 + k) 0 = 0

/-- **The longest sequence of zeros** has two words if any two in a row are zero. -/
theorem longestZeros_spec {lpW : List Nat} {nOfs nSeqStart nSeqLen : Nat} (hofs : nOfs ≤ 8)
    (hseq : IsZeros lpW (nSeqStart, nSeqLen)) :
    IsZeros lpW (longestZeros lpW nOfs nSeqStart nSeqLen) ∧
      nSeqLen ≤ (longestZeros lpW nOfs nSeqStart nSeqLen).2 ∧
      ∀ i ≥ nOfs, i < 7 → lpW.getD i 0 = 0 → lpW.getD (i + 1) 0 = 0 →
        2 ≤ (longestZeros lpW nOfs nSeqStart nSeqLen).2 := by
  induction nOfs, nSeqStart, nSeqLen using longestZeros.induct lpW with
  | case1 nOfs nSeqStart nSeqLen h h0 n hpos hgt ih =>
    dsimp only [n] at ih hgt
    obtain ⟨hle, hall, -⟩ := zerosFrom_spec lpW nOfs hofs
    obtain ⟨hzeros, hlen, hpair⟩ := ih hle ⟨hle, hall⟩
    rw [longestZeros, dif_pos h, dif_pos h0, if_pos hgt]
    refine ⟨hzeros, by omega, fun i hi hlt hi0 hi1 => ?_⟩
    by_cases hrun : nOfs + zerosFrom lpW nOfs ≤ i
    · exact hpair i hrun hlt hi0 hi1
    · exact (two_le_zerosFrom hi (by omega) hlt hi1).trans hlen
  | case2 nOfs nSeqStart nSeqLen h h0 n hpos hgt ih =>
    dsimp only [n] at ih hgt
    obtain ⟨hle, hall, -⟩ := zerosFrom_spec lpW nOfs hofs
    obtain ⟨hzeros, hlen, hpair⟩ := ih hle hseq
    rw [longestZeros, dif_pos h, dif_pos h0, if_neg hgt]
    refine ⟨hzeros, hlen, fun i hi hlt hi0 hi1 => ?_⟩
    by_cases hrun : nOfs + zerosFrom lpW nOfs ≤ i
    · exact hpair i hrun hlt hi0 hi1
    · have htwo := two_le_zerosFrom hi (by omega) hlt hi1
      omega
  | case3 nOfs nSeqStart nSeqLen h hne ih =>
    obtain ⟨hzeros, hlen, hpair⟩ := ih (by omega) hseq
    rw [longestZeros, dif_pos h, dif_neg hne]
    refine ⟨hzeros, hlen, fun i hi hlt hi0 hi1 => ?_⟩
    rcases Nat.eq_or_lt_of_le hi with rfl | hi
    · exact absurd hi0 hne
    · exact hpair i hi hlt hi0 hi1
  | case4 nOfs nSeqStart nSeqLen h =>
    rw [longestZeros, dif_neg h]
    exact ⟨hseq, Nat.le_refl _, fun i hi hlt => by omega⟩

/-! ### The text -/

/-- Words with a colon between each two. -/
def hexJoin (ws : List Nat) : List WChar := [0x3A].intercalate (ws.map hexText)

theorem hexaDigit_digitChar {d : Nat} (h : d < 16) :
    hexaDigit (UInt16.ofNat (Nat.digitChar d).toNat) = some d := by
  revert d
  decide

theorem valueFrom_append (base v : Nat) (digits : List Nat) (dw : Nat) :
    valueFrom base v (digits ++ [dw]) = valueFrom base v digits * base + dw := by
  rw [valueFrom, List.foldl_append]
  rfl

/-- The digits of a number give the number. -/
theorem mapM_hexText (n : Nat) :
    ∃ digits, (hexText n).mapM hexaDigit = some digits ∧ valueFrom 16 0 digits = n := by
  induction n using Nat.strongRecOn with
  | ind n ih =>
    by_cases h : n < 16
    · refine ⟨[n], ?_, by simp [valueFrom]⟩
      rw [hexText, Nat.toDigits_of_lt_base h]
      exact mapM_cons_eq_some_iff.mpr ⟨n, [], hexaDigit_digitChar h, rfl, rfl⟩
    · obtain ⟨digits, hdigits, hvalue⟩ := ih (n / 16) (by omega)
      refine ⟨digits ++ [n % 16], ?_, by rw [valueFrom_append, hvalue]; omega⟩
      rw [hexText, Nat.toDigits_of_base_le (by decide) (by omega), List.map_append, List.mapM_append]
      rw [hexText] at hdigits
      rw [hdigits]
      simp [hexaDigit_digitChar (show n % 16 < 16 by omega)]

/-- **A word is printed as a group** of one to four digits. -/
theorem hexGroup_hexText {w : Nat} (h : w < 2 ^ 16) : hexGroup (hexText w) = some w := by
  obtain ⟨digits, hdigits, hvalue⟩ := mapM_hexText w
  have hpos : 1 ≤ (hexText w).length := by
    rw [hexText, List.length_map]
    exact Nat.length_toDigits_pos
  have hfour : (hexText w).length ≤ 4 := by
    rw [hexText, List.length_map]
    exact (Nat.length_toDigits_le_iff (by decide) (by decide)).mpr (by omega)
  rw [hexGroup, if_pos ⟨hpos, hfour⟩, hdigits, Option.map_some, hvalue]

theorem hexa_of_mem_hexText {w : Nat} {chW : WChar} (h : chW ∈ hexText w) :
    (hexaDigit chW).isSome = true := by
  obtain ⟨digits, hdigits, -⟩ := mapM_hexText w
  obtain ⟨dw, hdw⟩ := mem_of_mapM hdigits h
  rw [hdw]
  rfl

/-- **Words that are joined are read back.** -/
theorem hexGroups_hexJoin {ws : List Nat} (hws : ∀ w ∈ ws, w < 2 ^ 16) :
    hexGroups (hexJoin ws) = some ws := by
  have hmap : (ws.map hexText).mapM hexGroup = some ws := by
    induction ws with
    | nil => rfl
    | cons w ws ih =>
      obtain ⟨hw, hws⟩ := List.forall_mem_cons.mp hws
      exact mapM_cons_eq_some_iff.mpr ⟨w, ws, hexGroup_hexText hw, ih hws, rfl⟩
  cases ws with
  | nil => rfl
  | cons w ws =>
    have hcolon : ∀ p ∈ (w :: ws).map hexText, 0x3A ∉ p := by
      intro p hp hch
      obtain ⟨w', -, rfl⟩ := List.mem_map.mp hp
      exact absurd (hexa_of_mem_hexText hch) (by decide)
    have hsplit : (hexJoin (w :: ws)).splitOn 0x3A = (w :: ws).map hexText :=
      List.splitOn_intercalate 0x3A hcolon (List.cons_ne_nil _ _)
    have hne : hexJoin (w :: ws) ≠ [] := by
      intro hnil
      have hw := hexGroup_hexText (List.forall_mem_cons.mp hws).1
      rw [hnil, List.splitOn_nil] at hsplit
      rw [← (List.cons.inj hsplit).1] at hw
      cases hw
    rw [hexGroups, if_neg hne, hsplit, hmap]

theorem hexWords_eq {ws : List Nat} (hne : ws ≠ []) :
    (ws.flatMap fun w => hexText w ++ [0x3A]) = hexJoin ws ++ [0x3A] := by
  induction ws with
  | nil => exact absurd rfl hne
  | cons w ws ih =>
    cases ws with
    | nil => simp [hexJoin]
    | cons w' ws =>
      rw [List.flatMap_cons, ih (List.cons_ne_nil _ _)]
      simp [hexJoin]

theorem hexWords_append (ws : List Nat) (w : Nat) :
    (ws.flatMap fun w => hexText w ++ [0x3A]) ++ hexText w = hexJoin (ws ++ [w]) := by
  induction ws with
  | nil => simp [hexJoin]
  | cons w' ws ih =>
    rw [List.flatMap_cons, List.append_assoc, ih]
    cases ws with
    | nil => simp [hexJoin]
    | cons w'' ws => simp [hexJoin]

/-- **The words in front of a double colon, and those behind it.** -/
theorem formatAddress_eq {lpW : List Nat} (hlen : lpW.length = 8) {nSeqStart nSeqLen : Nat}
    (hseq : longestZeros lpW 0 0 0 = (nSeqStart, nSeqLen)) (hle : nSeqStart + nSeqLen ≤ 8) :
    formatAddress lpW = hexJoin (lpW.take nSeqStart) ++ 0x3A :: 0x3A ::
      hexJoin (lpW.drop (nSeqStart + if nSeqLen < 2 then 0 else nSeqLen)) := by
  have hfront : (if nSeqStart = 0 then [0x3A] else hexWords lpW 0 nSeqStart)
      = hexJoin (lpW.take nSeqStart) ++ [0x3A] := by
    by_cases h : nSeqStart = 0
    · rw [if_pos h, h]
      rfl
    · rw [if_neg h, hexWords, List.drop_zero, hexWords_eq]
      exact List.ne_nil_of_length_pos (by rw [List.length_take]; omega)
  have hbehind : ∀ k ≤ 8, hexWords lpW k 7 ++ (if max k 7 < 8 then hexText (lpW.getD 7 0) else [])
      = hexJoin (lpW.drop k) := by
    intro k hk
    have h7 : lpW.take 7 ++ [lpW.getD 7 0] = lpW := by
      match lpW, hlen with
      | [_, _, _, _, _, _, _, _], _ => rfl
    by_cases hlast : k = 8
    · subst hlast
      rw [if_neg (by decide), List.drop_of_length_le (by omega), hexWords,
        List.drop_of_length_le (by rw [List.length_take]; omega)]
      rfl
    · rw [if_pos (by omega), hexWords, hexWords_append,
        ← List.drop_append_of_le_length (by rw [List.length_take]; omega), h7]
  have hk : nSeqStart + (if nSeqLen < 2 then 0 else nSeqLen) ≤ 8 := by split <;> omega
  rw [formatAddress, hseq]
  dsimp only
  rw [hfront, ← hbehind _ hk]
  generalize nSeqStart + (if nSeqLen < 2 then 0 else nSeqLen) = k
  by_cases hmax : max k 7 < 8
  · rw [if_pos hmax, if_pos hmax]
    simp
  · rw [if_neg hmax, if_neg hmax]
    simp

/-! ### Round trip -/

/-- The characters of groups with a double colon between them. -/
theorem hexa_of_colons {l r : List WChar} {left right : List Nat} (hl : looseGroups l = some left)
    (hr : looseGroups r = some right) {chW : WChar} (hch : chW ∈ l ++ 0x3A :: 0x3A :: r) :
    chW = 0x3A ∨ (hexaDigit chW).isSome = true := by
  simp only [List.mem_append, List.mem_cons] at hch
  rcases hch with hch | rfl | rfl | hch
  · exact hexa_of_looseGroups hl hch
  · exact .inl rfl
  · exact .inl rfl
  · exact hexa_of_looseGroups hr hch

/-- **Groups on both sides of a double colon** are an address if there are less than
eight. -/
theorem readsAddress_colons_iff {l r : List WChar} {left right : List Nat}
    (hl : looseGroups l = some left) (hr : looseGroups r = some right) {words : List Nat}
    {d : Option (List Nat)} :
    ReadsAddress looseGroups ipv4Address (l ++ 0x3A :: 0x3A :: r) words d ↔
      d = none ∧ left.length + right.length < 8 ∧
        words = left ++ List.replicate (8 - left.length - right.length) 0 ++ right := by
  constructor
  · intro h
    cases d with
    | none =>
      rcases h with ⟨hwords, -⟩ | ⟨l', r', left', right', heq, hl', hr', hcount, rfl⟩
      · have hnone := (ends_of_looseGroups hwords).1
        rw [findColons_of_groups hl] at hnone
        cases hnone
      · have hfirst := findColons_of_groups (r := r) hl
        rw [heq, findColons_of_groups hl'] at hfirst
        obtain ⟨rfl, hcons⟩ := List.append_inj heq (Option.some.inj hfirst).symm
        obtain rfl : r = r' := by simpa using hcons
        obtain rfl := Option.some.inj (hl.symm.trans hl')
        obtain rfl := Option.some.inj (hr.symm.trans hr')
        exact ⟨rfl, hcount, rfl⟩
    | some d =>
      obtain ⟨hW, vW, heq, -, hd⟩ := h
      have hmem : ∀ chW ∈ vW, chW = 0x3A ∨ (hexaDigit chW).isSome = true := by
        intro chW hch
        apply hexa_of_colons hl hr
        rw [heq, joinDotted]
        split
        · exact List.mem_append_right _ hch
        · exact List.mem_append_right _ (List.mem_cons_of_mem _ hch)
      have hsuffix : ∀ chW ∈ vW, chW ≠ 0x2F ∧ chW ≠ 0x25 := by
        intro chW hch
        constructor <;>
          · rintro rfl
            rcases hmem _ hch with h | h <;> exact absurd h (by decide)
      rcases hmem _ (dot_mem_of_ipv4Address hd hsuffix).1 with h | h <;> exact absurd h (by decide)
  · rintro ⟨rfl, hcount, rfl⟩
    exact .inr ⟨l, r, left, right, rfl, hl, hr, hcount, rfl⟩

theorem length_hexJoin_le {ws : List Nat} (hws : ∀ w ∈ ws, w < 2 ^ 16) :
    (hexJoin ws).length ≤ 5 * ws.length := by
  induction ws with
  | nil => exact Nat.le_refl 0
  | cons w ws ih =>
    obtain ⟨hw, hws⟩ := List.forall_mem_cons.mp hws
    have hfour : (hexText w).length ≤ 4 := by
      rw [hexText, List.length_map]
      exact (Nat.length_toDigits_le_iff (by decide) (by decide)).mpr (by omega)
    have hrest := ih hws
    cases ws with
    | nil =>
      simp only [hexJoin, List.map_cons, List.map_nil, List.intercalate_singleton, List.length_cons,
        List.length_nil]
      omega
    | cons w' ws =>
      simp only [hexJoin, List.map_cons, List.intercalate_cons_cons, List.length_append,
        List.length_cons, List.length_nil] at hrest ⊢
      omega

theorem isText_of_colons {l r : List WChar} {left right : List Nat} (hl : looseGroups l = some left)
    (hr : looseGroups r = some right) (hlen : l.length + r.length < 2 ^ 63) :
    IsText (l ++ 0x3A :: 0x3A :: r) := by
  refine ⟨fun chW hch => ?_, ?_⟩
  · constructor <;>
      · rintro rfl
        rcases hexa_of_colons hl hr hch with h | h <;> exact absurd h (by decide)
  · simp only [List.length_append, List.length_cons]
    omega

/-- Groups do not start with a bracket. -/
theorem unbracket_of_colons {l r : List WChar} {left right : List Nat} (hl : looseGroups l = some left)
    (hr : looseGroups r = some right) :
    unbracket (l ++ 0x3A :: 0x3A :: r) = l ++ 0x3A :: 0x3A :: r := by
  rw [unbracket, if_neg]
  rintro ⟨-, hhead, -⟩
  rcases hexa_of_colons hl hr (List.mem_of_head? hhead) with h | h <;> exact absurd h (by decide)

/-- **The text of an address is taken back** exactly if two words in a row are zero. -/
theorem ipv6Address_formatAddress_iff {lpW : List Nat} (hlen : lpW.length = 8)
    (hword : ∀ w ∈ lpW, w < 2 ^ 16) :
    ipv6Address false (formatAddress lpW) (formatAddress lpW).length = some lpW ↔
      ∃ i < 7, lpW.getD i 0 = 0 ∧ lpW.getD (i + 1) 0 = 0 := by
  cases hseq : longestZeros lpW 0 0 0 with
  | mk nSeqStart nSeqLen =>
    obtain ⟨⟨hle, hzeros⟩, -, hpair⟩ := @longestZeros_spec lpW 0 0 0 (by omega) ⟨by decide, fun k hk => absurd hk (Nat.not_lt_zero k)⟩
    rw [hseq] at hle hzeros hpair
    dsimp only at hle hzeros hpair
    rw [formatAddress_eq hlen hseq hle]
    have hk : nSeqStart + (if nSeqLen < 2 then 0 else nSeqLen) ≤ 8 := by split <;> omega
    have hfront : ∀ w ∈ lpW.take nSeqStart, w < 2 ^ 16 := fun w hw => hword w (List.mem_of_mem_take hw)
    have hbehind : ∀ w ∈ lpW.drop (nSeqStart + if nSeqLen < 2 then 0 else nSeqLen), w < 2 ^ 16 :=
      fun w hw => hword w (List.mem_of_mem_drop hw)
    have hl := looseGroups_of_hexGroups (hexGroups_hexJoin hfront)
    have hr := looseGroups_of_hexGroups (hexGroups_hexJoin hbehind)
    have htext := isText_of_colons hl hr (by
      have h1 := length_hexJoin_le hfront
      have h2 := length_hexJoin_le hbehind
      rw [List.length_take] at h1
      rw [List.length_drop] at h2
      omega)
    have hbare := unbracket_of_colons hl hr
    rw [ipv6Address_narrow_iff (by rw [hbare]; exact htext), hbare]
    simp only [readsAddress_colons_iff hl hr]
    rw [List.length_take, List.length_drop, hlen]
    constructor
    · rintro ⟨words, d, ⟨-, hcount, -⟩, -, -⟩
      have htwo : ¬ nSeqLen < 2 := by
        intro hlt
        rw [if_pos hlt] at hcount
        omega
      refine ⟨nSeqStart, by omega, hzeros 0 (by omega), hzeros 1 (by omega)⟩
    · rintro ⟨i, hi, hi0, hi1⟩
      have htwo := hpair i (Nat.zero_le i) hi hi0 hi1
      rw [if_neg (by omega)]
      refine ⟨_, none, ⟨rfl, by omega, rfl⟩, fun h => (by cases h), ?_⟩
      have hmiddle : (lpW.drop nSeqStart).take nSeqLen
          = List.replicate (8 - min nSeqStart 8 - (8 - (nSeqStart + nSeqLen))) 0 := by
        apply List.ext_getElem
        · rw [List.length_take, List.length_drop, List.length_replicate]
          omega
        · intro k hk hk'
          rw [List.length_take] at hk
          have := hzeros k (by omega)
          rw [List.getD_eq_getElem?_getD, List.getElem?_eq_getElem (by omega), Option.getD_some] at this
          rw [List.getElem_take, List.getElem_drop, List.getElem_replicate, this]
      rw [← hmiddle, storedWords, Option.map_none, Option.getD_none, List.append_nil,
        ← List.drop_drop, List.append_assoc, List.take_append_drop, List.take_append_drop]

theorem ipv6Address_formatAddress_local :
    let lpW := [0xfe80, 0, 0, 0, 0x12, 0, 0, 0x3b4]
    ipv6Address false (formatAddress lpW) (formatAddress lpW).length = some lpW :=
  (ipv6Address_formatAddress_iff (by decide) (by decide)).mpr ⟨1, by decide, by decide, by decide⟩

/-- An address without zeros is printed with a double colon and eight groups. -/
theorem ipv6Address_formatAddress_no_zeros :
    ¬ ∀ lpW : List Nat, lpW.length = 8 → (∀ w ∈ lpW, w < 2 ^ 16) →
      ipv6Address false (formatAddress lpW) (formatAddress lpW).length = some lpW := by
  intro h
  have hnone : ipv6Address false (formatAddress [1, 2, 3, 4, 5, 6, 7, 8])
      (formatAddress [1, 2, 3, 4, 5, 6, 7, 8]).length = none := by decide +kernel
  have hsome := h [1, 2, 3, 4, 5, 6, 7, 8] (by decide) (by decide)
  rw [hnone] at hsome
  cases hsome

end MxLib.HostResolver
