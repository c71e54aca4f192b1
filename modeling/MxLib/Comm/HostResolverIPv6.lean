import MxLib.Comm.HostResolverIPv4
import Mathlib.Data.List.Induction

/-!
# The words of an IPv6 address

`IsValidIPV6` with the eight words that it stores.

The words are filled in from the left, those behind a double colon are moved to the
end, and an IPv4 address stands in the last two of them.  `ipv6Address` keeps that
array; `isSome_ipv6Address` says that it is TRUE where `isValidIPV6` is.

`Helper_IPv6_Fill` reads groups that are wider than those of RFC 4291, and the one for
wide characters looks for a double colon in all that follows
(`fill_narrow_eq_some_iff`, `fill_wide_eq`).
-/

namespace MxLib.HostResolver

/-! ### The code -/

/-- The loop of `Helper_IPv6_Fill`, with `nLen` characters left: the number of slots and
the words. -/
def fillSlots : Nat → List WChar → Nat → Nat → List Nat → Option (Nat × List Nat)
  | 0, _, dwValue, nSlot, lpnAddr =>
    if nSlot = 8 then none else some (nSlot + 1, lpnAddr.set nSlot (dwValue % 2 ^ 16))
  | _ + 1, [], _, _, _ => none
  | nLen + 1, chW :: sW, dwValue, nSlot, lpnAddr =>
    if chW == 0x3A then
      if nLen = 0 || nSlot = 8 then none
      else fillSlots nLen sW 0 (nSlot + 1) (lpnAddr.set nSlot (dwValue % 2 ^ 16))
    else
      match hexaDigit chW with
      | none => none
      | some dw =>
        if dwValue * 16 % 2 ^ 32 < dwValue || dwValue > 0xFFFF - dw then none
        else fillSlots nLen sW (dwValue * 16 % 2 ^ 32 + dw) nSlot lpnAddr

/-- `Helper_IPv6_Fill(lpnAddr, szStrW, nLen)` -/
def helperIPv6Fill (bWide : Bool) (lpnAddr : List Nat) (szStrW : List WChar) (nLen : Nat) :
    Option (Nat × List Nat) :=
  if nLen = 0 then some (0, lpnAddr)
  else if (findColons (if bWide then szStrW else szStrW.take nLen)).isSome then none
  else fillSlots nLen szStrW 0 0 lpnAddr

/-- `for (i = nRightSlots; i > 0; i--) { w[i + k - 1] = w[i - 1]; w[i - 1] = 0; }` -/
def shiftSlots (k : Nat) : Nat → List Nat → List Nat
  | 0, w => w
  | i + 1, w => shiftSlots k i ((w.set (i + k) (w.getD i 0)).set i 0)

/-- The words of the block in front of an IPv4 address of `nSlots` words. -/
def fillAddress (bWide : Bool) (w : List Nat) (szAddressW : List WChar) (nAddressLen nSlots : Nat) :
    Option (List Nat) :=
  match findColons szAddressW with
  | some nPos => do
    let (nRightSlots, w) ← helperIPv6Fill bWide w (szAddressW.drop (nPos + 2))
      ((nAddressLen + 2 ^ 64 - nPos - 2) % 2 ^ 64)
    if nRightSlots + nSlots > 8 then none
    let (nLeftSlots, w) ← helperIPv6Fill bWide (shiftSlots (8 - nSlots - nRightSlots) nRightSlots w)
      szAddressW nPos
    if nLeftSlots + nRightSlots + nSlots > 7 then none
    some w
  | none => do
    let (nCount, w) ← helperIPv6Fill bWide w szAddressW nAddressLen
    if nCount = 8 - nSlots then some w else none

/-- The check of the words in front of an IPv4 address. -/
def checkAddress (bIPv4 : Bool) (nSlots : Nat) (w : List Nat) : Bool :=
  let bIPv6 := (List.range nSlots).any fun i => w.getD i 0 != 0 || (i == 5 && w.getD i 0 != 0xFFFF)
  !(bIPv4 && !bIPv6) ||
    ((List.range 5).all fun i => w.getD i 0 == 0) && (w.getD 5 0 == 0 || w.getD 5 0 == 0xFFFF)

/-- The two words of an IPv4 address, as they lie in memory. -/
def ipv4Words (d : List Nat) : List Nat :=
  [d.getD 0 0 + 256 * d.getD 1 0, d.getD 2 0 + 256 * d.getD 3 0]

/-- `IsValidIPV6`, with the words of the address when it is TRUE. -/
def ipv6Address (bWide : Bool) (szAddressW : List WChar) (nAddressLen : Nat) : Option (List Nat) :=
  let (szAddressW, nAddressLen) := stripBrackets szAddressW nAddressLen
  let address := (szAddressW.take nAddressLen).takeWhile fun chW => chW != 0x2F && chW != 0x25
  if address.length < 2 then none
  else
    match address.reverse.findIdx? (· == 0x3A) with
    | none => none
    | some k =>
      -- IPv4 behind the last colon?
      let nLastColonPos := address.length - 1 - k
      let sTempAddrV4 := if k > 0 then ipv4Address (address.drop (nLastColonPos + 1)) else none
      match sTempAddrV4 with
      | some d =>
        let nAddressLen :=
          if nLastColonPos > 0 && charAt szAddressW (nLastColonPos - 1) == 0x3A then
            nLastColonPos + 1
          else nLastColonPos
        match fillAddress bWide (List.replicate 6 0 ++ ipv4Words d) szAddressW nAddressLen 2 with
        | none => none
        | some w => if checkAddress true 2 w then some w else none
      | none =>
        match fillAddress bWide (List.replicate 8 0) szAddressW address.length 0 with
        | none => none
        | some w => if checkAddress false 0 w then some w else none

/-! ### The array -/

theorem length_fillFrom {nLen dwValue : Nat} {sW : List WChar} {words ws : List Nat}
    (h : fillFrom nLen sW dwValue words = some ws) : words.length < ws.length := by
  induction nLen generalizing sW dwValue words with
  | zero =>
    rw [fillFrom] at h
    split at h
    · cases h
    · cases h
      simp
  | succ nLen ih =>
    cases sW with
    | nil => cases h
    | cons chW sW =>
      rw [fillFrom] at h
      split at h
      · split at h
        · cases h
        · have := ih h
          rw [List.length_append, List.length_singleton] at this
          omega
      · split at h
        · cases h
        · split at h
          · cases h
          · exact ih h

/-- **The loop fills the array from the left.** -/
theorem fillSlots_eq {nLen dwValue : Nat} {sW : List WChar} {words rest : List Nat}
    (hlen : words.length + rest.length = 8) :
    fillSlots nLen sW dwValue words.length (words ++ rest)
      = (fillFrom nLen sW dwValue words).map fun ws =>
          (ws.length, ws ++ rest.drop (ws.length - words.length)) := by
  induction nLen generalizing sW dwValue words rest with
  | zero =>
    rw [fillSlots, fillFrom]
    by_cases h : words.length = 8
    · rw [if_pos h, if_pos h]
      rfl
    · rw [if_neg h, if_neg h]
      cases rest with
      | nil => exact absurd hlen h
      | cons y rest => simp
  | succ nLen ih =>
    cases sW with
    | nil => rfl
    | cons chW sW =>
      rw [fillSlots, fillFrom]
      by_cases hcolon : (chW == 0x3A) = true
      · rw [if_pos hcolon, if_pos hcolon]
        by_cases h : (nLen = 0 || words.length = 8) = true
        · rw [if_pos h, if_pos h]
          rfl
        · rw [if_neg h, if_neg h]
          rw [Bool.or_eq_true, not_or, decide_eq_true_iff, decide_eq_true_iff] at h
          cases rest with
          | nil => exact absurd hlen h.2
          | cons y rest =>
            have hstep := @ih 0 sW (words ++ [dwValue % 2 ^ 16]) rest
              (by simp only [List.length_append, List.length_cons, List.length_nil] at hlen ⊢; omega)
            rw [List.length_append, List.length_singleton] at hstep
            rw [show (words ++ y :: rest).set words.length (dwValue % 2 ^ 16)
              = words ++ [dwValue % 2 ^ 16] ++ rest by simp, hstep]
            apply Option.map_congr
            intro ws hws
            have hlt := length_fillFrom hws
            rw [List.length_append, List.length_singleton] at hlt
            rw [show ws.length - words.length = ws.length - (words.length + 1) + 1 by omega,
              List.drop_succ_cons]
      · rw [if_neg hcolon, if_neg hcolon]
        cases hexaDigit chW with
        | none => rfl
        | some dw =>
          dsimp only
          split
          · rfl
          · exact ih hlen

/-- **`Helper_IPv6_Fill` stores the words of `fill`** at the start of the array. -/
theorem helperIPv6Fill_eq (bWide : Bool) {w : List Nat} (hw : w.length = 8) (szStrW : List WChar)
    (nLen : Nat) :
    helperIPv6Fill bWide w szStrW nLen
      = (fill bWide szStrW nLen).map fun ws => (ws.length, ws ++ w.drop ws.length) := by
  rw [helperIPv6Fill, fill]
  by_cases h : nLen = 0
  · rw [if_pos h, if_pos h]
    rfl
  · rw [if_neg h, if_neg h]
    by_cases hfind : (findColons (if bWide = true then szStrW else szStrW.take nLen)).isSome = true
    · rw [if_pos hfind, if_pos hfind]
      rfl
    · rw [if_neg hfind, if_neg hfind]
      exact @fillSlots_eq nLen 0 _ [] w (by simpa using hw)

@[simp] theorem length_shiftSlots (k n : Nat) (w : List Nat) : (shiftSlots k n w).length = w.length := by
  induction n generalizing w with
  | zero => rfl
  | succ n ih => rw [shiftSlots, ih, List.length_set, List.length_set]

/-- **The words behind a double colon go to the end** of the room for them. -/
theorem shiftSlots_eq (words : List Nat) {k : Nat} (hk : 0 < k) (rest : List Nat) :
    shiftSlots k words.length (words ++ List.replicate k 0 ++ rest)
      = List.replicate k 0 ++ words ++ rest := by
  induction words using List.reverseRecOn generalizing rest with
  | nil => rw [List.nil_append, List.append_nil, List.length_nil, shiftSlots]
  | append_singleton words x ih =>
    obtain ⟨k, rfl⟩ : ∃ k', k = k' + 1 := ⟨k - 1, by omega⟩
    have hread : (words ++ [x] ++ List.replicate (k + 1) 0 ++ rest).getD words.length 0 = x := by simp
    have hlast : words ++ [x] ++ List.replicate (k + 1) 0 ++ rest
        = (words ++ [x] ++ List.replicate k 0) ++ 0 :: rest := by
      rw [List.replicate_succ']
      simp
    have hwrite : ((words ++ [x] ++ List.replicate (k + 1) 0 ++ rest).set (words.length + (k + 1)) x).set
        words.length 0 = words ++ List.replicate (k + 1) 0 ++ x :: rest := by
      rw [hlast, List.set_append_right _ _ (by simp), List.replicate_succ]
      simp
    rw [List.length_append, List.length_singleton, shiftSlots, hread, hwrite, ih]
    simp

/-- **The array holds the words of `ipv6Words`**, and the IPv4 address behind them. -/
theorem fillAddress_eq (bWide : Bool) (szAddressW : List WChar) (nAddressLen : Nat) {nSlots : Nat}
    {v4 : List Nat} (hv4 : v4.length = nSlots) (hslots : nSlots ≤ 2) :
    fillAddress bWide (List.replicate (8 - nSlots) 0 ++ v4) szAddressW nAddressLen nSlots
      = (ipv6Words bWide szAddressW nAddressLen nSlots).map (· ++ v4) := by
  have hw : (List.replicate (8 - nSlots) 0 ++ v4).length = 8 := by
    rw [List.length_append, List.length_replicate]
    omega
  rw [fillAddress, ipv6Words]
  cases findColons szAddressW with
  | none =>
    dsimp only
    rw [helperIPv6Fill_eq bWide hw]
    cases fill bWide szAddressW nAddressLen with
    | none => rfl
    | some ws =>
      simp only [Option.map_some, Option.bind_eq_bind, Option.bind_some]
      by_cases h : ws.length = 8 - nSlots
      · rw [if_pos h, if_pos h, h, List.drop_left' (List.length_replicate)]
        rfl
      · rw [if_neg h, if_neg h]
        rfl
  | some nPos =>
    dsimp only
    rw [helperIPv6Fill_eq bWide hw]
    cases fill bWide (szAddressW.drop (nPos + 2)) ((nAddressLen + 2 ^ 64 - nPos - 2) % 2 ^ 64) with
    | none => rfl
    | some right =>
      simp only [Option.map_some, Option.bind_eq_bind, Option.bind_some]
      by_cases hr : right.length + nSlots > 8
      · simp only [if_pos hr]
        rfl
      · have hshift : (right ++ (List.replicate (8 - nSlots) 0 ++ v4).drop right.length)
            = right ++ List.replicate (8 - nSlots - right.length) 0 ++ v4 := by
          rw [List.drop_append_of_le_length (by rw [List.length_replicate]; omega),
            List.drop_replicate, List.append_assoc]
        simp only [if_neg hr]
        rw [hshift, helperIPv6Fill_eq bWide (by
          rw [length_shiftSlots]
          simp only [List.length_append, List.length_replicate]
          omega)]
        cases fill bWide szAddressW nPos with
        | none => rfl
        | some left =>
          simp only [Option.map_some, Option.bind_some]
          by_cases hl : left.length + right.length + nSlots > 7
          · simp only [if_pos hl]
            rfl
          · simp only [if_neg hl]
            rw [shiftSlots_eq right (by omega), List.append_assoc,
              List.drop_append_of_le_length (by rw [List.length_replicate]; omega),
              List.drop_replicate]
            simp

theorem length_ipv6Words {bWide : Bool} {szAddressW : List WChar} {nAddressLen nSlots : Nat}
    {ws : List Nat} (h : ipv6Words bWide szAddressW nAddressLen nSlots = some ws) :
    ws.length = 8 - nSlots := by
  rw [ipv6Words] at h
  split at h
  · obtain ⟨right, -, h⟩ := Option.bind_eq_some_iff.mp h
    split at h
    · cases h
    · obtain ⟨left, -, h⟩ := Option.bind_eq_some_iff.mp h
      split at h
      · cases h
      · cases h
        simp only [List.length_append, List.length_replicate]
        omega
  · obtain ⟨ws', -, h⟩ := Option.bind_eq_some_iff.mp h
    split at h
    · cases h
      assumption
    · cases h

theorem checkAddress_zero (w : List Nat) : checkAddress false 0 w = true := rfl

theorem checkAddress_two {ws v4 : List Nat} (h : ws.length = 6) :
    checkAddress true 2 (ws ++ v4) = checkWords 2 ws := by
  match ws, h with
  | [_, _, _, _, _, _], _ => simp [checkAddress, checkWords, List.range_succ]

/-- **The words are stored when the answer is TRUE.** -/
theorem isSome_ipv6Address (bWide : Bool) (szAddressW : List WChar) (nAddressLen : Nat) :
    (ipv6Address bWide szAddressW nAddressLen).isSome = isValidIPV6 bWide szAddressW nAddressLen := by
  rw [ipv6Address, isValidIPV6]
  obtain ⟨sW, nLen⟩ := stripBrackets szAddressW nAddressLen
  dsimp only
  generalize (sW.take nLen).takeWhile (fun chW => chW != 0x2F && chW != 0x25) = address
  split
  · rfl
  · cases address.reverse.findIdx? (· == 0x3A) with
    | none => rfl
    | some k =>
      dsimp only
      have hv4 : (decide (k > 0) && isValidIPV4 (address.drop (address.length - 1 - k + 1)))
          = (if k > 0 then ipv4Address (address.drop (address.length - 1 - k + 1)) else none).isSome := by
        by_cases hk : k > 0
        · rw [decide_eq_true hk, Bool.true_and, if_pos hk, isSome_ipv4Address]
        · rw [decide_eq_false hk, if_neg hk]
          rfl
      rw [hv4]
      cases (if k > 0 then ipv4Address (address.drop (address.length - 1 - k + 1)) else none) with
      | none =>
        have hfill := fillAddress_eq bWide sW address.length
          (show ([] : List Nat).length = 0 from rfl) (by omega)
        rw [Nat.sub_zero, List.append_nil] at hfill
        dsimp only
        rw [hfill]
        simp only [Option.isSome_none, Bool.false_eq_true, if_false, Bool.not_false, if_true]
        cases ipv6Words bWide sW address.length 0 with
        | none => rfl
        | some words => rfl
      | some d =>
        dsimp only
        rw [fillAddress_eq bWide sW _ (show (ipv4Words d).length = 2 from rfl) (by omega)]
        simp only [Option.isSome_some, Bool.not_true, Bool.false_eq_true, if_false, if_true]
        generalize (if (decide (address.length - 1 - k > 0) && _) = true then _ else _) = nLen'
        cases hwords : ipv6Words bWide sW nLen' 2 with
        | none => rfl
        | some words =>
          rw [Option.map_some]
          dsimp only
          rw [checkAddress_two (length_ipv6Words hwords)]
          cases checkWords 2 words <;> rfl

/-! ### Double colons -/

theorem findColons_cons (chW : WChar) (sW : List WChar) :
    findColons (chW :: sW)
      = if chW = 0x3A ∧ sW.head? = some 0x3A then some 0 else (findColons sW).map (· + 1) := by
  split
  · next h =>
    obtain ⟨rfl, hhead⟩ := h
    cases sW with
    | nil => cases hhead
    | cons c sW =>
      cases hhead
      rfl
  · next h =>
    rw [findColons]
    intro sW' h1 h2
    exact h ⟨h1, by rw [h2]; rfl⟩

/-- The first double colon of a text. -/
theorem eq_of_findColons {sW : List WChar} {nPos : Nat} (h : findColons sW = some nPos) :
    ∃ r, sW = sW.take nPos ++ 0x3A :: 0x3A :: r ∧ nPos + 2 + r.length = sW.length := by
  induction sW generalizing nPos with
  | nil => cases h
  | cons chW sW ih =>
    rw [findColons_cons] at h
    split at h
    · next hcolons =>
      obtain ⟨rfl, hhead⟩ := hcolons
      cases h
      cases sW with
      | nil => cases hhead
      | cons c sW =>
        cases hhead
        exact ⟨sW, rfl, by simp only [List.length_cons]; omega⟩
    · obtain ⟨nPos', hpos, rfl⟩ := Option.map_eq_some_iff.mp h
      obtain ⟨r, hr, hlen⟩ := ih hpos
      refine ⟨r, ?_, by rw [List.length_cons]; omega⟩
      rw [List.take_succ_cons, List.cons_append, ← hr]

/-- A text that is put behind another one adds no double colon in front of its own. -/
theorem findColons_append {h rest : List WChar} (hrest : findColons rest = none)
    (hjoin : h.getLast? = some 0x3A → rest.head? ≠ some 0x3A) :
    findColons (h ++ rest) = findColons h := by
  induction h with
  | nil => exact hrest
  | cons chW h ih =>
    rw [List.cons_append, findColons_cons, findColons_cons]
    cases h with
    | nil =>
      rw [List.nil_append, hrest]
      by_cases hc : chW = 0x3A
      · rw [if_neg fun hh => hjoin (by rw [hc]; rfl) hh.2, if_neg (by simp)]
        rfl
      · rw [if_neg fun hh => hc hh.1, if_neg fun hh => hc hh.1]
        rfl
    | cons c h =>
      rw [ih (by simpa using hjoin)]
      rfl

/-- The piece in front of the first colon. -/
theorem exists_piece (sW : List WChar) :
    ∃ p ps, sW.splitOn 0x3A = p :: ps ∧ (p = [] ↔ sW = [] ∨ sW.head? = some 0x3A) := by
  cases sW with
  | nil => exact ⟨[], [], rfl, by simp⟩
  | cons chW sW =>
    rw [List.splitOn_cons_eq_if_modifyHead]
    by_cases hcolon : chW = 0x3A
    · rw [if_pos (beq_iff_eq.mpr hcolon)]
      exact ⟨[], _, rfl, by simp [hcolon]⟩
    · rw [if_neg (by simpa using hcolon)]
      cases hps : sW.splitOn 0x3A with
      | nil => exact absurd hps (List.splitOn_ne_nil _ _)
      | cons p ps => exact ⟨chW :: p, ps, rfl, by simp [hcolon]⟩

/-- **No double colon, and no colon at the end**: nothing but the first piece between
colons is empty. -/
theorem findColons_eq_none_iff (sW : List WChar) :
    (findColons sW = none ∧ sW.getLast? ≠ some 0x3A) ↔ ∀ p ∈ (sW.splitOn 0x3A).tail, p ≠ [] := by
  induction sW with
  | nil => simp [findColons]
  | cons chW sW ih =>
    have hsplit : ∃ p ps, sW.splitOn 0x3A = p :: ps ∧ (p = [] ↔ sW = [] ∨ sW.head? = some 0x3A) :=
      exists_piece sW
    obtain ⟨p, ps, hps, hp⟩ := hsplit
    rw [hps, List.tail_cons] at ih
    rw [findColons_cons, List.splitOn_cons_eq_if_modifyHead, hps]
    by_cases hcolon : chW = 0x3A
    · rw [if_pos (beq_iff_eq.mpr hcolon), List.tail_cons, List.forall_mem_cons, ← ih]
      cases sW with
      | nil => simp [hcolon, hp]
      | cons c sW =>
        rw [List.getLast?_cons_cons]
        by_cases hc : c = 0x3A
        · simp [hcolon, hp, hc]
        · rw [if_neg fun hh => hc (Option.some.inj hh.2), Option.map_eq_none_iff]
          simp [hp, hc]
    · rw [if_neg fun hh => hcolon hh.1, if_neg (by simpa using hcolon), List.modifyHead_cons,
        List.tail_cons, ← ih, Option.map_eq_none_iff]
      cases sW with
      | nil => simp [hcolon]
      | cons c sW => rw [List.getLast?_cons_cons]

/-! ### Groups -/

open Numeral

/-- A group of RFC 4291: one to four hexadecimal digits. -/
def hexGroup (p : List WChar) : Option Nat :=
  if 1 ≤ p.length ∧ p.length ≤ 4 then (p.mapM hexaDigit).map (valueFrom 16 0) else none

/-- A group as the code takes it: of a number `v` without its last digit and that digit
the sum is at most `0xFFFF`, and 16 bits of it are stored. -/
def looseGroup (p : List WChar) : Option Nat :=
  (p.mapM hexaDigit).bind fun digits =>
    let v := valueFrom 16 0 digits
    if digits ≠ [] ∧ v / 16 + v % 16 ≤ 0xFFFF then some (v % 2 ^ 16) else none

/-- Groups between colons, or nothing. -/
def hexGroups (sW : List WChar) : Option (List Nat) :=
  if sW = [] then some [] else (sW.splitOn 0x3A).mapM hexGroup

/-- Groups as the code takes them: a colon in front of them is a group of its own. -/
def looseGroups (sW : List WChar) : Option (List Nat) :=
  if sW = [] then some []
  else
    match sW.splitOn 0x3A with
    | [] :: ps => (ps.mapM looseGroup).map (0 :: ·)
    | ps => ps.mapM looseGroup

/-- The digits of a group that are left, behind the value `dwValue`. -/
def groupFrom : Nat → List WChar → Option Nat
  | dwValue, [] => some (dwValue % 2 ^ 16)
  | dwValue, chW :: p =>
    match hexaDigit chW with
    | none => none
    | some dw => if dwValue > 0xFFFF - dw then none else groupFrom (dwValue * 16 + dw) p

theorem hexaDigit_lt {chW : WChar} {dw : Nat} (h : hexaDigit chW = some dw) : dw < 16 := by
  simp only [hexaDigit, Bool.and_eq_true, decide_eq_true_iff, UInt16.le_iff_toNat_le] at h
  split at h
  · next hch =>
    cases h
    have : chW.toNat ≤ 0x39 := hch.2
    omega
  · split at h
    · next hch =>
      cases h
      have : chW.toNat ≤ 0x46 := hch.2
      omega
    · split at h
      · next hch =>
        cases h
        have : chW.toNat ≤ 0x66 := hch.2
        omega
      · cases h

/-- The digits of a group, as the code takes them. -/
theorem groupFrom_eq_some_iff {v w : Nat} {p : List WChar} :
    groupFrom v p = some w ↔
      ∃ digits, p.mapM hexaDigit = some digits ∧ w = valueFrom 16 v digits % 2 ^ 16 ∧
        (digits = [] ∨ valueFrom 16 v digits / 16 + valueFrom 16 v digits % 16 ≤ 0xFFFF) := by
  induction p generalizing v with
  | nil =>
    constructor
    · intro h
      cases h
      exact ⟨[], rfl, rfl, .inl rfl⟩
    · rintro ⟨digits, hdigits, rfl, -⟩
      cases hdigits
      rfl
  | cons chW p ih =>
    simp only [groupFrom, mapM_cons_eq_some_iff]
    cases hdigit : hexaDigit chW with
    | none => simp
    | some dw =>
      have hdw := hexaDigit_lt hdigit
      dsimp only
      constructor
      · intro h
        split at h
        · cases h
        · obtain ⟨digits, hdigits, rfl, hle⟩ := ih.mp h
          refine ⟨dw :: digits, ⟨dw, digits, rfl, hdigits, rfl⟩, rfl, .inr ?_⟩
          rw [valueFrom_cons]
          rcases hle with rfl | hle
          · simp only [valueFrom, List.foldl_nil]
            omega
          · exact hle
      · rintro ⟨_, ⟨d, digits, hd, hdigits, rfl⟩, rfl, hle⟩
        cases hd
        rw [valueFrom_cons] at hle
        replace hle := hle.resolve_left (List.cons_ne_nil _ _)
        have hbound : v + dw ≤ 0xFFFF := by
          cases digits with
          | nil =>
            simp only [valueFrom, List.foldl_nil] at hle
            omega
          | cons d digits =>
            rw [valueFrom_cons] at hle
            have hmono := le_valueFrom (v := (v * 16 + dw) * 16 + d) (show 0 < 16 by omega) digits
            omega
        rw [if_neg (by omega), ih]
        exact ⟨digits, hdigits, rfl, .inr hle⟩

/-- **The loop of `Helper_IPv6_Fill`** on the pieces between colons. -/
theorem fillFrom_eq_some_iff {sW rest : List WChar} {v : Nat} (hv : v < 2 ^ 20) {words ws : List Nat}
    (hwords : words.length ≤ 8) :
    fillFrom sW.length (sW ++ rest) v words = some ws ↔
      sW.getLast? ≠ some 0x3A ∧ ws.length ≤ 8 ∧ ∃ p ps w wss, sW.splitOn 0x3A = p :: ps ∧
        groupFrom v p = some w ∧ ps.mapM (groupFrom 0) = some wss ∧ ws = words ++ w :: wss := by
  induction sW generalizing v words with
  | nil =>
    rw [List.length_nil, fillFrom]
    constructor
    · intro h
      split at h
      · cases h
      · cases h
        exact ⟨by simp, by simp; omega, [], [], _, [], rfl, rfl, rfl, rfl⟩
    · rintro ⟨-, hlen, p, ps, w, wss, hsplit, hw, hwss, rfl⟩
      cases hsplit
      cases hwss
      cases hw
      rw [if_neg (by simp at hlen; omega)]
      rfl
  | cons chW sW ih =>
    rw [List.length_cons, List.cons_append, fillFrom, List.splitOn_cons_eq_if_modifyHead]
    by_cases hcolon : chW = 0x3A
    · rw [if_pos (beq_iff_eq.mpr hcolon), if_pos (beq_iff_eq.mpr hcolon)]
      constructor
      · intro h
        split at h
        · cases h
        · next hgo =>
          rw [Bool.or_eq_true, not_or, decide_eq_true_iff, decide_eq_true_iff] at hgo
          have hne : sW ≠ [] := fun hnil => hgo.1 (by rw [hnil]; rfl)
          obtain ⟨hlast, hlen, p, ps, w, wss, hps, hw, hwss, rfl⟩ :=
            (ih (by omega) (by rw [List.length_append, List.length_singleton]; omega)).mp h
          refine ⟨?_, hlen, [], p :: ps, _, w :: wss, by rw [hps], rfl, ?_, ?_⟩
          · rwa [List.getLast?_cons_of_ne_nil hne]
          · exact mapM_cons_eq_some_iff.mpr ⟨w, wss, hw, hwss, rfl⟩
          · rw [List.append_assoc]
            rfl
      · rintro ⟨hlast, hlen, p, ps, w, wss, hps, hw, hwss, rfl⟩
        obtain ⟨rfl, rfl⟩ := List.cons.inj hps
        cases hw
        have hne : sW ≠ [] := by
          rintro rfl
          exact hlast (by rw [hcolon]; rfl)
        cases hsplit : sW.splitOn 0x3A with
        | nil => exact absurd hsplit (List.splitOn_ne_nil _ _)
        | cons p ps =>
          rw [hsplit] at hwss
          obtain ⟨w', wss', hw', hwss', rfl⟩ := mapM_cons_eq_some_iff.mp hwss
          rw [List.length_append, List.length_cons, List.length_cons] at hlen
          have hpos := List.length_pos_of_ne_nil hne
          have hgo : ¬ (decide (sW.length = 0) || decide (words.length = 8)) = true := by
            rw [Bool.or_eq_true, not_or, decide_eq_true_iff, decide_eq_true_iff]
            omega
          rw [if_neg hgo,
            ih (by omega) (by rw [List.length_append, List.length_singleton]; omega)]
          rw [List.getLast?_cons_of_ne_nil hne] at hlast
          refine ⟨hlast, ?_, p, ps, w', wss', hsplit, hw', hwss', ?_⟩
          · simp only [List.length_append, List.length_cons]
            omega
          · rw [List.append_assoc]
            rfl
    · rw [if_neg (by simpa using hcolon), if_neg (by simpa using hcolon)]
      have hlast : (chW :: sW).getLast? ≠ some 0x3A ↔ sW.getLast? ≠ some 0x3A := by
        cases sW with
        | nil => simp [hcolon]
        | cons c sW => rw [List.getLast?_cons_cons]
      cases hsplit : sW.splitOn 0x3A with
      | nil => exact absurd hsplit (List.splitOn_ne_nil _ _)
      | cons p ps =>
        rw [hlast, List.modifyHead_cons]
        have hgroup : groupFrom v (chW :: p) = match hexaDigit chW with
            | none => none
            | some dw => if v > 0xFFFF - dw then none else groupFrom (v * 16 + dw) p := rfl
        cases hdigit : hexaDigit chW with
        | none =>
          rw [hdigit] at hgroup
          constructor
          · intro h
            cases h
          · rintro ⟨-, -, p', ps', w, wss, hps, hw, -, -⟩
            obtain ⟨rfl, rfl⟩ := List.cons.inj hps
            rw [hgroup] at hw
            cases hw
        | some dw =>
          have hdw := hexaDigit_lt hdigit
          rw [hdigit] at hgroup
          dsimp only at hgroup ⊢
          by_cases hbig : v > 0xFFFF - dw
          · rw [if_pos (by simp [hbig])]
            constructor
            · intro h
              cases h
            · rintro ⟨-, -, p', ps', w, wss, hps, hw, -, -⟩
              obtain ⟨rfl, rfl⟩ := List.cons.inj hps
              rw [hgroup, if_pos hbig] at hw
              cases hw
          · have hmod : v * 16 % 2 ^ 32 = v * 16 := Nat.mod_eq_of_lt (by omega)
            rw [if_neg (by simp [hbig]; omega), hmod, ih (by omega) hwords]
            rw [if_neg hbig] at hgroup
            constructor
            · rintro ⟨hl, hlen, p', ps', w, wss, hps, hw, hwss, hws⟩
              rw [hsplit] at hps
              obtain ⟨rfl, rfl⟩ := List.cons.inj hps
              exact ⟨hl, hlen, chW :: p, ps, w, wss, rfl, hgroup.trans hw, hwss, hws⟩
            · rintro ⟨hl, hlen, p', ps', w, wss, hps, hw, hwss, hws⟩
              obtain ⟨rfl, rfl⟩ := List.cons.inj hps
              exact ⟨hl, hlen, p, ps, w, wss, hsplit, hgroup.symm.trans hw, hwss, hws⟩

theorem looseGroup_eq_some_iff {p : List WChar} {w : Nat} :
    looseGroup p = some w ↔ p ≠ [] ∧ groupFrom 0 p = some w := by
  rw [groupFrom_eq_some_iff, looseGroup, Option.bind_eq_some_iff]
  constructor
  · rintro ⟨digits, hdigits, h⟩
    dsimp only at h
    split at h
    · next hgroup =>
      cases h
      refine ⟨?_, digits, hdigits, rfl, .inr hgroup.2⟩
      rintro rfl
      cases hdigits
      exact hgroup.1 rfl
    · cases h
  · rintro ⟨hne, digits, hdigits, rfl, hle⟩
    have hlen := length_mapM hdigits
    have hpos := List.length_pos_of_ne_nil hne
    have hdne : digits ≠ [] := List.ne_nil_of_length_pos (by omega)
    exact ⟨digits, hdigits, if_pos ⟨hdne, hle.resolve_left hdne⟩⟩

theorem mapM_looseGroup_eq_some_iff {ps : List (List WChar)} {wss : List Nat} :
    ps.mapM looseGroup = some wss ↔ (∀ p ∈ ps, p ≠ []) ∧ ps.mapM (groupFrom 0) = some wss := by
  induction ps generalizing wss with
  | nil => simp
  | cons p ps ih =>
    rw [mapM_cons_eq_some_iff, mapM_cons_eq_some_iff, List.forall_mem_cons]
    constructor
    · rintro ⟨w, wss, hw, hwss, rfl⟩
      obtain ⟨hne, hw⟩ := looseGroup_eq_some_iff.mp hw
      obtain ⟨hall, hwss⟩ := ih.mp hwss
      exact ⟨⟨hne, hall⟩, w, wss, hw, hwss, rfl⟩
    · rintro ⟨⟨hne, hall⟩, w, wss, hw, hwss, rfl⟩
      exact ⟨w, wss, looseGroup_eq_some_iff.mpr ⟨hne, hw⟩, ih.mpr ⟨hall, hwss⟩, rfl⟩

/-- **Groups as the code takes them**: nothing but the first piece is empty. -/
theorem looseGroups_eq_some_iff {sW : List WChar} (hne : sW ≠ []) {ws : List Nat} :
    looseGroups sW = some ws ↔ (findColons sW = none ∧ sW.getLast? ≠ some 0x3A) ∧
      ∃ p ps w wss, sW.splitOn 0x3A = p :: ps ∧ groupFrom 0 p = some w ∧
        ps.mapM (groupFrom 0) = some wss ∧ ws = w :: wss := by
  rw [looseGroups, if_neg hne, findColons_eq_none_iff]
  obtain ⟨p, ps, hsplit, hp⟩ := exists_piece sW
  rw [hsplit, List.tail_cons]
  cases p with
  | nil =>
    dsimp only
    rw [Option.map_eq_some_iff]
    constructor
    · rintro ⟨wss, hwss, rfl⟩
      obtain ⟨hall, hwss⟩ := mapM_looseGroup_eq_some_iff.mp hwss
      exact ⟨hall, [], ps, 0, wss, rfl, rfl, hwss, rfl⟩
    · rintro ⟨hall, p', ps', w, wss, hps, hw, hwss, rfl⟩
      obtain ⟨rfl, rfl⟩ := List.cons.inj hps
      cases hw
      exact ⟨wss, mapM_looseGroup_eq_some_iff.mpr ⟨hall, hwss⟩, rfl⟩
  | cons c p =>
    dsimp only
    rw [mapM_looseGroup_eq_some_iff, List.forall_mem_cons, mapM_cons_eq_some_iff]
    constructor
    · rintro ⟨⟨-, hall⟩, w, wss, hw, hwss, rfl⟩
      exact ⟨hall, _, ps, w, wss, rfl, hw, hwss, rfl⟩
    · rintro ⟨hall, p', ps', w, wss, hps, hw, hwss, rfl⟩
      obtain ⟨rfl, rfl⟩ := List.cons.inj hps
      exact ⟨⟨List.cons_ne_nil _ _, hall⟩, w, wss, hw, hwss, rfl⟩

/-- **The narrow `Helper_IPv6_Fill`**: up to eight groups. -/
theorem fill_narrow_eq_some_iff {sW rest : List WChar} {ws : List Nat} :
    fill false (sW ++ rest) sW.length = some ws ↔ ws.length ≤ 8 ∧ looseGroups sW = some ws := by
  rw [fill]
  by_cases hne : sW = []
  · subst hne
    rw [if_pos (show ([] : List WChar).length = 0 from rfl), looseGroups, if_pos rfl]
    constructor
    · intro h
      cases h
      exact ⟨by simp, rfl⟩
    · exact And.right
  · rw [if_neg fun h => hne (List.length_eq_zero_iff.mp h), if_neg (by simp : ¬ false = true),
      List.take_left' rfl, looseGroups_eq_some_iff hne]
    cases hfind : findColons sW with
    | some nPos => simp
    | none =>
      rw [if_neg (by simp), fillFrom_eq_some_iff (by omega) (by simp)]
      simp only [List.nil_append]
      constructor
      · rintro ⟨hlast, hlen, hws⟩
        exact ⟨hlen, ⟨trivial, hlast⟩, hws⟩
      · rintro ⟨hlen, ⟨-, hlast⟩, hws⟩
        exact ⟨hlast, hlen, hws⟩

theorem findColons_of_append {sW rest : List WChar} (h : findColons (sW ++ rest) = none) :
    findColons sW = none := by
  induction sW with
  | nil => rfl
  | cons chW sW ih =>
    rw [List.cons_append, findColons_cons] at h
    rw [findColons_cons]
    split at h
    · cases h
    · next hnot =>
      rw [if_neg, ih (Option.map_eq_none_iff.mp h)]
      · rfl
      · rintro ⟨rfl, hhead⟩
        cases sW with
        | nil => cases hhead
        | cons c sW => exact hnot ⟨rfl, hhead⟩

/-- **The wide one** fails where a double colon is anywhere in the rest of the text. -/
theorem fill_wide_eq {sW rest : List WChar} (hne : sW ≠ []) :
    fill true (sW ++ rest) sW.length
      = if findColons (sW ++ rest) = none then fill false (sW ++ rest) sW.length else none := by
  have hlen : ¬ sW.length = 0 := fun h => hne (List.length_eq_zero_iff.mp h)
  rw [fill, fill, if_neg hlen, if_neg hlen, if_pos rfl, if_neg (by simp : ¬ false = true),
    List.take_left' rfl]
  by_cases hfind : findColons (sW ++ rest) = none
  · rw [if_pos hfind, hfind, findColons_of_append hfind]
  · rw [if_neg hfind, if_pos (Option.isSome_iff_ne_none.mpr hfind)]

end MxLib.HostResolver
