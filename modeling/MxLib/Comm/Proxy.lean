import Mathlib.Data.Bool.AllAny
import Mathlib.Data.List.Induction
import MxLib.Library.Decimal
import MxLib.Strings.Strings

/-!
# The proxy of a setting

`isValidProxyValue` is `IsValidProxyValue`, with pointers as offsets into the text.  Every character
is read through `textAt`, which is nothing outside of the text and the zero behind it, so a result
is one without such a read.

The last step but one is to skip the blanks at the start, and it goes backwards.
-/

namespace MxLib.Comm.Proxy

/-! ### Strings -/

/-- The string that a pointer sees. -/
def textAt (szStrW : List WChar) (k : Nat) : Option (List WChar) :=
  if k ≤ szStrW.length then some (szStrW.drop k) else none

/-- `szStrW[k]` -/
def readAt (szStrW : List WChar) (k : Nat) : Option WChar := (textAt szStrW k).map (charAt · 0)

def isBlank (chW : WChar) : Bool := chW == 0x20 || chW == 0x09

/-- The next character that is not a blank. -/
def skipBlanks (szStrW : List WChar) (k : Nat) : Option Nat :=
  (textAt szStrW k).map fun sW => k + (sW.takeWhile isBlank).length

/-- `StrLenW` -/
def strLenW (szStrW : List WChar) (k : Nat) : Option Nat :=
  (textAt szStrW k).map fun sW => (szStr sW).length

/-- The first one of the next `nLen` characters that passes the test, up to the end of the
string. -/
def scanW (szStrW : List WChar) (test : List WChar → Bool) : Nat → Nat → Option (Option Nat)
  | 0, _ => some none
  | nLen + 1, k => do
    let sW ← textAt szStrW k
    if charAt sW 0 == 0 then some none
    else if test sW then some (some k)
    else scanW szStrW test nLen (k + 1)

/-- `StrNChrW(szSrcW, chW, nLen)` -/
def strNChrW (szStrW : List WChar) (k : Nat) (chW : WChar) (nLen : Nat) : Option (Option Nat) :=
  scanW szStrW (fun sW => charAt sW 0 == chW) nLen k

/-- `StrChrW(szSrcW, chW)` -/
def strChrW (szStrW : List WChar) (k : Nat) (chW : WChar) : Option (Option Nat) := do
  strNChrW szStrW k chW (← strLenW szStrW k)

/-- `StrNChrW(szSrcW, chW, nLen, TRUE)` -/
def strNRevChrW (szStrW : List WChar) (k : Nat) (chW : WChar) : Nat → Option (Option Nat)
  | 0 => some none
  | nLen + 1 => do
    let ch ← readAt szStrW (k + nLen)
    if ch == 0 then some none
    else if ch == chW then some (some (k + nLen))
    else strNRevChrW szStrW k chW nLen

/-- `StrNFindW(szSrcW, szToFindW, nLen)` -/
def strNFindW (szStrW : List WChar) (k : Nat) (szToFindW : List WChar) (nLen : Nat) :
    Option (Option Nat) :=
  let nToFindLen := szToFindW.length
  if nToFindLen = 0 ∨ nToFindLen > nLen then some none
  else
    scanW szStrW (fun sW => strNCompareW sW szToFindW nToFindLen false)
      (nLen - (nToFindLen - 1)) k

/-- `cStrW.Delete(nStartChar, (SIZE_T)-1)`: the count is cut off at the end. -/
def deleteRest (cStrW : List WChar) (nStartChar : Nat) : List WChar :=
  deleteStr cStrW nStartChar (cStrW.length - nStartChar)

/-! ### The entry -/

/-- The scheme to look for. -/
def targetScheme (szTargetUrlW : Option (List WChar)) : Option (List WChar) :=
  match szTargetUrlW with
  | none => some (wide "http")
  | some szTargetUrlW => do
    if charAt szTargetUrlW 0 == 0 then some (wide "http")
    else
      match ← strNFindW szTargetUrlW 0 (wide "://") (← strLenW szTargetUrlW 0) with
      | none => some (wide "http")
      | some nSchemeLen =>
        if nSchemeLen = 2 ∧ strNCompareW szTargetUrlW (wide "ws") 2 false = true then
          some (wide "http")
        else if nSchemeLen = 3 ∧ strNCompareW szTargetUrlW (wide "wss") 3 false = true then
          some (wide "https")
        else if nSchemeLen = 0 then some (wide "http")
        else some (szTargetUrlW.take nSchemeLen)

/-- The text behind the scheme and its equals sign, if the string begins with them. -/
def matchScheme (szStrW : List WChar) (k : Nat) (szSchemeW : List WChar) : Option (Option Nat) := do
  if strNCompareW (← textAt szStrW k) szSchemeW szSchemeW.length false then
    let k ← skipBlanks szStrW (k + szSchemeW.length)
    if (← readAt szStrW k) == 0x3D then some (some (k + 1)) else some none
  else some none

/-- The loop over the entries: where the one for the scheme goes on behind the equals sign. -/
def findEntry (szStrW szSchemeW : List WChar) : Nat → Nat → Option (Option Nat)
  | 0, _ => none
  | fuel + 1, k => do
    if (← readAt szStrW k) == 0 then some none
    else
      let k ← skipBlanks szStrW k
      match ← matchScheme szStrW k szSchemeW with
      | some k => some (some k)
      | none =>
        match ← strChrW szStrW k 0x3B with
        | some k => findEntry szStrW szSchemeW fuel (k + 1)
        | none => some none

/-- The end of the entry. -/
def entryEnd (szStrW : List WChar) (k : Nat) : Option Nat := do
  match ← strChrW szStrW k 0x3B with
  | some nEnd => some nEnd
  | none => some (k + (← strLenW szStrW k))

/-! ### Trimming -/

/-- Without the scheme, the path and the name of the scheme. -/
def stripEntry (szStrW : List WChar) (nStart nEnd : Nat) : Option (Nat × Nat) := do
  let nStart :=
    match ← strNFindW szStrW nStart (wide "://") (nEnd - nStart) with
    | some k => k + 3
    | none => nStart
  let nEnd := (← strNChrW szStrW nStart 0x2F (nEnd - nStart)).getD nEnd
  let nStart :=
    match ← strNChrW szStrW nStart 0x3D (nEnd - nStart) with
    | some k => k + 1
    | none => nStart
  some (nStart, nEnd)

/-- The blanks at the end are skipped. -/
def skipAtEnd (szStrW : List WChar) (nStart : Nat) : Nat → Option Nat
  | 0 => some 0
  | nEnd + 1 => do
    if nEnd + 1 > nStart then
      if isBlank (← readAt szStrW nEnd) then skipAtEnd szStrW nStart nEnd else some (nEnd + 1)
    else some (nEnd + 1)

/-- The loop at the start, which goes backwards.  In front of the text there is nothing to read. -/
def skipAtStart (szStrW : List WChar) (nEnd : Nat) : Nat → Option Nat
  | 0 => do
    if 0 < nEnd then
      if isBlank (← readAt szStrW 0) then none else some 0
    else some 0
  | nStart + 1 => do
    if nStart + 1 < nEnd then
      if isBlank (← readAt szStrW (nStart + 1)) then skipAtStart szStrW nEnd nStart
      else some (nStart + 1)
    else some (nStart + 1)

/-- The digits of the port, and whether all of the characters are digits of a port. -/
def readPort (szStrW : List WChar) : Nat → Nat → Nat → Option (Bool × Nat)
  | 0, _, nPort => some (true, nPort)
  | nLen + 1, k, nPort => do
    let ch ← readAt szStrW k
    if ch < 0x30 || ch > 0x39 then some (false, nPort)
    else
      let nPort := nPort * 10 + (ch.toNat - 0x30)
      if nPort > 65535 then some (false, nPort) else readPort szStrW nLen (k + 1) nPort

/-- What is left is put into the string. -/
def cutAddress (cStrProxyW : List WChar) (nStart nEnd nPort : Nat) : Bool × List WChar × Nat :=
  if nStart ≥ nEnd then (false, cStrProxyW, 0)
  else (true, deleteRest (deleteStr cStrProxyW 0 nStart) (nEnd - nStart), nPort)

/-- The address and the port. -/
def splitAddress (cStrProxyW : List WChar) (nStart nEnd : Nat) :
    Option (Bool × List WChar × Nat) := do
  match ← strNRevChrW cStrProxyW nStart 0x3A (nEnd - nStart) with
  | some nAddressEnd =>
    let (bValid, nPort) ← readPort cStrProxyW (nEnd - (nAddressEnd + 1)) (nAddressEnd + 1) 0
    some (if bValid then cutAddress cStrProxyW nStart nAddressEnd nPort
      else (false, cStrProxyW, nPort))
  | none => some (cutAddress cStrProxyW nStart nEnd 8080)

/-- `IsValidProxyValue`: what it returns, the string and the port. -/
def isValidProxyValue (cStrProxyW : List WChar) (szTargetUrlW : Option (List WChar)) :
    Option (Bool × List WChar × Nat) := do
  let szSchemeW ← targetScheme szTargetUrlW
  let found ← findEntry cStrProxyW szSchemeW (cStrProxyW.length + 1) 0
  let nStart := found.getD 0
  let nEnd ← entryEnd cStrProxyW nStart
  let (nStart, nEnd) ← stripEntry cStrProxyW nStart nEnd
  let nEnd ← skipAtEnd cStrProxyW nStart nEnd
  let nStart ← skipAtStart cStrProxyW nEnd nStart
  splitAddress cStrProxyW nStart nEnd

/-! ### What is read

A text that a pointer sees is put together from what is passed and the rest. -/

section Texts

open MxLib.Library

variable {t w s : List WChar} {k : Nat}

theorem textAt_zero (t : List WChar) : textAt t 0 = some t := by
  rw [textAt, if_pos (Nat.zero_le _), List.drop_zero]

theorem drop_of_textAt (h : textAt t k = some s) : t.drop k = s := by
  rw [textAt] at h
  split at h
  · exact Option.some.inj h
  · cases h

/-- **The pointer behind a part of the text.** -/
theorem textAt_add (h : textAt t k = some (w ++ s)) : textAt t (k + w.length) = some s := by
  have hdrop := drop_of_textAt h
  have hlen := congrArg List.length hdrop
  rw [List.length_drop, List.length_append] at hlen
  have hk : k ≤ t.length := by
    by_contra hk
    rw [textAt, if_neg hk] at h
    cases h
  rw [textAt, if_pos (by omega), ← List.drop_drop, hdrop, List.drop_left]

theorem readAt_of (h : textAt t k = some s) : readAt t k = some (charAt s 0) := by
  rw [readAt, h, Option.map_some]

theorem readAt_add {ch : WChar} (h : textAt t k = some (w ++ ch :: s)) :
    readAt t (k + w.length) = some ch := readAt_of (textAt_add h)

theorem skipBlanks_of (h : textAt t k = some (w ++ s)) (hw : ∀ ch ∈ w, isBlank ch = true)
    (hs : isBlank (charAt s 0) = false) : skipBlanks t k = some (k + w.length) := by
  have hstop : s.takeWhile isBlank = [] := by
    cases s with
    | nil => rfl
    | cons ch s => exact List.takeWhile_cons_of_neg (Bool.eq_false_iff.mp hs)
  rw [skipBlanks, h, Option.map_some, List.takeWhile_append_of_pos hw, hstop, List.append_nil]

theorem strLenW_of (h : textAt t k = some s) (hs : (0 : WChar) ∉ s) :
    strLenW t k = some s.length := by
  rw [strLenW, h, Option.map_some, szStr_of_ne_zero fun ch hch hzero => hs (hzero ▸ hch)]

/-! ### Scans -/

section Scan

variable {test : List WChar → Bool}

/-- Where the test fails the scan goes on. -/
theorem scanW_append (h : textAt t k = some (w ++ s))
    (hw : ∀ u ch v, w = u ++ ch :: v → ch ≠ 0 ∧ test (ch :: (v ++ s)) = false) (nLen : Nat) :
    scanW t test (w.length + nLen) k = scanW t test nLen (k + w.length) := by
  induction w generalizing k with
  | nil => rw [List.length_nil, Nat.zero_add, Nat.add_zero]
  | cons ch w ih =>
    obtain ⟨hzero, htest⟩ := hw [] ch w rfl
    have hrest := ih (textAt_add (w := [ch]) h) fun u ch' v huv => hw (ch :: u) ch' v (huv ▸ rfl)
    have hread : (charAt (ch :: (w ++ s)) 0 == 0) = false := beq_eq_false_iff_ne.mpr hzero
    rw [List.length_cons, Nat.add_right_comm, scanW, h]
    change (if (charAt (ch :: (w ++ s)) 0 == 0) = true then _
      else if test (ch :: (w ++ s)) = true then _ else _) = _
    rw [hread, htest, if_neg Bool.false_ne_true, if_neg Bool.false_ne_true,
      ← Nat.add_assoc, Nat.add_right_comm]
    exact hrest

theorem scanW_eq_none (h : textAt t k = some (w ++ s))
    (hw : ∀ u ch v, w = u ++ ch :: v → ch ≠ 0 ∧ test (ch :: (v ++ s)) = false) :
    scanW t test w.length k = some none := scanW_append h hw 0

theorem scanW_eq_some (h : textAt t k = some (w ++ s))
    (hw : ∀ u ch v, w = u ++ ch :: v → ch ≠ 0 ∧ test (ch :: (v ++ s)) = false)
    (hs : charAt s 0 ≠ 0) (htest : test s = true) {nLen : Nat} (hlen : w.length < nLen) :
    scanW t test nLen k = some (some (k + w.length)) := by
  obtain ⟨n, rfl⟩ := Nat.exists_eq_add_of_lt hlen
  have hzero : (charAt s 0 == 0) = false := beq_eq_false_iff_ne.mpr hs
  rw [Nat.add_assoc, scanW_append h hw, scanW, textAt_add h]
  change (if (charAt s 0 == 0) = true then _ else if test s = true then _ else _) = _
  rw [hzero, htest, if_neg Bool.false_ne_true, if_pos rfl]

end Scan

section Chars

variable {chW : WChar}

theorem notMem_split (hw : chW ∉ w) (hzero : (0 : WChar) ∉ w) (s : List WChar) :
    ∀ u ch v, w = u ++ ch :: v → ch ≠ 0 ∧ (charAt (ch :: (v ++ s)) 0 == chW) = false := by
  rintro u ch v rfl
  have hmem : ch ∈ u ++ ch :: v := List.mem_append_right _ List.mem_cons_self
  exact ⟨fun h => hzero (h ▸ hmem), beq_eq_false_iff_ne.mpr fun h => hw (h ▸ hmem)⟩

theorem strNChrW_eq_none (h : textAt t k = some (w ++ s)) (hw : chW ∉ w)
    (hzero : (0 : WChar) ∉ w) : strNChrW t k chW w.length = some none :=
  scanW_eq_none h (notMem_split hw hzero s)

theorem strNChrW_eq_some (h : textAt t k = some (w ++ chW :: s)) (hw : chW ∉ w)
    (hzero : (0 : WChar) ∉ w) (hch : chW ≠ 0) {nLen : Nat} (hlen : w.length < nLen) :
    strNChrW t k chW nLen = some (some (k + w.length)) := by
  rw [strNChrW]
  exact scanW_eq_some h (notMem_split hw hzero _) hch (beq_self_eq_true chW) hlen

theorem strChrW_eq_none (h : textAt t k = some s) (hs : chW ∉ s) (hzero : (0 : WChar) ∉ s) :
    strChrW t k chW = some none := by
  rw [strChrW, strLenW_of h hzero]
  exact strNChrW_eq_none (by rwa [List.append_nil]) hs hzero

theorem strChrW_eq_some (h : textAt t k = some (w ++ chW :: s)) (hw : chW ∉ w)
    (hzero : (0 : WChar) ∉ w ++ chW :: s) : strChrW t k chW = some (some (k + w.length)) := by
  rw [strChrW, strLenW_of h hzero]
  refine strNChrW_eq_some h hw (fun hmem => hzero (List.mem_append_left _ hmem)) ?_ ?_
  · exact fun hch => hzero (List.mem_append_right _ (hch ▸ List.mem_cons_self))
  · rw [List.length_append, List.length_cons]
    omega

theorem strNRevChrW_eq_none (h : textAt t k = some (w ++ s)) (hw : chW ∉ w)
    (hzero : (0 : WChar) ∉ w) : strNRevChrW t k chW w.length = some none := by
  induction w using List.reverseRecOn generalizing s with
  | nil => rfl
  | append_singleton w ch ih =>
    rw [List.append_assoc] at h
    have hmem : ch ∈ w ++ [ch] := List.mem_append_right _ List.mem_cons_self
    have hne : (ch == 0) = false := beq_eq_false_iff_ne.mpr fun h => hzero (h ▸ hmem)
    have hne' : (ch == chW) = false := beq_eq_false_iff_ne.mpr fun h => hw (h ▸ hmem)
    rw [List.length_append, List.length_singleton, strNRevChrW, readAt_add h]
    change (if (ch == 0) = true then _ else if (ch == chW) = true then _ else _) = _
    rw [hne, hne', if_neg Bool.false_ne_true, if_neg Bool.false_ne_true]
    exact ih h (fun h => hw (List.mem_append_left _ h)) fun h => hzero (List.mem_append_left _ h)

/-- The last one is found. -/
theorem strNRevChrW_eq_some {v : List WChar} (h : textAt t k = some (w ++ (chW :: (v ++ s))))
    (hv : chW ∉ v) (hzero : (0 : WChar) ∉ v) (hch : chW ≠ 0) :
    strNRevChrW t k chW (w.length + 1 + v.length) = some (some (k + w.length)) := by
  induction v using List.reverseRecOn generalizing s with
  | nil =>
    have hne : (chW == 0) = false := beq_eq_false_iff_ne.mpr hch
    rw [List.length_nil, Nat.add_zero, strNRevChrW, readAt_add h]
    change (if (chW == 0) = true then _ else if (chW == chW) = true then _ else _) = _
    rw [hne, beq_self_eq_true, if_neg Bool.false_ne_true, if_pos rfl]
  | append_singleton v ch ih =>
    have hmem : ch ∈ v ++ [ch] := List.mem_append_right _ List.mem_cons_self
    have hne : (ch == 0) = false := beq_eq_false_iff_ne.mpr fun h => hzero (h ▸ hmem)
    have hne' : (ch == chW) = false := beq_eq_false_iff_ne.mpr fun h => hv (h ▸ hmem)
    have hread : readAt t (k + (w.length + 1 + v.length)) = some ch := by
      have hsplit : textAt t k = some ((w ++ chW :: v) ++ ch :: s) := by simpa using h
      rw [← readAt_add hsplit, List.length_append, List.length_cons]
      congr 2
      omega
    rw [List.length_append, List.length_singleton, ← Nat.add_assoc, strNRevChrW, hread]
    change (if (ch == 0) = true then _ else if (ch == chW) = true then _ else _) = _
    rw [hne, hne', if_neg Bool.false_ne_true, if_neg Bool.false_ne_true]
    exact ih (s := ch :: s) (by simpa using h) (fun h => hv (List.mem_append_left _ h))
      fun h => hzero (List.mem_append_left _ h)

end Chars

/-! ### Prefixes -/

theorem strNCompareW_iff {word : List WChar} (hword : ∀ ch ∈ word, ch ≠ 0) (s : List WChar) :
    strNCompareW s word word.length false = true ↔ word <+: s := by
  have hcompare : strNCompareW s word word.length false = true ↔
      (szStr s).take word.length = word := by
    rw [strNCompareW, szStr_of_ne_zero hword]
    dsimp only
    rw [if_neg Bool.false_ne_true, if_neg Bool.false_ne_true, beq_iff_eq, List.take_length]
  rw [hcompare]
  constructor
  · intro htake
    rw [← htake]
    exact (List.take_prefix _ _).trans (List.takeWhile_prefix _)
  · rintro ⟨x, rfl⟩
    rw [szStr, List.takeWhile_append_of_pos fun ch hch => bne_iff_ne.mpr (hword ch hch),
      List.take_left]

theorem strNFindW_scheme_eq_some (h : textAt t k = some (w ++ (wide "://" ++ s)))
    (hw : (0x3A : WChar) ∉ w) (hzero : (0 : WChar) ∉ w) {nLen : Nat} (hlen : w.length + 3 ≤ nLen) :
    strNFindW t k (wide "://") nLen = some (some (k + w.length)) := by
  have hthree : (wide "://").length = 3 := rfl
  have hcolon : ∀ u ch v, w = u ++ ch :: v → ch ≠ 0 ∧
      strNCompareW (ch :: (v ++ (wide "://" ++ s))) (wide "://") (wide "://").length false =
        false := by
    rintro u ch v rfl
    have hmem : ch ∈ u ++ ch :: v := List.mem_append_right _ List.mem_cons_self
    refine ⟨fun h => hzero (h ▸ hmem), Bool.eq_false_iff.mpr fun hpre => ?_⟩
    obtain ⟨x, hx⟩ := (strNCompareW_iff (List.all_iff_forall_prop.mp (by decide)) _).mp hpre
    exact hw ((List.cons.inj hx).1 ▸ hmem)
  have htest : strNCompareW (wide "://" ++ s) (wide "://") (wide "://").length false = true :=
    (strNCompareW_iff (List.all_iff_forall_prop.mp (by decide)) _).mpr (List.prefix_append _ _)
  rw [strNFindW, if_neg (by omega)]
  refine scanW_eq_some h hcolon ?_ htest (by omega)
  change (0x3A : WChar) ≠ 0
  decide

theorem strNFindW_scheme_eq_none (h : textAt t k = some (w ++ s)) (hw : (0x2F : WChar) ∉ w)
    (hzero : (0 : WChar) ∉ w) : strNFindW t k (wide "://") w.length = some none := by
  have hthree : (wide "://").length = 3 := rfl
  rw [strNFindW]
  split
  · rfl
  rename_i hlen
  have hfirst : w.length - ((wide "://").length - 1) = (w.take (w.length - 2)).length := by
    rw [List.length_take]
    omega
  rw [hfirst]
  have hsplit : w = w.take (w.length - 2) ++ w.drop (w.length - 2) :=
    (List.take_append_drop _ _).symm
  have hdrop : (w.drop (w.length - 2)).length = 2 := by
    rw [List.length_drop]
    omega
  generalize w.take (w.length - 2) = front at hsplit ⊢
  generalize w.drop (w.length - 2) = back at hsplit hdrop
  subst hsplit
  rw [List.append_assoc] at h
  refine scanW_eq_none h ?_
  rintro u ch v rfl
  have hmem : ch ∈ u ++ ch :: v ++ back :=
    List.mem_append_left _ (List.mem_append_right _ List.mem_cons_self)
  refine ⟨fun h => hzero (h ▸ hmem), Bool.eq_false_iff.mpr fun hpre => ?_⟩
  obtain ⟨x, hx⟩ := (strNCompareW_iff (List.all_iff_forall_prop.mp (by decide)) _).mp hpre
  -- the character behind it is a slash of the range
  obtain ⟨ch', rest, hrest⟩ : ∃ ch' rest, v ++ back = ch' :: rest :=
    List.exists_cons_of_length_pos (by rw [List.length_append]; omega)
  have hnext : ch' ∈ v ++ back := hrest ▸ List.mem_cons_self
  rw [← List.append_assoc, hrest] at hx
  obtain rfl : (0x2F : WChar) = ch' := (List.cons.inj (List.cons.inj hx).2).1
  refine hw ?_
  rw [List.append_assoc]
  exact List.mem_append_right _ (List.mem_cons_of_mem _ hnext)

/-! ### Trims -/

theorem skipAtEnd_of {core : List WChar} (hne : core ≠ [])
    (hcore : isBlank (core.getLast hne) = false) (hw : ∀ ch ∈ w, isBlank ch = true)
    (h : textAt t k = some (core ++ (w ++ s))) :
    skipAtEnd t k (k + core.length + w.length) = some (k + core.length) := by
  induction w using List.reverseRecOn generalizing s with
  | nil =>
    have hlast := List.dropLast_append_getLast hne
    generalize core.dropLast = init at hlast
    generalize core.getLast hne = last at hcore hlast
    subst hlast
    rw [List.append_assoc] at h
    rw [List.length_nil, Nat.add_zero, List.length_append, List.length_singleton, ← Nat.add_assoc,
      skipAtEnd, if_pos (by omega), readAt_add h]
    change (if isBlank last = true then _ else _) = _
    rw [hcore, if_neg Bool.false_ne_true]
  | append_singleton w ch ih =>
    have hread : readAt t (k + core.length + w.length) = some ch := by
      rw [Nat.add_assoc, ← List.length_append]
      exact readAt_add (s := s) (by simpa using h)
    rw [List.length_append, List.length_singleton, ← Nat.add_assoc, skipAtEnd, if_pos (by omega),
      hread]
    change (if isBlank ch = true then _ else _) = _
    rw [hw ch (List.mem_append_right _ List.mem_cons_self), if_pos rfl]
    exact ih (s := ch :: s) (fun ch hch => hw ch (List.mem_append_left _ hch)) (by simpa using h)

/-- No blank, no step. -/
theorem skipAtStart_of {ch : WChar} (h : textAt t k = some (ch :: s)) (hch : isBlank ch = false)
    {nEnd : Nat} (hlt : k < nEnd) : skipAtStart t nEnd k = some k := by
  have hread := readAt_of h
  cases k with
  | zero =>
    rw [skipAtStart, if_pos hlt, hread]
    change (if isBlank ch = true then _ else _) = _
    rw [hch, if_neg Bool.false_ne_true]
  | succ k =>
    rw [skipAtStart, if_pos hlt, hread]
    change (if isBlank ch = true then _ else _) = _
    rw [hch, if_neg Bool.false_ne_true]

/-- **From a blank the loop goes back**, and at the start of the text out of it. -/
theorem skipAtStart_zero {ch : WChar} (h : textAt t 0 = some (ch :: s)) (hch : isBlank ch = true)
    {nEnd : Nat} (hlt : 0 < nEnd) : skipAtStart t nEnd 0 = none := by
  rw [skipAtStart, if_pos hlt, readAt_of h]
  change (if isBlank ch = true then _ else _) = _
  rw [hch, if_pos rfl]

theorem skipAtStart_succ {ch : WChar} (h : textAt t (k + 1) = some (ch :: s))
    (hch : isBlank ch = true) {nEnd : Nat} (hlt : k + 1 < nEnd) :
    skipAtStart t nEnd (k + 1) = skipAtStart t nEnd k := by
  rw [skipAtStart, if_pos hlt, readAt_of h]
  change (if isBlank ch = true then _ else _) = _
  rw [hch, if_pos rfl]

/-! ### The address -/

/-- The number of a port. -/
def portValue (nPort : Nat) (digits : List WChar) : Nat :=
  Decimal.value nPort (digits.map UInt16.toNat)

theorem readPort_of {digits : List WChar} {nPort : Nat}
    (hdigits : ∀ ch ∈ digits, Decimal.isDigit ch.toNat = true)
    (hmax : portValue nPort digits ≤ 65535) (h : textAt t k = some (digits ++ s)) :
    readPort t digits.length k nPort = some (true, portValue nPort digits) := by
  induction digits generalizing k nPort with
  | nil => rfl
  | cons ch digits ih =>
    obtain ⟨hlo, hhi⟩ := Decimal.isDigit_iff.mp (hdigits ch List.mem_cons_self)
    have hch : (decide (ch < 0x30) || decide (ch > 0x39)) = false := by
      rw [Bool.or_eq_false_iff, decide_eq_false_iff_not, decide_eq_false_iff_not,
        UInt16.not_lt, UInt16.not_lt, UInt16.le_iff_toNat_le, UInt16.le_iff_toNat_le]
      exact ⟨hlo, hhi⟩
    rw [portValue, List.map_cons, Decimal.value_cons] at hmax ⊢
    have hle := Decimal.le_value (digits.map UInt16.toNat) (10 * nPort + (ch.toNat - 0x30))
    rw [List.length_cons, readPort, readAt_of h]
    change (if (decide (ch < 0x30) || decide (ch > 0x39)) = true then _
      else if nPort * 10 + (ch.toNat - 0x30) > 65535 then _
      else readPort t digits.length (k + 1) (nPort * 10 + (ch.toNat - 0x30))) = _
    rw [hch, if_neg Bool.false_ne_true, if_neg (by omega), Nat.mul_comm]
    exact ih (fun ch hch => hdigits ch (List.mem_cons_of_mem _ hch)) hmax
      (textAt_add (w := [ch]) h)

/-- A blank is no digit. -/
theorem readPort_blank {ch : WChar} (hch : isBlank ch = true) (h : textAt t k = some (ch :: s))
    (nLen nPort : Nat) : readPort t (nLen + 1) k nPort = some (false, nPort) := by
  rw [readPort, readAt_of h]
  change (if (decide (ch < 0x30) || decide (ch > 0x39)) = true then _ else _) = _
  rw [isBlank, Bool.or_eq_true, beq_iff_eq, beq_iff_eq] at hch
  rcases hch with rfl | rfl <;> rfl

/-- **What is put into the string.** -/
theorem cutAddress_of (h : textAt t k = some (w ++ s)) (hw : w ≠ []) (nPort : Nat) :
    cutAddress t k (k + w.length) nPort = (true, w, nPort) := by
  have hpos := List.length_pos_iff.mpr hw
  rw [cutAddress, if_neg (by omega), deleteRest, deleteStr, deleteStr, List.take_zero,
    List.nil_append, Nat.zero_add, drop_of_textAt h, Nat.add_sub_cancel_left, List.take_left,
    List.length_append, Nat.add_sub_cancel_left, ← List.length_append, List.drop_length,
    List.append_nil]

end Texts

end MxLib.Comm.Proxy
