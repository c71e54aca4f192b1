import MxLib.Comm.HostResolverIPv6
import MxLib.Library.Segments
import Mathlib.Data.List.TakeWhile

/-!
# The text forms of an IPv6 address

A text is groups between colons, where one double colon stands for groups of zeros,
and an IPv4 address may stand for the last two.  `ReadsAddress` says so for any reader
of groups and of IPv4 addresses: with those of RFC 4291 it is the text form that is
meant, with the looser ones of the code it is what `IsValidIPV6` takes
(`ipv6Address_narrow_iff`).

The wide version takes no group in front of a double colon, and of an IPv4 address
each word is stored with its bytes the other way round from the words of groups
(`ipv6Address_exact_iff`).
-/

namespace MxLib.HostResolver

open Numeral MxLib.Library.Segments

/-! ### Text forms -/

/-- `n` groups, where a double colon may stand for one of them or more.  `reads` reads
groups between colons. -/
def ReadsGroups (reads : List WChar → Option (List Nat)) (n : Nat) (sW : List WChar)
    (words : List Nat) : Prop :=
  (reads sW = some words ∧ words.length = n) ∨
    ∃ l r left right, sW = l ++ 0x3A :: 0x3A :: r ∧ reads l = some left ∧ reads r = some right ∧
      left.length + right.length < n ∧
      words = left ++ List.replicate (n - left.length - right.length) 0 ++ right

/-- An IPv4 address behind groups: a colon stands between them, if there is none. -/
def joinDotted (sW dottedW : List WChar) : List WChar :=
  if sW.getLast? = some 0x3A then sW ++ dottedW else sW ++ 0x3A :: dottedW

/-- **An address**: eight groups, or six in front of an IPv4 address. -/
def ReadsAddress (reads : List WChar → Option (List Nat)) (readsDotted : List WChar → Option (List Nat))
    (sW : List WChar) (words : List Nat) : Option (List Nat) → Prop
  | none => ReadsGroups reads 8 sW words
  | some d => ∃ h dottedW, sW = joinDotted h dottedW ∧ ReadsGroups reads 6 h words ∧
      readsDotted dottedW = some d

/-- The words in front of the first double colon are none. -/
def NothingBeforeColons (sW : List WChar) : Prop := ∀ nPos, findColons sW = some nPos → nPos = 0

theorem ends_of_looseGroups {sW : List WChar} {ws : List Nat} (h : looseGroups sW = some ws) :
    findColons sW = none ∧ sW.getLast? ≠ some 0x3A := by
  by_cases hne : sW = []
  · subst hne
    exact ⟨rfl, by simp⟩
  · exact ((looseGroups_eq_some_iff hne).mp h).1

/-- The double colon behind groups is the first one. -/
theorem findColons_of_groups {l r : List WChar} {left : List Nat} (h : looseGroups l = some left) :
    findColons (l ++ 0x3A :: 0x3A :: r) = some l.length := by
  obtain ⟨hnone, hlast⟩ := ends_of_looseGroups h
  clear h
  induction l with
  | nil => rfl
  | cons chW l ih =>
    rw [findColons_cons] at hnone
    rw [List.cons_append, findColons_cons, List.length_cons]
    split at hnone
    · cases hnone
    · next hnot =>
      rw [if_neg, ih (Option.map_eq_none_iff.mp hnone)]
      · rfl
      · intro hl
        cases l with
        | nil => cases hl
        | cons c l => exact hlast (by rwa [List.getLast?_cons_cons])
      · rintro ⟨rfl, hhead⟩
        cases l with
        | nil => exact hlast rfl
        | cons c l => exact hnot ⟨rfl, hhead⟩

/-- **`ipv6Words` of the narrow version** are groups with or without a double colon. -/
theorem ipv6Words_narrow_eq_some_iff {h rest : List WChar} (hfind : findColons (h ++ rest) = findColons h)
    (hlen : h.length < 2 ^ 64) {nSlots : Nat} (hslots : nSlots ≤ 2) {ws : List Nat} :
    ipv6Words false (h ++ rest) h.length nSlots = some ws ↔ ReadsGroups looseGroups (8 - nSlots) h ws := by
  rw [ipv6Words, hfind]
  cases hcolons : findColons h with
  | none =>
    dsimp only
    rw [Option.bind_eq_bind, Option.bind_eq_some_iff]
    constructor
    · rintro ⟨words, hwords, hcount⟩
      split at hcount
      · cases hcount
        exact .inl ⟨(fill_narrow_eq_some_iff.mp hwords).2, ‹_›⟩
      · cases hcount
    · rintro (⟨hwords, hcount⟩ | ⟨l, r, left, right, rfl, hl, -⟩)
      · exact ⟨ws, fill_narrow_eq_some_iff.mpr ⟨by omega, hwords⟩, if_pos hcount⟩
      · rw [findColons_of_groups hl] at hcolons
        cases hcolons
  | some nPos =>
    dsimp only
    obtain ⟨r, hr, hrlen⟩ := eq_of_findColons hcolons
    obtain ⟨l, hl, rfl⟩ : ∃ l, l = h.take nPos ∧ l.length = nPos :=
      ⟨h.take nPos, rfl, by rw [List.length_take]; omega⟩
    rw [← hl] at hr
    have hright : (h.length + 2 ^ 64 - l.length - 2) % 2 ^ 64 = r.length := by omega
    have htext : h ++ rest = l ++ (0x3A :: 0x3A :: r ++ rest) := by rw [hr, List.append_assoc]
    have hdrop : (h ++ rest).drop (l.length + 2) = r ++ rest := by
      rw [htext, List.drop_append]
      simp
    rw [hright, hdrop, htext, Option.bind_eq_bind, Option.bind_eq_some_iff]
    constructor
    · rintro ⟨right, hfillr, h'⟩
      split at h'
      · cases h'
      · obtain ⟨left, hfilll, h'⟩ := Option.bind_eq_some_iff.mp h'
        split at h'
        · cases h'
        · cases h'
          refine .inr ⟨l, r, left, right, hr, (fill_narrow_eq_some_iff.mp hfilll).2,
            (fill_narrow_eq_some_iff.mp hfillr).2, by omega, ?_⟩
          rw [Nat.sub_right_comm (8 - nSlots)]
    · rintro (⟨hwords, -⟩ | ⟨l', r', left, right, hr', hl', hr'', hcount, rfl⟩)
      · rw [(ends_of_looseGroups hwords).1] at hcolons
        cases hcolons
      · rw [hr', findColons_of_groups hl'] at hcolons
        obtain ⟨rfl, hrest⟩ := List.append_inj (hr'.symm.trans hr) (Option.some.inj hcolons)
        obtain rfl : r' = r := by simpa using hrest
        refine ⟨right, fill_narrow_eq_some_iff.mpr ⟨by omega, hr''⟩, ?_⟩
        rw [if_neg (by omega), fill_narrow_eq_some_iff.mpr ⟨by omega, hl'⟩, Option.bind_eq_bind,
          Option.bind_some, if_neg (by omega), Nat.sub_right_comm (8 - nSlots)]

/-- What follows a text adds no double colon to it. -/
theorem fill_wide_of_append {sW rest : List WChar} (hfind : findColons (sW ++ rest) = findColons sW) :
    fill true (sW ++ rest) sW.length = fill false (sW ++ rest) sW.length := by
  by_cases hne : sW = []
  · rw [hne]
    rfl
  · rw [fill_wide_eq hne, hfind]
    cases hcolons : findColons sW with
    | none => rw [if_pos rfl]
    | some nPos =>
      rw [if_neg (by simp), fill, if_neg fun h => hne (List.length_eq_zero_iff.mp h),
        if_pos (by rw [if_neg (by simp : ¬ false = true), List.take_left' rfl, hcolons]; rfl)]

/-- **The wide version** takes no group in front of a double colon. -/
theorem ipv6Words_wide_eq_some_iff {h rest : List WChar} (hrest : findColons rest = none)
    (hjoin : h.getLast? = some 0x3A → rest.head? ≠ some 0x3A) (hlen : h.length < 2 ^ 64)
    {nSlots : Nat} {ws : List Nat} :
    ipv6Words true (h ++ rest) h.length nSlots = some ws ↔
      ipv6Words false (h ++ rest) h.length nSlots = some ws ∧ NothingBeforeColons h := by
  have hfind := findColons_append hrest hjoin
  rw [ipv6Words, ipv6Words, hfind]
  cases hcolons : findColons h with
  | none =>
    dsimp only
    rw [fill_wide_of_append hfind]
    refine ⟨fun hws => ⟨hws, ?_⟩, And.left⟩
    intro nPos hpos
    rw [hcolons] at hpos
    cases hpos
  | some nPos =>
    dsimp only
    obtain ⟨r, hr, hrlen⟩ := eq_of_findColons hcolons
    have hright : (h.length + 2 ^ 64 - nPos - 2) % 2 ^ 64 = r.length := by omega
    have hdrop : (h ++ rest).drop (nPos + 2) = r ++ rest := by
      have hl : (h.take nPos).length = nPos := by rw [List.length_take]; omega
      rw [hr, List.append_assoc, List.drop_append]
      simp [hl]
    have hfillr : fill true (r ++ rest) r.length = fill false (r ++ rest) r.length := by
      by_cases hne : r = []
      · rw [hne]
        rfl
      · apply fill_wide_of_append
        apply findColons_append hrest
        intro hlast
        apply hjoin
        rw [hr, List.getLast?_append, List.getLast?_cons_cons, List.getLast?_cons_of_ne_nil hne, hlast]
        rfl
    rw [hright, hdrop, hfillr]
    by_cases hzero : nPos = 0
    · subst hzero
      refine ⟨fun hws => ⟨hws, fun nPos hpos => ?_⟩, And.left⟩
      exact (Option.some.inj (hcolons.symm.trans hpos)).symm
    · have hleft : fill true (h ++ rest) nPos = none := by
        rw [fill, if_neg hzero, if_pos (by rw [if_pos rfl, hfind, hcolons]; rfl)]
      rw [hleft]
      constructor
      · intro hws
        obtain ⟨right, -, hws⟩ := Option.bind_eq_some_iff.mp hws
        split at hws <;> cases hws
      · rintro ⟨-, hnothing⟩
        exact absurd (hnothing nPos hcolons) hzero

/-! ### The whole text -/

/-- The text between brackets, if it stands between them. -/
def unbracket (szAddressW : List WChar) : List WChar :=
  if szAddressW.length ≥ 2 ∧ szAddressW.head? = some 0x5B ∧ szAddressW.getLast? = some 0x5D then
    szAddressW.tail.dropLast
  else szAddressW

theorem stripBrackets_eq (szAddressW : List WChar) :
    ∃ rest, stripBrackets szAddressW szAddressW.length
        = (unbracket szAddressW ++ rest, (unbracket szAddressW).length) ∧
      (rest = [] ∨ rest = [0x5D]) := by
  rw [stripBrackets, unbracket]
  have hlast : szAddressW.getLast? = szAddressW[szAddressW.length - 1]? := List.getLast?_eq_getElem?
  have hhead : szAddressW.head? = szAddressW[0]? := List.head?_eq_getElem?
  by_cases hlen : 2 ≤ szAddressW.length
  · have h0 : szAddressW.head? = some 0x5B ↔ charAt szAddressW 0 = 0x5B := by
      rw [hhead, charAt, List.getD_eq_getElem?_getD, List.getElem?_eq_getElem (by omega)]
      simp
    have h1 : szAddressW.getLast? = some 0x5D ↔ charAt szAddressW (szAddressW.length - 1) = 0x5D := by
      rw [hlast, charAt, List.getD_eq_getElem?_getD, List.getElem?_eq_getElem (by omega)]
      simp
    by_cases hboth : szAddressW.head? = some 0x5B ∧ szAddressW.getLast? = some 0x5D
    · rw [if_pos (by simpa [hlen] using ⟨h0.mp hboth.1, h1.mp hboth.2⟩), if_pos ⟨hlen, hboth⟩]
      refine ⟨[0x5D], ?_, .inr rfl⟩
      have htail : szAddressW.tail.getLast? = some 0x5D := by
        rw [List.getLast?_tail, if_neg (by omega), hboth.2]
      rw [List.drop_one, List.length_dropLast, List.length_tail,
        List.dropLast_append_getLast? _ htail]
      rfl
    · rw [if_neg (by simpa [hlen, ← h0, ← h1] using hboth), if_neg fun h => hboth h.2]
      exact ⟨[], by rw [List.append_nil], .inl rfl⟩
  · rw [if_neg (by simp [hlen]), if_neg fun h => hlen h.1]
    exact ⟨[], by rw [List.append_nil], .inl rfl⟩

/-- The text in front of an IPv4 address, as the code cuts it off. -/
def headOf (uW : List WChar) : List WChar := if uW.getLast? = some 0x3A then uW ++ [0x3A] else uW

theorem findIdx?_colon {uW vW : List WChar} (hcolon : 0x3A ∉ vW) :
    (uW ++ 0x3A :: vW).reverse.findIdx? (· == 0x3A) = some vW.length := by
  rw [List.reverse_append, List.reverse_cons, List.append_assoc, List.findIdx?_append]
  have hnone : vW.reverse.findIdx? (· == 0x3A) = none := by
    rw [List.findIdx?_eq_none_iff]
    intro chW hch
    rw [beq_eq_false_iff_ne]
    rintro rfl
    exact hcolon (List.mem_reverse.mp hch)
  rw [hnone]
  simp [List.findIdx?_cons]

/-- **`IsValidIPV6` by its last colon.** -/
theorem ipv6Address_of_colon (bWide : Bool) {szAddressW uW vW rest : List WChar}
    (hstrip : stripBrackets szAddressW szAddressW.length
      = (uW ++ 0x3A :: vW ++ rest, (uW ++ 0x3A :: vW).length))
    (hsuffix : ∀ chW ∈ uW ++ 0x3A :: vW, chW ≠ 0x2F ∧ chW ≠ 0x25) (hcolon : 0x3A ∉ vW)
    (htwo : 2 ≤ (uW ++ 0x3A :: vW).length) :
    ipv6Address bWide szAddressW szAddressW.length =
      match ipv4Address vW with
      | some d => (ipv6Words bWide (uW ++ 0x3A :: vW ++ rest) (headOf uW).length 2).bind fun words =>
          if checkWords 2 words then some (words ++ ipv4Words d) else none
      | none => ipv6Words bWide (uW ++ 0x3A :: vW ++ rest) (uW ++ 0x3A :: vW).length 0 := by
  have hall : (uW ++ 0x3A :: vW).takeWhile (fun chW => chW != 0x2F && chW != 0x25)
      = uW ++ 0x3A :: vW := by
    rw [List.takeWhile_eq_self_iff]
    intro chW hch
    simpa using hsuffix chW hch
  have hpos : (uW ++ 0x3A :: vW).length - 1 - vW.length = uW.length := by
    simp only [List.length_append, List.length_cons]
    omega
  have hv : (uW ++ 0x3A :: vW).drop (uW.length + 1) = vW := by
    rw [List.drop_append]
    simp
  have hv4 : (if vW.length > 0 then ipv4Address vW else none) = ipv4Address vW := by
    by_cases h : vW = []
    · rw [h]
      rfl
    · rw [if_pos (List.length_pos_of_ne_nil h)]
  have hhead : (if (decide (uW.length > 0) && charAt (uW ++ 0x3A :: vW ++ rest) (uW.length - 1) == 0x3A)
      = true then uW.length + 1 else uW.length) = (headOf uW).length := by
    have hlast : uW.getLast? = some 0x3A ↔
        (decide (uW.length > 0) && charAt (uW ++ 0x3A :: vW ++ rest) (uW.length - 1) == 0x3A) = true := by
      by_cases hne : uW = []
      · simp [hne]
      · have hlen := List.length_pos_of_ne_nil hne
        rw [List.getLast?_eq_getElem?, charAt, List.getD_eq_getElem?_getD, List.append_assoc,
          List.getElem?_append_left (by omega), List.getElem?_eq_getElem (by omega)]
        simp [hlen]
    rw [headOf]
    by_cases h : uW.getLast? = some 0x3A
    · rw [if_pos h, if_pos (hlast.mp h), List.length_append, List.length_singleton]
    · rw [if_neg h, if_neg (mt hlast.mpr h)]
  rw [ipv6Address, hstrip]
  dsimp only
  rw [List.take_left' rfl, hall, if_neg (by omega), findIdx?_colon hcolon]
  dsimp only
  rw [hpos, hv, hv4, hhead]
  cases hd : ipv4Address vW with
  | none =>
    dsimp only
    have hfill := fillAddress_eq bWide (uW ++ 0x3A :: vW ++ rest) (uW ++ 0x3A :: vW).length
      (show ([] : List Nat).length = 0 from rfl) (by omega)
    rw [Nat.sub_zero, List.append_nil] at hfill
    rw [hfill]
    cases ipv6Words bWide (uW ++ 0x3A :: vW ++ rest) (uW ++ 0x3A :: vW).length 0 with
    | none => rfl
    | some words => rw [Option.map_some, List.append_nil]; rfl
  | some d =>
    dsimp only
    have hfill := fillAddress_eq bWide (uW ++ 0x3A :: vW ++ rest) (headOf uW).length
      (show (ipv4Words d).length = 2 from rfl) (by omega)
    rw [hfill]
    cases hwords : ipv6Words bWide (uW ++ 0x3A :: vW ++ rest) (headOf uW).length 2 with
    | none => rfl
    | some words =>
      rw [Option.map_some, Option.bind_some]
      dsimp only
      rw [checkAddress_two (length_ipv6Words hwords)]

/-! ### Characters of an address -/

theorem mem_of_mapM {α β : Type} {f : α → Option β} {l : List α} {bs : List β}
    (h : l.mapM f = some bs) {a : α} (ha : a ∈ l) : ∃ b, f a = some b := by
  induction l generalizing bs with
  | nil => cases ha
  | cons a' l ih =>
    obtain ⟨b, bs', hb, hbs', -⟩ := mapM_cons_eq_some_iff.mp h
    rcases List.mem_cons.mp ha with rfl | ha
    · exact ⟨b, hb⟩
    · exact ih hbs' ha

/-- The characters of groups are hexadecimal digits and colons. -/
theorem hexa_of_looseGroups {sW : List WChar} {ws : List Nat} (h : looseGroups sW = some ws)
    {chW : WChar} (hch : chW ∈ sW) : chW = 0x3A ∨ (hexaDigit chW).isSome = true := by
  by_cases hne : sW = []
  · subst hne
    cases hch
  · obtain ⟨-, p, ps, w, wss, hsplit, hw, hwss, -⟩ := (looseGroups_eq_some_iff hne).mp h
    rcases @eq_or_mem_splitOn _ 0x3A _ _ _ hch with hcolon | ⟨q, hq, hch⟩
    · exact .inl hcolon
    · have hgroup : ∃ w, groupFrom 0 q = some w := by
        rw [hsplit] at hq
        exact mem_of_mapM (mapM_cons_eq_some_iff.mpr ⟨w, wss, hw, hwss, rfl⟩) hq
      obtain ⟨w', hw'⟩ := hgroup
      obtain ⟨digits, hdigits, -, -⟩ := groupFrom_eq_some_iff.mp hw'
      obtain ⟨dw, hdw⟩ := mem_of_mapM hdigits hch
      exact .inr (by rw [hdw]; rfl)

theorem hexa_of_readsGroups {n : Nat} {sW : List WChar} {words : List Nat}
    (h : ReadsGroups looseGroups n sW words) {chW : WChar} (hch : chW ∈ sW) :
    chW = 0x3A ∨ (hexaDigit chW).isSome = true := by
  rcases h with ⟨hwords, -⟩ | ⟨l, r, left, right, rfl, hl, hr, -, -⟩
  · exact hexa_of_looseGroups hwords hch
  · rcases List.mem_append.mp hch with hch | hch
    · exact hexa_of_looseGroups hl hch
    · rcases List.mem_cons.mp hch with hcolon | hch
      · exact .inl hcolon
      · rcases List.mem_cons.mp hch with hcolon | hch
        · exact .inl hcolon
        · exact hexa_of_looseGroups hr hch

/-- Groups that end in a colon end in two. -/
theorem eq_headOf_of_readsGroups {n : Nat} {hW : List WChar} {words : List Nat}
    (h : ReadsGroups looseGroups n hW words) (hlast : hW.getLast? = some 0x3A) :
    ∃ uW, hW = uW ++ [0x3A] ∧ uW.getLast? = some 0x3A := by
  rcases h with ⟨hwords, -⟩ | ⟨l, r, left, right, rfl, hl, hr, -, -⟩
  · exact absurd hlast (ends_of_looseGroups hwords).2
  · cases r with
    | nil => exact ⟨l ++ [0x3A], by simp, by simp⟩
    | cons c r =>
      have hend := (ends_of_looseGroups hr).2
      rw [List.getLast?_append, List.getLast?_cons_cons, List.getLast?_cons_cons] at hlast
      cases hc : (c :: r).getLast? with
      | none => simp at hc
      | some x =>
        rw [hc] at hend hlast
        exact absurd (by simpa using hlast) hend

/-- The characters of a number are hexadecimal digits and the letter of its base. -/
theorem hexa_of_numeral {block : List WChar} {x : Numeral} (h : numeral block = some x)
    {chW : WChar} (hch : chW ∈ block) :
    chW = 0x58 ∨ chW = 0x78 ∨ (hexaDigit chW).isSome = true := by
  have hin : ∀ {base : Nat} {sW : List WChar}, numeralIn base sW = some x → chW ∈ sW →
      (hexaDigit chW).isSome = true := by
    intro base sW hx hch
    obtain ⟨-, digits, hdigits, -⟩ := numeralIn_eq_some_iff.mp hx
    obtain ⟨dw, hdw⟩ := mem_of_mapM hdigits hch
    obtain ⟨hsome, -⟩ := Option.filter_eq_some_iff.mp hdw
    rw [hsome]
    rfl
  unfold numeral at h
  split at h
  · rcases List.mem_cons.mp hch with rfl | hch
    · exact .inr (.inr rfl)
    · rcases List.mem_cons.mp hch with rfl | hch
      · exact .inl rfl
      · exact .inr (.inr (hin h hch))
  · rcases List.mem_cons.mp hch with rfl | hch
    · exact .inr (.inr rfl)
    · rcases List.mem_cons.mp hch with rfl | hch
      · exact .inr (.inl rfl)
      · exact .inr (.inr (hin h hch))
  · rcases List.mem_cons.mp hch with rfl | hch
    · exact .inr (.inr rfl)
    · exact .inr (.inr (hin h hch))
  · exact .inr (.inr (hin h hch))

/-- The characters of numbers between dots. -/
theorem hexa_of_numerals {vW : List WChar} {xs : List Numeral}
    (h : (vW.splitOn 0x2E).mapM numeral = some xs) {chW : WChar} (hch : chW ∈ vW) :
    chW = 0x2E ∨ chW = 0x58 ∨ chW = 0x78 ∨ (hexaDigit chW).isSome = true := by
  rcases @eq_or_mem_splitOn _ 0x2E _ _ _ hch with hdot | ⟨block, hblock, hch⟩
  · exact .inl hdot
  · obtain ⟨x, hx⟩ := mem_of_mapM h hblock
    exact .inr (hexa_of_numeral hx hch)

/-- An IPv4 address has a dot and no colon. -/
theorem dot_mem_of_ipv4Address {vW : List WChar} {d : List Nat} (h : ipv4Address vW = some d)
    (hsuffix : ∀ chW ∈ vW, chW ≠ 0x2F ∧ chW ≠ 0x25) : 0x2E ∈ vW ∧ 0x3A ∉ vW := by
  obtain ⟨front, last, ⟨hmap, hone, -⟩, -, -, -⟩ := ipv4Address_eq_some_iff.mp h
  have hall : vW.takeWhile inAddress = vW := by
    rw [List.takeWhile_eq_self_iff]
    intro chW hch
    have := hsuffix chW hch
    simpa [inAddress] using this
  rw [dotted, hall] at hmap
  constructor
  · by_contra hdot
    have hlen := length_mapM hmap
    rw [List.splitOn_eq_singleton hdot, List.length_append] at hlen
    simp only [List.length_singleton] at hlen
    omega
  · intro hcolon
    rcases hexa_of_numerals hmap hcolon with h | h | h | h <;> exact absurd h (by decide)

/-! ### What the code takes -/

theorem findColons_of_not_mem {sW : List WChar} (h : 0x3A ∉ sW) : findColons sW = none := by
  cases hfind : findColons sW with
  | none => rfl
  | some nPos =>
    obtain ⟨r, hr, -⟩ := eq_of_findColons hfind
    exact absurd (by rw [hr]; simp) h

theorem joinDotted_headOf (uW vW : List WChar) : joinDotted (headOf uW) vW = uW ++ 0x3A :: vW := by
  rw [headOf]
  by_cases h : uW.getLast? = some 0x3A
  · rw [if_pos h, joinDotted, if_pos (by simp), List.append_assoc]
    rfl
  · rw [if_neg h, joinDotted, if_neg h]

/-- The last colon of a text, in one way. -/
theorem eq_of_last_colon {uW uW' vW vW' : List WChar} (hv : 0x3A ∉ vW) (hv' : 0x3A ∉ vW')
    (h : uW ++ 0x3A :: vW = uW' ++ 0x3A :: vW') : uW = uW' ∧ vW = vW' := by
  have hlen : vW.length = vW'.length := by
    have h1 := @findIdx?_colon uW _ hv
    rw [h, findIdx?_colon hv'] at h1
    exact (Option.some.inj h1).symm
  obtain ⟨hu, hcons⟩ := List.append_inj' h (by simp [hlen])
  exact ⟨hu, (List.cons.inj hcons).2⟩

/-- Groups in front of an IPv4 address are what the code cuts off. -/
theorem headOf_of_joinDotted {n : Nat} {hW uW vW vW' words : _} (hread : ReadsGroups looseGroups n hW words)
    (hv : 0x3A ∉ vW) (hv' : 0x3A ∉ vW') (h : uW ++ 0x3A :: vW = joinDotted hW vW') :
    hW = headOf uW ∧ vW' = vW := by
  by_cases hlast : hW.getLast? = some 0x3A
  · obtain ⟨uW', rfl, huW'⟩ := eq_headOf_of_readsGroups hread hlast
    rw [joinDotted, if_pos hlast, List.append_assoc, List.singleton_append] at h
    obtain ⟨rfl, rfl⟩ := eq_of_last_colon hv hv' h
    rw [headOf, if_pos huW']
    exact ⟨rfl, rfl⟩
  · rw [joinDotted, if_neg hlast] at h
    obtain ⟨rfl, rfl⟩ := eq_of_last_colon hv hv' h
    rw [headOf, if_neg hlast]
    exact ⟨rfl, rfl⟩

/-- A text whose characters are those of an address without a suffix, of a length that
is a `SIZE_T`. -/
structure IsText (sW : List WChar) : Prop where
  no_suffix : ∀ chW ∈ sW, chW ≠ 0x2F ∧ chW ≠ 0x25
  length_lt : sW.length < 2 ^ 64

/-- **An address as the code takes it**, by its last colon. -/
theorem readsAddress_loose_iff {uW vW : List WChar} (htext : IsText (uW ++ 0x3A :: vW))
    (hv : 0x3A ∉ vW) {words : List Nat} {d : Option (List Nat)} :
    ReadsAddress looseGroups ipv4Address (uW ++ 0x3A :: vW) words d ↔
      d = ipv4Address vW ∧
        match ipv4Address vW with
        | some _ => ReadsGroups looseGroups 6 (headOf uW) words
        | none => ReadsGroups looseGroups 8 (uW ++ 0x3A :: vW) words := by
  have hsuffix : ∀ chW ∈ vW, chW ≠ 0x2F ∧ chW ≠ 0x25 := fun chW hch =>
    htext.no_suffix chW (List.mem_append_right _ (List.mem_cons_of_mem _ hch))
  constructor
  · intro h
    cases d with
    | none =>
      have hnone : ipv4Address vW = none := by
        cases hd : ipv4Address vW with
        | none => rfl
        | some d =>
          have hdot := (dot_mem_of_ipv4Address hd hsuffix).1
          rcases hexa_of_readsGroups h (List.mem_append_right _ (List.mem_cons_of_mem _ hdot)) with
            hch | hch <;> exact absurd hch (by decide)
      rw [hnone]
      exact ⟨rfl, h⟩
    | some d =>
      obtain ⟨hW, vW', heq, hread, hd⟩ := h
      have hsuffix' : ∀ chW ∈ vW', chW ≠ 0x2F ∧ chW ≠ 0x25 := by
        intro chW hch
        apply htext.no_suffix
        rw [heq, joinDotted]
        split
        · exact List.mem_append_right _ hch
        · exact List.mem_append_right _ (List.mem_cons_of_mem _ hch)
      obtain ⟨rfl, rfl⟩ := headOf_of_joinDotted hread hv (dot_mem_of_ipv4Address hd hsuffix').2 heq
      rw [hd]
      exact ⟨rfl, hread⟩
  · rintro ⟨rfl, h⟩
    cases hd : ipv4Address vW with
    | none =>
      rw [hd] at h
      exact h
    | some d =>
      rw [hd] at h
      exact ⟨headOf uW, vW, (joinDotted_headOf uW vW).symm, h, hd⟩

/-- The words in front of an IPv4 address pass the check that the code makes. -/
def PassesCheck (words : List Nat) (d : Option (List Nat)) : Prop :=
  d.isSome = true → checkWords 2 words = true

/-- The words of an IPv4 address, as the code stores them. -/
def storedWords (d : Option (List Nat)) : List Nat := (d.map ipv4Words).getD []

/-- There is a colon in an address. -/
theorem colon_mem_of_readsAddress {sW : List WChar} {words : List Nat} {d : Option (List Nat)}
    (h : ReadsAddress looseGroups ipv4Address sW words d) : 0x3A ∈ sW ∧ 2 ≤ sW.length := by
  cases d with
  | none =>
    rcases h with ⟨hwords, hcount⟩ | ⟨l, r, left, right, rfl, -⟩
    · have hne : sW ≠ [] := by
        rintro rfl
        cases hwords
        cases hcount
      obtain ⟨⟨-, hlast⟩, p, ps, w, wss, hsplit, -, hwss, rfl⟩ := (looseGroups_eq_some_iff hne).mp hwords
      have hcolon : 0x3A ∈ sW := by
        by_contra hnot
        rw [List.splitOn_eq_singleton hnot] at hsplit
        cases hsplit
        cases hwss
        cases hcount
      refine ⟨hcolon, ?_⟩
      match sW, hcolon, hlast with
      | [chW], hcolon, hlast =>
        rw [List.mem_singleton] at hcolon
        exact absurd (by rw [← hcolon]; rfl) hlast
      | _ :: _ :: sW, _, _ => simp
    · exact ⟨by simp, by simp only [List.length_append, List.length_cons]; omega⟩
  | some d =>
    obtain ⟨hW, vW, rfl, -, hd⟩ := h
    have hpos : 0 < vW.length := by
      apply List.length_pos_of_ne_nil
      rintro rfl
      cases hd
    rw [joinDotted]
    split
    · next hlast =>
      have hmem := List.mem_of_getLast? hlast
      have hlen := List.length_pos_of_mem hmem
      exact ⟨List.mem_append_left _ hmem, by rw [List.length_append]; omega⟩
    · exact ⟨by simp, by simp only [List.length_append, List.length_cons]; omega⟩

/-- What follows the text that `ipv6Words` is given: a bracket, and the IPv4 address. -/
theorem exists_rest_of_headOf {uW vW rest : List WChar} (hv : 0x3A ∉ vW) (hrest : rest = [] ∨ rest = [0x5D]) :
    ∃ rest', uW ++ 0x3A :: vW ++ rest = headOf uW ++ rest' ∧ findColons rest' = none ∧
      ((headOf uW).getLast? = some 0x3A → rest'.head? ≠ some 0x3A) := by
  have hnot : 0x3A ∉ vW ++ rest := by
    rw [List.mem_append, not_or]
    refine ⟨hv, ?_⟩
    rcases hrest with rfl | rfl <;> decide
  have hhead : (vW ++ rest).head? ≠ some 0x3A := fun h => hnot (List.mem_of_head? h)
  rw [headOf]
  by_cases hlast : uW.getLast? = some 0x3A
  · rw [if_pos hlast]
    exact ⟨vW ++ rest, by simp, findColons_of_not_mem hnot, fun _ => hhead⟩
  · rw [if_neg hlast]
    refine ⟨0x3A :: (vW ++ rest), by simp, ?_, fun h => absurd h hlast⟩
    rw [findColons_cons, if_neg fun h => hhead h.2, findColons_of_not_mem hnot]
    rfl

/-- The text between the brackets, and its last colon. -/
theorem exists_last_colon {sW : List WChar} (h : 0x3A ∈ sW) :
    ∃ uW vW, sW = uW ++ 0x3A :: vW ∧ 0x3A ∉ vW := by
  obtain ⟨vW, uW, heq, hv⟩ := List.eq_append_cons_of_mem (List.mem_reverse.mpr h)
  refine ⟨uW.reverse, vW.reverse, ?_, fun hmem => hv (List.mem_reverse.mp hmem)⟩
  rw [← List.reverse_reverse sW, heq]
  simp

theorem ipv6Address_of_no_colon {szAddressW : List WChar} (htext : IsText (unbracket szAddressW))
    (h : 0x3A ∉ unbracket szAddressW ∨ (unbracket szAddressW).length < 2) (bWide : Bool) :
    ipv6Address bWide szAddressW szAddressW.length = none := by
  obtain ⟨rest, hstrip, -⟩ := stripBrackets_eq szAddressW
  have hall : (unbracket szAddressW).takeWhile (fun chW => chW != 0x2F && chW != 0x25)
      = unbracket szAddressW := by
    rw [List.takeWhile_eq_self_iff]
    intro chW hch
    simpa using htext.no_suffix chW hch
  rw [ipv6Address, hstrip]
  dsimp only
  rw [List.take_left' rfl, hall]
  by_cases hlen : (unbracket szAddressW).length < 2
  · rw [if_pos hlen]
  · have hnone : (unbracket szAddressW).reverse.findIdx? (· == 0x3A) = none := by
      rw [List.findIdx?_eq_none_iff]
      intro chW hch
      rw [beq_eq_false_iff_ne]
      rintro rfl
      exact h.resolve_right hlen (List.mem_reverse.mp hch)
    rw [if_neg hlen, hnone]

theorem length_headOf_le (uW : List WChar) : (headOf uW).length ≤ uW.length + 1 := by
  rw [headOf]
  split
  · rw [List.length_append, List.length_singleton]
  · exact Nat.le_succ _

/-- A bracket behind the text adds no double colon. -/
theorem findColons_bracket (sW : List WChar) {rest : List WChar} (hrest : rest = [] ∨ rest = [0x5D]) :
    findColons rest = none ∧ (sW.getLast? = some 0x3A → rest.head? ≠ some 0x3A) := by
  rcases hrest with rfl | rfl
  · exact ⟨rfl, fun _ => by simp⟩
  · exact ⟨rfl, fun _ => by decide⟩

/-- **What the narrow `IsValidIPV6` takes**: an address of the looser groups and IPv4
addresses that passes the check, with the IPv4 address as it lies in memory. -/
theorem ipv6Address_narrow_iff {szAddressW : List WChar} (htext : IsText (unbracket szAddressW))
    {ws : List Nat} :
    ipv6Address false szAddressW szAddressW.length = some ws ↔
      ∃ words d, ReadsAddress looseGroups ipv4Address (unbracket szAddressW) words d ∧
        PassesCheck words d ∧ ws = words ++ storedWords d := by
  by_cases hshort : 0x3A ∉ unbracket szAddressW ∨ (unbracket szAddressW).length < 2
  · rw [ipv6Address_of_no_colon htext hshort]
    constructor
    · intro h
      cases h
    · rintro ⟨words, d, hread, -⟩
      obtain ⟨hcolon, htwo⟩ := colon_mem_of_readsAddress hread
      rcases hshort with h | h
      · exact absurd hcolon h
      · omega
  · rw [not_or, not_not, not_lt] at hshort
    obtain ⟨uW, vW, heq, hv⟩ := exists_last_colon hshort.1
    obtain ⟨rest, hstrip, hrest⟩ := stripBrackets_eq szAddressW
    rw [heq] at hstrip hshort htext ⊢
    simp only [readsAddress_loose_iff htext hv]
    rw [ipv6Address_of_colon false hstrip htext.no_suffix hv hshort.2]
    have hlen := htext.length_lt
    cases hd : ipv4Address vW with
    | none =>
      dsimp only
      obtain ⟨hnone, hjoin⟩ := findColons_bracket (uW ++ 0x3A :: vW) hrest
      rw [ipv6Words_narrow_eq_some_iff (findColons_append hnone hjoin) hlen (by omega)]
      constructor
      · intro h
        exact ⟨ws, none, ⟨rfl, h⟩, fun h => (by cases h), by simp [storedWords]⟩
      · rintro ⟨words, d, ⟨rfl, h⟩, -, rfl⟩
        simpa [storedWords] using h
    | some d =>
      dsimp only
      obtain ⟨rest', hrest', hnone, hjoin⟩ := @exists_rest_of_headOf uW _ _ hv hrest
      have hhead : (headOf uW).length < 2 ^ 64 := by
        have hle := length_headOf_le uW
        rw [List.length_append, List.length_cons] at hlen
        omega
      rw [hrest', Option.bind_eq_some_iff]
      simp only [ipv6Words_narrow_eq_some_iff (findColons_append hnone hjoin) hhead (Nat.le_refl 2)]
      constructor
      · rintro ⟨words, hread, h⟩
        split at h
        · next hcheck =>
          cases h
          exact ⟨words, some d, ⟨rfl, hread⟩, fun _ => hcheck, rfl⟩
        · cases h
      · rintro ⟨words, d', ⟨rfl, hread⟩, hcheck, rfl⟩
        exact ⟨words, hread, if_pos (hcheck rfl)⟩

/-- **What the wide `IsValidIPV6` takes** has no group in front of a double colon. -/
theorem ipv6Address_wide_iff {szAddressW : List WChar} (htext : IsText (unbracket szAddressW))
    {ws : List Nat} :
    ipv6Address true szAddressW szAddressW.length = some ws ↔
      ipv6Address false szAddressW szAddressW.length = some ws ∧
        NothingBeforeColons (unbracket szAddressW) := by
  by_cases hshort : 0x3A ∉ unbracket szAddressW ∨ (unbracket szAddressW).length < 2
  · simp [ipv6Address_of_no_colon htext hshort]
  · rw [not_or, not_not, not_lt] at hshort
    obtain ⟨uW, vW, heq, hv⟩ := exists_last_colon hshort.1
    obtain ⟨rest, hstrip, hrest⟩ := stripBrackets_eq szAddressW
    rw [heq] at hstrip hshort htext ⊢
    rw [ipv6Address_of_colon true hstrip htext.no_suffix hv hshort.2,
      ipv6Address_of_colon false hstrip htext.no_suffix hv hshort.2]
    have hlen := htext.length_lt
    cases hd : ipv4Address vW with
    | none =>
      dsimp only
      obtain ⟨hnone, hjoin⟩ := findColons_bracket (uW ++ 0x3A :: vW) hrest
      exact ipv6Words_wide_eq_some_iff hnone hjoin hlen
    | some d =>
      dsimp only
      obtain ⟨rest', hrest', hnone, hjoin⟩ := @exists_rest_of_headOf uW _ _ hv hrest
      have hhead : (headOf uW).length < 2 ^ 64 := by
        have hle := length_headOf_le uW
        rw [List.length_append, List.length_cons] at hlen
        omega
      have hcolons : findColons (uW ++ 0x3A :: vW) = findColons (headOf uW) := by
        obtain ⟨rest'', hrest'', hnone'', hjoin''⟩ := @exists_rest_of_headOf uW _ _ hv (.inl rfl)
        rw [List.append_nil] at hrest''
        rw [hrest'', findColons_append hnone'' hjoin'']
      rw [hrest', Option.bind_eq_some_iff, Option.bind_eq_some_iff, NothingBeforeColons, hcolons]
      simp only [ipv6Words_wide_eq_some_iff hnone hjoin hhead]
      constructor
      · rintro ⟨words, ⟨hwords, hnothing⟩, h⟩
        exact ⟨⟨words, hwords, h⟩, hnothing⟩
      · rintro ⟨⟨words, hwords, h⟩, hnothing⟩
        exact ⟨words, ⟨hwords, hnothing⟩, h⟩

/-- **An address is read in one way.** -/
theorem readsAddress_loose_unique {sW : List WChar} (htext : IsText sW) {words words' : List Nat}
    {d d' : Option (List Nat)} (h : ReadsAddress looseGroups ipv4Address sW words d)
    (h' : ReadsAddress looseGroups ipv4Address sW words' d') : words = words' ∧ d = d' := by
  obtain ⟨uW, vW, rfl, hv⟩ := exists_last_colon (colon_mem_of_readsAddress h).1
  obtain ⟨rfl, hread⟩ := (readsAddress_loose_iff htext hv).mp h
  obtain ⟨rfl, hread'⟩ := (readsAddress_loose_iff htext hv).mp h'
  refine ⟨?_, rfl⟩
  have hlen := htext.length_lt
  cases hd : ipv4Address vW with
  | none =>
    rw [hd] at hread hread'
    have hfind := congrArg findColons (List.append_nil (uW ++ 0x3A :: vW))
    have h8 := (ipv6Words_narrow_eq_some_iff hfind hlen (Nat.zero_le 2)).mpr hread
    rw [(ipv6Words_narrow_eq_some_iff hfind hlen (Nat.zero_le 2)).mpr hread'] at h8
    exact (Option.some.inj h8).symm
  | some d =>
    rw [hd] at hread hread'
    have hle := length_headOf_le uW
    rw [List.length_append, List.length_cons] at hlen
    have hfind := congrArg findColons (List.append_nil (headOf uW))
    have h6 := (ipv6Words_narrow_eq_some_iff hfind (by omega) (Nat.le_refl 2)).mpr hread
    rw [(ipv6Words_narrow_eq_some_iff hfind (by omega) (Nat.le_refl 2)).mpr hread'] at h6
    exact (Option.some.inj h6).symm

/-! ### RFC 4291 -/

/-- A number of an IPv4 address in dotted decimal. -/
def decOctet (p : List WChar) : Option Nat :=
  (numeral p).bind fun x => if x.base = 10 ∧ x.value ≤ 255 then some x.value else none

/-- Four numbers between dots. -/
def dottedDecimal (vW : List WChar) : Option (List Nat) :=
  if (vW.splitOn 0x2E).length = 4 then (vW.splitOn 0x2E).mapM decOctet else none

/-- The two groups that an IPv4 address stands for. -/
def dottedWords : Option (List Nat) → List Nat
  | none => []
  | some d => [256 * d.getD 0 0 + d.getD 1 0, 256 * d.getD 2 0 + d.getD 3 0]

/-- **The address that a text stands for**, by section 2.2 of RFC 4291. -/
def Rfc4291 (szAddressW : List WChar) (ws : List Nat) : Prop :=
  ∃ words d, ReadsAddress hexGroups dottedDecimal (unbracket szAddressW) words d ∧
    ws = words ++ dottedWords d

theorem mapM_mono {α β : Type} {f g : α → Option β} (hfg : ∀ a b, f a = some b → g a = some b)
    {l : List α} {bs : List β} (h : l.mapM f = some bs) : l.mapM g = some bs := by
  induction l generalizing bs with
  | nil =>
    cases h
    rfl
  | cons a l ih =>
    obtain ⟨b, bs', hb, hbs', rfl⟩ := mapM_cons_eq_some_iff.mp h
    exact mapM_cons_eq_some_iff.mpr ⟨b, bs', hfg a b hb, ih hbs', rfl⟩

theorem valueFrom_lt {v : Nat} {digits : List Nat} (h : ∀ dw ∈ digits, dw < 16) :
    valueFrom 16 v digits < (v + 1) * 16 ^ digits.length := by
  induction digits generalizing v with
  | nil => simp [valueFrom]
  | cons dw digits ih =>
    have hdw := h dw List.mem_cons_self
    have hrest := ih (v := v * 16 + dw) fun d hd => h d (List.mem_cons_of_mem _ hd)
    have hle : (v * 16 + dw + 1) * 16 ^ digits.length ≤ (v + 1) * 16 * 16 ^ digits.length :=
      Nat.mul_le_mul_right _ (by omega)
    rw [valueFrom_cons, List.length_cons, Nat.pow_succ', ← Nat.mul_assoc]
    omega

theorem looseGroup_of_hexGroup {p : List WChar} {w : Nat} (h : hexGroup p = some w) :
    looseGroup p = some w := by
  rw [hexGroup] at h
  split at h
  · next hlen =>
    obtain ⟨digits, hdigits, rfl⟩ := Option.map_eq_some_iff.mp h
    have hcount := length_mapM hdigits
    have hlt : valueFrom 16 0 digits < 16 ^ 4 := by
      have hall : ∀ dw ∈ digits, dw < 16 := by
        intro dw hdw
        obtain ⟨chW, -, hch⟩ := exists_of_mem_mapM hdigits hdw
        exact hexaDigit_lt hch
      have hpow : 16 ^ digits.length ≤ 16 ^ 4 := Nat.pow_le_pow_right (by omega) (by omega)
      have := valueFrom_lt (v := 0) hall
      omega
    have hne : digits ≠ [] := List.ne_nil_of_length_pos (by omega)
    rw [looseGroup, hdigits, Option.bind_some]
    dsimp only
    rw [if_pos ⟨hne, by omega⟩, Nat.mod_eq_of_lt (by omega)]
  · cases h

theorem looseGroups_of_hexGroups {sW : List WChar} {ws : List Nat} (h : hexGroups sW = some ws) :
    looseGroups sW = some ws := by
  rw [hexGroups] at h
  by_cases hne : sW = []
  · rw [if_pos hne] at h
    rw [looseGroups, if_pos hne, h]
  · rw [if_neg hne] at h
    have hloose := mapM_mono (fun p w => looseGroup_of_hexGroup) h
    rw [looseGroups, if_neg hne]
    cases hsplit : sW.splitOn 0x3A with
    | nil => exact absurd hsplit (List.splitOn_ne_nil _ _)
    | cons p ps =>
      rw [hsplit] at hloose
      cases p with
      | nil =>
        obtain ⟨w, wss, hw, -, -⟩ := mapM_cons_eq_some_iff.mp hloose
        exact absurd rfl (looseGroup_eq_some_iff.mp hw).1
      | cons c p => exact hloose

theorem ipv4Address_of_dottedDecimal {vW : List WChar} {d : List Nat} (h : dottedDecimal vW = some d) :
    ipv4Address vW = some d := by
  rw [dottedDecimal] at h
  split at h
  · next hlen =>
    have hoctet : ∀ {p : List WChar} {b : Nat}, decOctet p = some b →
        ∃ x, numeral p = some x ∧ x.value = b ∧ b ≤ 255 := by
      intro p b hb
      obtain ⟨x, hx, hb⟩ := Option.bind_eq_some_iff.mp hb
      split at hb
      · next hle =>
        cases hb
        exact ⟨x, hx, rfl, hle.2⟩
      · cases hb
    match hsplit : vW.splitOn 0x2E, hlen with
    | [p1, p2, p3, p4], _ =>
      rw [hsplit] at h
      simp only [mapM_cons_eq_some_iff] at h
      obtain ⟨b1, _, h1, ⟨b2, _, h2, ⟨b3, _, h3, ⟨b4, _, h4, hnil, rfl⟩, rfl⟩, rfl⟩, rfl⟩ := h
      cases hnil
      obtain ⟨x1, hx1, rfl, hle1⟩ := hoctet h1
      obtain ⟨x2, hx2, rfl, hle2⟩ := hoctet h2
      obtain ⟨x3, hx3, rfl, hle3⟩ := hoctet h3
      obtain ⟨x4, hx4, rfl, hle4⟩ := hoctet h4
      have hmap : (vW.splitOn 0x2E).mapM numeral = some ([x1, x2, x3] ++ [x4]) := by
        rw [hsplit]
        simp only [mapM_cons_eq_some_iff]
        exact ⟨x1, _, hx1, ⟨x2, _, hx2, ⟨x3, _, hx3, ⟨x4, _, hx4, rfl, rfl⟩, rfl⟩, rfl⟩, rfl⟩
      have hall : vW.takeWhile inAddress = vW := by
        rw [List.takeWhile_eq_self_iff]
        intro chW hch
        rcases hexa_of_numerals hmap hch with rfl | rfl | rfl | hhexa
        · rfl
        · rfl
        · rfl
        · rw [inAddress, Bool.and_eq_true, bne_iff_ne, bne_iff_ne]
          constructor <;>
            · rintro rfl
              exact absurd hhexa (by decide)
      apply ipv4Address_of_inetAton
      refine ⟨[x1, x2, x3], x4, ⟨?_, by simp, by simp⟩, ?_, ?_, ?_⟩
      · rw [dotted, hall, hmap]
      · simp [hle1, hle2, hle3]
      · simp
        omega
      · simp [bigEndian]
        omega
  · cases h

theorem readsAddress_loose_of_rfc {sW : List WChar} {words : List Nat} {d : Option (List Nat)}
    (h : ReadsAddress hexGroups dottedDecimal sW words d) :
    ReadsAddress looseGroups ipv4Address sW words d := by
  have hgroups : ∀ {n : Nat} {hW : List WChar}, ReadsGroups hexGroups n hW words →
      ReadsGroups looseGroups n hW words := by
    rintro n hW (⟨hwords, hcount⟩ | ⟨l, r, left, right, heq, hl, hr, hcount, hws⟩)
    · exact .inl ⟨looseGroups_of_hexGroups hwords, hcount⟩
    · exact .inr ⟨l, r, left, right, heq, looseGroups_of_hexGroups hl, looseGroups_of_hexGroups hr,
        hcount, hws⟩
  cases d with
  | none => exact hgroups h
  | some d =>
    obtain ⟨hW, vW, heq, hread, hd⟩ := h
    exact ⟨hW, vW, heq, hgroups hread, ipv4Address_of_dottedDecimal hd⟩

/-- The first two bytes of an IPv4 address are one byte, and the last two. -/
def PairsEqual (d : Option (List Nat)) : Prop :=
  ∀ d', d = some d' → d'.getD 0 0 = d'.getD 1 0 ∧ d'.getD 2 0 = d'.getD 3 0

theorem IsText.unbracket {szAddressW : List WChar} (h : IsText szAddressW) :
    IsText (unbracket szAddressW) := by
  rw [HostResolver.unbracket]
  split
  · refine ⟨fun chW hch => h.no_suffix chW (List.mem_of_mem_tail ((List.dropLast_sublist _).subset hch)), ?_⟩
    have := h.length_lt
    rw [List.length_dropLast, List.length_tail]
    omega
  · exact h

/-- The words of an IPv4 address are those of its two groups if its bytes are equal in
pairs. -/
theorem storedWords_eq_iff (words : List Nat) (d : Option (List Nat)) :
    words ++ storedWords d = words ++ dottedWords d ↔ PairsEqual d := by
  rw [List.append_cancel_left_eq]
  cases d with
  | none => simp [storedWords, dottedWords, PairsEqual]
  | some d =>
    simp only [storedWords, Option.map_some, Option.getD_some, ipv4Words, dottedWords, PairsEqual,
      List.cons.injEq, and_true]
    constructor
    · rintro ⟨h1, h2⟩ d' hd'
      cases hd'
      omega
    · intro h
      obtain ⟨h1, h2⟩ := h d rfl
      omega

/-- **`IsValidIPV6` takes the text forms of RFC 4291** with their words, narrow and wide,
exactly for those where nothing stands in front of a double colon and an IPv4 address
has bytes that are equal in pairs, behind words that pass the check; and for those that
are neither such a form nor one of the looser groups. -/
theorem ipv6Address_exact_iff {szAddressW : List WChar} (htext : IsText szAddressW) :
    (∀ bWide ws, ipv6Address bWide szAddressW szAddressW.length = some ws ↔ Rfc4291 szAddressW ws) ↔
      (∃ words d, ReadsAddress hexGroups dottedDecimal (unbracket szAddressW) words d ∧
        NothingBeforeColons (unbracket szAddressW) ∧ PassesCheck words d ∧ PairsEqual d) ∨
      ((¬ ∃ words d, ReadsAddress hexGroups dottedDecimal (unbracket szAddressW) words d) ∧
        ¬ ∃ words d, ReadsAddress looseGroups ipv4Address (unbracket szAddressW) words d ∧
          PassesCheck words d) := by
  have htext := htext.unbracket
  constructor
  · intro h
    by_cases hrfc : ∃ words d, ReadsAddress hexGroups dottedDecimal (unbracket szAddressW) words d
    · obtain ⟨words, d, hread⟩ := hrfc
      have hform : Rfc4291 szAddressW (words ++ dottedWords d) := ⟨words, d, hread, rfl⟩
      have hwide := (h true _).mpr hform
      obtain ⟨words', d', hread', hcheck, hws⟩ := (ipv6Address_narrow_iff htext).mp ((h false _).mpr hform)
      obtain ⟨rfl, rfl⟩ := readsAddress_loose_unique htext (readsAddress_loose_of_rfc hread) hread'
      exact .inl ⟨words, d, hread, ((ipv6Address_wide_iff htext).mp hwide).2, hcheck,
        (storedWords_eq_iff words d).mp hws.symm⟩
    · refine .inr ⟨hrfc, ?_⟩
      rintro ⟨words, d, hread, hcheck⟩
      obtain ⟨words', d', hread', -⟩ := (h false _).mp
        ((ipv6Address_narrow_iff htext).mpr ⟨words, d, hread, hcheck, rfl⟩)
      exact hrfc ⟨words', d', hread'⟩
  · intro h bWide ws
    have hwide : ipv6Address bWide szAddressW szAddressW.length = some ws ↔
        ipv6Address false szAddressW szAddressW.length = some ws ∧
          (bWide = true → NothingBeforeColons (unbracket szAddressW)) := by
      cases bWide with
      | false => simp
      | true => simp [ipv6Address_wide_iff htext]
    rw [hwide, ipv6Address_narrow_iff htext]
    rcases h with ⟨words, d, hread, hnothing, hcheck, hpairs⟩ | ⟨hrfc, hloose⟩
    · have hread' := readsAddress_loose_of_rfc hread
      have hwords := (storedWords_eq_iff words d).mpr hpairs
      constructor
      · rintro ⟨⟨words', d', hreads, -, rfl⟩, -⟩
        obtain ⟨rfl, rfl⟩ := readsAddress_loose_unique htext hread' hreads
        exact ⟨words, d, hread, hwords⟩
      · rintro ⟨words', d', hreads, rfl⟩
        obtain ⟨rfl, rfl⟩ := readsAddress_loose_unique htext hread' (readsAddress_loose_of_rfc hreads)
        exact ⟨⟨words, d, hread', hcheck, hwords.symm⟩, fun _ => hnothing⟩
    · constructor
      · rintro ⟨⟨words', d', hreads, hcheck, -⟩, -⟩
        exact absurd ⟨words', d', hreads, hcheck⟩ hloose
      · rintro ⟨words', d', hreads, -⟩
        exact absurd ⟨words', d', hreads⟩ hrfc

theorem ipv6Address_exact_loopback :
    ipv6Address true (wide "[::1]") 5 = some [0, 0, 0, 0, 0, 0, 0, 1] ↔
      Rfc4291 (wide "[::1]") [0, 0, 0, 0, 0, 0, 0, 1] := by
  have htext : IsText (wide "[::1]") := ⟨by simp [wide], by decide⟩
  refine (ipv6Address_exact_iff htext).mpr (.inl ⟨[0, 0, 0, 0, 0, 0, 0, 1], none, ?_, ?_, ?_, ?_⟩) true _
  · exact .inr ⟨[], [0x31], [], [1], rfl, rfl, rfl, by decide, rfl⟩
  · intro nPos h
    exact (Option.some.inj h).symm
  · intro h
    cases h
  · intro d' h
    cases h

/-- The wide version takes no group in front of a double colon. -/
theorem ipv6Address_wide_group :
    ¬ ∀ szAddressW : List WChar, IsText szAddressW → ∀ bWide ws,
      ipv6Address bWide szAddressW szAddressW.length = some ws ↔ Rfc4291 szAddressW ws := by
  intro h
  have hform : Rfc4291 (wide "1::2") [1, 0, 0, 0, 0, 0, 0, 2] :=
    ⟨_, none, .inr ⟨[0x31], [0x32], [1], [2], rfl, rfl, rfl, by decide, rfl⟩, rfl⟩
  have hwide : ipv6Address true (wide "1::2") (wide "1::2").length = none := by decide +kernel
  rw [← h (wide "1::2") ⟨by simp [wide], by decide⟩ true, hwide] at hform
  cases hform

/-- Five digits, a colon in front, and an IPv4 address with its bytes swapped. -/
example : ipv6Address false (wide "12345::") 7 = some [0x2345, 0, 0, 0, 0, 0, 0, 0] ∧
    ipv6Address false (wide ":1::") 4 = some [0, 1, 0, 0, 0, 0, 0, 0] ∧
    ipv6Address false (wide "::1.2.3.4") 9 = some [0, 0, 0, 0, 0, 0, 0x201, 0x403] := by
  decide +kernel

end MxLib.HostResolver
