import MxLib.Library.Loop
import MxLib.Library.Utf8
import MxLib.Strings.Strings

/-!
# Converting a text in blocks

`CStringW::ConcatN` of a narrow text and `CStringA::ConcatN` of a wide one hand at
most 16384 characters at a time to `MultiByteToWideChar` and `WideCharToMultiByte`.
The wide text is not cut between a high surrogate and what follows it, so the blocks
are converted as the whole text is.  Nothing looks where the narrow text is cut: a
character of several bytes across the end of a block is lost, and both of its parts
become U+FFFD.
-/

namespace MxLib

open MxLib.Library MxLib.Library.Unicode

/-! ### The functions of the system -/

/-- `nCodepage` -/
inductive CodePage
  | acp | utf8
deriving DecidableEq

/-- `MultiByteToWideChar(nCodepage, 0, ..)` and `WideCharToMultiByte(nCodepage, 0, ..)`.  The
length that is asked for first is that of the result. -/
structure Conversions where
  multiByteToWideChar : CodePage → List Byte → List WChar
  wideCharToMultiByte : CodePage → List WChar → List Byte

/-- Both functions convert well-formed texts.  Where the bytes begin or end inside a character
`MultiByteToWideChar` writes U+FFFD, at least once, for what there is of it. -/
structure Conversions.Standard (conv : Conversions) : Prop where
  narrow : ∀ s, isWellFormed s = true → conv.wideCharToMultiByte .utf8 s = utf8Text s
  wide : ∀ t s h, IsTail t → isWellFormed s = true → IsHead h →
    ∃ m n, conv.multiByteToWideChar .utf8 (t ++ utf8Text s ++ h) =
        List.replicate m 0xFFFD ++ s ++ List.replicate n 0xFFFD ∧
      (0 < m ↔ t ≠ []) ∧ (0 < n ↔ h ≠ [])

/-! ### The code -/

/-- What `ConcatN` returns, and the string after it. -/
structure ConcatResult (β : Type) where
  bRes : Bool
  cStr : List β
deriving DecidableEq

/-- Before a turn of the loop: what is left of the source, and the string. -/
structure ConcatState (α β : Type) where
  szSrc : List α
  cStr : List β

/-- A turn of the loop in either `ConcatN`.  `hasRoom n` says that `n` does not overflow and
`EnsureBuffer(n)` finds the memory. -/
def concatTurn {α β : Type} (nThisLen : List α → Nat) (convert : List α → List β)
    (hasRoom : Nat → Bool) (cStrOrig : List β) (s : ConcatState α β) :
    ConcatState α β ⊕ ConcatResult β :=
  if s.szSrc.length = 0 then .inr ⟨true, s.cStr⟩
  else
    let dest := convert (s.szSrc.take (nThisLen s.szSrc))
    if dest.length = 0 then .inr ⟨false, cStrOrig⟩
    else if hasRoom (s.cStr.length + dest.length + 1) then
      .inl ⟨s.szSrc.drop (nThisLen s.szSrc), s.cStr ++ dest⟩
    else .inr ⟨false, cStrOrig⟩

/-- The loop, from what is left of the source and the string. -/
def concatLoop {α β : Type} (nThisLen : List α → Nat) (convert : List α → List β)
    (hasRoom : Nat → Bool) (cStrOrig : List β) (szSrc : List α) (cStr : List β) : ConcatResult β :=
  Loop.exec (concatTurn nThisLen convert hasRoom cStrOrig) (·.szSrc.length) ⟨false, cStrOrig⟩
    ⟨szSrc, cStr⟩

/-- Either `ConcatN`; `none` is the null pointer. -/
def concatN {α β : Type} (nThisLen : List α → Nat) (convert : List α → List β)
    (hasRoom : Nat → Bool) (cStr : List β) (szSrc : Option (List α)) (nSrcLen : Nat) :
    ConcatResult β :=
  if nSrcLen = 0 then ⟨true, cStr⟩
  else
    match szSrc with
    | none => ⟨false, cStr⟩
    | some szSrc => concatLoop nThisLen convert hasRoom cStr (szSrc.take nSrcLen) cStr

/-- The bytes of a block. -/
def blockA (szSrcA : List Byte) : Nat := if szSrcA.length > 16384 then 16384 else szSrcA.length

/-- The units of a block; a pair of surrogates is not split. -/
def blockW (szSrcW : List WChar) : Nat :=
  let nThisLen := if szSrcW.length > 16384 then 16384 else szSrcW.length
  if nThisLen > 1 && charAt szSrcW (nThisLen - 1) ≥ 0xD800 &&
      charAt szSrcW (nThisLen - 1) ≤ 0xDBFF then nThisLen - 1
  else nThisLen

def codePage (bUtf8 : Bool) : CodePage := if bUtf8 == false then .acp else .utf8

/-- `CStringW::ConcatN(szSrcA, nSrcLen)` -/
def concatNWide (conv : Conversions) (bUtf8 : Bool) (hasRoom : Nat → Bool) (cStrW : List WChar)
    (szSrcA : Option (List Byte)) (nSrcLen : Nat) : ConcatResult WChar :=
  concatN blockA (conv.multiByteToWideChar (codePage bUtf8)) hasRoom cStrW szSrcA nSrcLen

/-- `CStringA::ConcatN(szSrcW, nSrcLen)` -/
def concatNNarrow (conv : Conversions) (bUtf8 : Bool) (hasRoom : Nat → Bool) (cStrA : List Byte)
    (szSrcW : Option (List WChar)) (nSrcLen : Nat) : ConcatResult Byte :=
  concatN blockW (conv.wideCharToMultiByte (codePage bUtf8)) hasRoom cStrA szSrcW nSrcLen

/-- `CStringW::Copy(szSrcA)` -/
def copyWide (conv : Conversions) (bUtf8 : Bool) (hasRoom : Nat → Bool) (szSrcA : List Byte) :
    ConcatResult WChar :=
  concatNWide conv bUtf8 hasRoom [] (some (szStr szSrcA)) (szStr szSrcA).length

/-! ### What the loop appends -/

section Blocks

variable {α β : Type} {nThisLen : List α → Nat} {convert : List α → List β}

/-- The conversions of the blocks, one after the other. -/
def convertBlocks (nThisLen : List α → Nat) (convert : List α → List β) : Nat → List α → List β
  | 0, _ => []
  | fuel + 1, szSrc =>
    if szSrc = [] then []
    else convert (szSrc.take (nThisLen szSrc)) ++
      convertBlocks nThisLen convert fuel (szSrc.drop (nThisLen szSrc))

theorem convertBlocks_nil (fuel : Nat) : convertBlocks nThisLen convert fuel [] = [] := by
  cases fuel with
  | zero => rfl
  | succ fuel => rw [convertBlocks, if_pos rfl]

theorem convertBlocks_of_ne_nil {szSrc : List α} (h : szSrc ≠ []) (fuel : Nat) :
    convertBlocks nThisLen convert (fuel + 1) szSrc = convert (szSrc.take (nThisLen szSrc)) ++
      convertBlocks nThisLen convert fuel (szSrc.drop (nThisLen szSrc)) := by
  rw [convertBlocks, if_neg h]

theorem concatTurn_nil (hasRoom : Nat → Bool) (cStrOrig cStr : List β) :
    concatTurn nThisLen convert hasRoom cStrOrig ⟨[], cStr⟩ = .inr ⟨true, cStr⟩ := by
  rw [concatTurn, if_pos (by rfl)]

/-- A turn converts a block, or leaves with the string as it was. -/
theorem concatTurn_of_ne_nil (hasRoom : Nat → Bool) (cStrOrig cStr : List β) {szSrc : List α}
    (h : szSrc ≠ []) :
    concatTurn nThisLen convert hasRoom cStrOrig ⟨szSrc, cStr⟩ =
      if convert (szSrc.take (nThisLen szSrc)) ≠ [] ∧
          hasRoom (cStr.length + (convert (szSrc.take (nThisLen szSrc))).length + 1) = true then
        .inl ⟨szSrc.drop (nThisLen szSrc), cStr ++ convert (szSrc.take (nThisLen szSrc))⟩
      else .inr ⟨false, cStrOrig⟩ := by
  rw [concatTurn, if_neg (fun hlen => h (List.eq_nil_of_length_eq_zero hlen))]
  dsimp only
  by_cases hdest : convert (szSrc.take (nThisLen szSrc)) = []
  · rw [if_pos (by rw [hdest]; rfl), if_neg (fun hand => hand.1 hdest)]
  · rw [if_neg (fun hlen => hdest (List.eq_nil_of_length_eq_zero hlen))]
    exact if_congr (by rw [and_iff_right hdest]) rfl rfl

theorem concatLoop_nil (hasRoom : Nat → Bool) (cStrOrig cStr : List β) :
    concatLoop nThisLen convert hasRoom cStrOrig [] cStr = ⟨true, cStr⟩ :=
  Loop.exec_inr _ (concatTurn_nil hasRoom cStrOrig cStr)

variable (hpos : ∀ szSrc : List α, szSrc ≠ [] → 0 < nThisLen szSrc)
include hpos

theorem concatTurn_drops (hasRoom : Nat → Bool) (cStrOrig : List β) (s t : ConcatState α β)
    (h : concatTurn nThisLen convert hasRoom cStrOrig s = .inl t) :
    t.szSrc.length < s.szSrc.length := by
  obtain ⟨szSrc, cStr⟩ := s
  by_cases hne : szSrc = []
  · rw [hne, concatTurn_nil] at h
    cases h
  · have hblock := hpos szSrc hne
    have hlen := List.length_pos_of_ne_nil hne
    rw [concatTurn_of_ne_nil _ _ _ hne] at h
    split at h
    · obtain rfl := Sum.inl.inj h
      change (szSrc.drop (nThisLen szSrc)).length < szSrc.length
      rw [List.length_drop]
      omega
    · cases h

theorem concatLoop_of_ne_nil (hasRoom : Nat → Bool) (cStrOrig cStr : List β) {szSrc : List α}
    (h : szSrc ≠ []) :
    concatLoop nThisLen convert hasRoom cStrOrig szSrc cStr =
      if convert (szSrc.take (nThisLen szSrc)) ≠ [] ∧
          hasRoom (cStr.length + (convert (szSrc.take (nThisLen szSrc))).length + 1) = true then
        concatLoop nThisLen convert hasRoom cStrOrig (szSrc.drop (nThisLen szSrc))
          (cStr ++ convert (szSrc.take (nThisLen szSrc)))
      else ⟨false, cStrOrig⟩ := by
  have hturn := @concatTurn_of_ne_nil _ _ nThisLen convert hasRoom cStrOrig cStr _ h
  split
  · rename_i hgo
    rw [if_pos hgo] at hturn
    exact Loop.exec_inl (concatTurn_drops hpos hasRoom cStrOrig) _ hturn
  · rename_i hstop
    rw [if_neg hstop] at hturn
    exact Loop.exec_inr _ hturn

/-- **A call that succeeds appends the conversions of the blocks**, and one that fails leaves
the string as it was. -/
theorem concatLoop_spec (hasRoom : Nat → Bool) (cStrOrig : List β) :
    ∀ (fuel : Nat) (szSrc : List α) (cStr : List β), szSrc.length ≤ fuel →
      concatLoop nThisLen convert hasRoom cStrOrig szSrc cStr =
          ⟨true, cStr ++ convertBlocks nThisLen convert fuel szSrc⟩ ∨
        concatLoop nThisLen convert hasRoom cStrOrig szSrc cStr = ⟨false, cStrOrig⟩ := by
  intro fuel
  induction fuel with
  | zero =>
    intro szSrc cStr hlen
    obtain rfl := List.eq_nil_of_length_eq_zero (Nat.le_zero.mp hlen)
    rw [concatLoop_nil, convertBlocks, List.append_nil]
    exact .inl rfl
  | succ fuel ih =>
    intro szSrc cStr hlen
    by_cases hne : szSrc = []
    · rw [hne, concatLoop_nil, convertBlocks_nil, List.append_nil]
      exact .inl rfl
    · have hblock := hpos szSrc hne
      rw [concatLoop_of_ne_nil hpos _ _ _ hne, convertBlocks_of_ne_nil hne, ← List.append_assoc]
      split
      · exact ih _ _ (by rw [List.length_drop]; omega)
      · exact .inr rfl

/-- **A conversion of the whole text**: the blocks of a good text are converted as parts of
it. -/
theorem concatLoop_of_good (Good : List α → Prop) (whole : List α → List β)
    (hnil : whole [] = [])
    (hgood : ∀ szSrc, Good szSrc → szSrc ≠ [] → Good (szSrc.drop (nThisLen szSrc)) ∧
      convert (szSrc.take (nThisLen szSrc)) ≠ [] ∧
      whole szSrc = convert (szSrc.take (nThisLen szSrc)) ++ whole (szSrc.drop (nThisLen szSrc)))
    (cStrOrig : List β) :
    ∀ (fuel : Nat) (szSrc : List α) (cStr : List β), szSrc.length ≤ fuel → Good szSrc →
      convertBlocks nThisLen convert fuel szSrc = whole szSrc ∧
        (concatLoop nThisLen convert (fun _ => true) cStrOrig szSrc cStr).bRes = true := by
  intro fuel
  induction fuel with
  | zero =>
    intro szSrc cStr hlen _
    obtain rfl := List.eq_nil_of_length_eq_zero (Nat.le_zero.mp hlen)
    rw [concatLoop_nil]
    exact ⟨hnil.symm, rfl⟩
  | succ fuel ih =>
    intro szSrc cStr hlen hsrc
    by_cases hne : szSrc = []
    · rw [hne, concatLoop_nil, convertBlocks_nil]
      exact ⟨hnil.symm, rfl⟩
    · have hblock := hpos szSrc hne
      obtain ⟨hrest, hdest, hwhole⟩ := hgood szSrc hsrc hne
      obtain ⟨hconv, hres⟩ := ih (szSrc.drop (nThisLen szSrc))
        (cStr ++ convert (szSrc.take (nThisLen szSrc))) (by rw [List.length_drop]; omega) hrest
      rw [concatLoop_of_ne_nil hpos _ _ _ hne, convertBlocks_of_ne_nil hne, if_pos ⟨hdest, rfl⟩,
        hconv, hwhole]
      exact ⟨rfl, hres⟩

end Blocks

/-! ### The wide text -/

theorem blockW_pos (szSrcW : List WChar) (h : szSrcW ≠ []) : 0 < blockW szSrcW := by
  have hlen := List.length_pos_of_ne_nil h
  obtain ⟨n, hn⟩ : ∃ n, (if szSrcW.length > 16384 then 16384 else szSrcW.length) = n := ⟨_, rfl⟩
  have hpos : 0 < n := by split at hn <;> omega
  rw [blockW, hn]
  split
  · rename_i hsplit
    rw [Bool.and_eq_true, Bool.and_eq_true, decide_eq_true_iff] at hsplit
    omega
  · exact hpos

theorem charAt_of_getElem? {s : List WChar} {k : Nat} {u : WChar} (h : s[k]? = some u) :
    charAt s k = u := by
  rw [charAt, List.getD_eq_getElem?_getD, h, Option.getD_some]

/-- **No pair is split.** -/
theorem isWellFormed_take_blockW {s : List WChar} (hs : isWellFormed s = true) :
    isWellFormed (s.take (blockW s)) = true := by
  obtain ⟨hhighs, -⟩ := (isWellFormed_iff s).mp hs
  obtain ⟨n, hn⟩ : ∃ n, (if s.length > 16384 then 16384 else s.length) = n := ⟨_, rfl⟩
  have hcut : n ≤ 1 → s.length = n := by
    intro hone
    split at hn <;> omega
  rw [blockW, hn]
  split
  · rename_i hsplit
    rw [Bool.and_eq_true, Bool.and_eq_true, and_assoc, decide_eq_true_iff,
      ← Bool.and_eq_true] at hsplit
    obtain ⟨hgt, hhigh⟩ := hsplit
    refine isWellFormed_take hs fun u hu => ?_
    -- a high surrogate before another one
    by_contra hbefore
    obtain ⟨v, hv, hlow⟩ := hhighs _ u hu (by simpa using hbefore)
    rw [show n - 1 - 1 + 1 = n - 1 by omega] at hv
    rw [charAt_of_getElem? hv] at hhigh
    exact Bool.false_ne_true ((isHighSurrogate_of_isLowSurrogate hlow).symm.trans hhigh)
  · rename_i hsplit
    refine isWellFormed_take hs fun u hu => ?_
    by_contra hhigh
    rw [Bool.not_eq_false] at hhigh
    obtain ⟨v, hv, -⟩ := hhighs _ u hu hhigh
    by_cases hone : n ≤ 1
    · rw [List.getElem?_eq_none (by have := hcut hone; omega)] at hv
      cases hv
    · refine hsplit ?_
      rw [charAt_of_getElem? hu, Bool.and_assoc, Bool.and_eq_true, decide_eq_true_iff]
      exact ⟨by omega, hhigh⟩

/-! ### Both functions -/

/-- The call appends `dest`, unless a buffer could not be had. -/
def Appends {β : Type} (concat : (Nat → Bool) → ConcatResult β) (cStr dest : List β) : Prop :=
  (∀ hasRoom, (concat hasRoom).bRes = true → (concat hasRoom).cStr = cStr ++ dest) ∧
    (concat fun _ => true).bRes = true

section Whole

variable {α β : Type} {nThisLen : List α → Nat} {convert : List α → List β}
  (hpos : ∀ szSrc : List α, szSrc ≠ [] → 0 < nThisLen szSrc)

theorem concatN_eq (hasRoom : Nat → Bool) (cStr : List β) (szSrc : List α) :
    concatN nThisLen convert hasRoom cStr (some szSrc) szSrc.length =
      concatLoop nThisLen convert hasRoom cStr szSrc cStr := by
  rw [concatN, List.take_length]
  split
  · rename_i hnil
    rw [List.eq_nil_of_length_eq_zero hnil, concatLoop_nil]
  · rfl

include hpos

/-- A text of one block. -/
theorem concatN_of_one_block {szSrc : List α} (hblock : nThisLen szSrc = szSrc.length)
    (hne : szSrc ≠ []) (hdest : convert szSrc ≠ []) (cStr : List β) :
    concatN nThisLen convert (fun _ => true) cStr (some szSrc) szSrc.length =
      ⟨true, cStr ++ convert szSrc⟩ := by
  rw [concatN_eq, concatLoop_of_ne_nil hpos _ _ _ hne, hblock, List.take_length,
    List.drop_length, if_pos ⟨hdest, rfl⟩, concatLoop_nil]

theorem appends_of_good (Good : List α → Prop) (whole : List α → List β) (hnil : whole [] = [])
    (hgood : ∀ szSrc, Good szSrc → szSrc ≠ [] → Good (szSrc.drop (nThisLen szSrc)) ∧
      convert (szSrc.take (nThisLen szSrc)) ≠ [] ∧
      whole szSrc = convert (szSrc.take (nThisLen szSrc)) ++ whole (szSrc.drop (nThisLen szSrc)))
    (cStr : List β) {szSrc : List α} (hsrc : Good szSrc) :
    Appends (fun hasRoom => concatN nThisLen convert hasRoom cStr (some szSrc) szSrc.length) cStr
      (whole szSrc) := by
  obtain ⟨hconv, hres⟩ := concatLoop_of_good hpos Good whole hnil hgood cStr szSrc.length szSrc
    cStr (Nat.le_refl _) hsrc
  refine ⟨fun hasRoom h => ?_, ?_⟩
  · dsimp only at h ⊢
    rw [concatN_eq] at h ⊢
    rcases concatLoop_spec hpos hasRoom cStr szSrc.length szSrc cStr (Nat.le_refl _) with heq | heq
    · rw [heq, hconv]
    · rw [heq] at h
      cases h
  · dsimp only
    rw [concatN_eq]
    exact hres

/-- A call that fails leaves the string as it was. -/
theorem concatN_failed {hasRoom : Nat → Bool} {cStr : List β} {szSrc : Option (List α)}
    {nSrcLen : Nat} (h : (concatN nThisLen convert hasRoom cStr szSrc nSrcLen).bRes = false) :
    (concatN nThisLen convert hasRoom cStr szSrc nSrcLen).cStr = cStr := by
  unfold concatN at h ⊢
  split
  · rfl
  · rename_i hlen
    rw [if_neg hlen] at h
    cases szSrc with
    | none => rfl
    | some szSrc =>
      dsimp only at h ⊢
      rcases concatLoop_spec hpos hasRoom cStr _ (szSrc.take nSrcLen) cStr (Nat.le_refl _)
        with heq | heq
      · rw [heq] at h
        cases h
      · rw [heq]

/-- What is appended are the conversions of the blocks. -/
theorem convertBlocks_of_appends {cStr dest : List β} {szSrc : List α}
    (h : Appends (fun hasRoom => concatN nThisLen convert hasRoom cStr (some szSrc) szSrc.length)
      cStr dest) :
    convertBlocks nThisLen convert szSrc.length szSrc = dest := by
  obtain ⟨happends, hres⟩ := h
  have heq := happends _ hres
  dsimp only at hres heq
  rw [concatN_eq] at hres heq
  rcases concatLoop_spec hpos (fun _ => true) cStr szSrc.length szSrc cStr (Nat.le_refl _)
    with hloop | hloop
  · rw [hloop] at heq
    exact List.append_cancel_left heq
  · rw [hloop] at hres
    cases hres

end Whole

section Text

variable {conv : Conversions} (hconv : conv.Standard)
include hconv

/-- **A well-formed wide text is converted as a whole.** -/
theorem appends_concatNNarrow (cStrA : List Byte) {s : List WChar} (hs : isWellFormed s = true) :
    Appends (fun hasRoom => concatNNarrow conv true hasRoom cStrA (some s) s.length) cStrA
      (conv.wideCharToMultiByte .utf8 s) := by
  rw [hconv.narrow s hs]
  refine appends_of_good blockW_pos (fun s => isWellFormed s = true) utf8Text rfl ?_ cStrA hs
  intro s hs hne
  have hfront := isWellFormed_take_blockW hs
  have hback : isWellFormed (s.drop (blockW s)) = true := by
    rw [← isWellFormed_append hfront, List.take_append_drop, hs]
  refine ⟨hback, ?_, ?_⟩
  · change conv.wideCharToMultiByte .utf8 _ ≠ []
    rw [hconv.narrow _ hfront, Ne, utf8Text_eq_nil_iff hfront, List.take_eq_nil_iff, not_or]
    exact ⟨Nat.pos_iff_ne_zero.mp (blockW_pos s hne), hne⟩
  · change _ = conv.wideCharToMultiByte .utf8 _ ++ _
    rw [hconv.narrow _ hfront, ← utf8Text_append_of_wellFormed hfront, List.take_append_drop]

/-- A well-formed narrow text. -/
theorem Conversions.Standard.text {s : List WChar} (hs : isWellFormed s = true) :
    conv.multiByteToWideChar .utf8 (utf8Text s) = s := by
  obtain ⟨m, n, heq, hm, hn⟩ := hconv.wide [] s [] isTail_nil hs isHead_nil
  obtain rfl : m = 0 := Nat.eq_zero_of_not_pos fun h => hm.mp h rfl
  obtain rfl : n = 0 := Nat.eq_zero_of_not_pos fun h => hn.mp h rfl
  simpa using heq

end Text

/-! ### The narrow text -/

/-- No block ends inside a character: the byte behind each of them, if there is one, is the
first of a character. -/
def BlocksEndBetween (szSrcA : List Byte) : Prop :=
  ∀ k, isTrail (charAt szSrcA (16384 * k)) = false

theorem charAt_drop (sA : List Byte) (n k : Nat) : charAt (sA.drop n) k = charAt sA (n + k) := by
  rw [charAt, charAt, List.getD_eq_getElem?_getD, List.getD_eq_getElem?_getD, List.getElem?_drop]

theorem isTrail_charAt_zero {s : List WChar} (hs : isWellFormed s = true) :
    isTrail (charAt (utf8Text s) 0) = false := by
  rw [charAt, List.getD_eq_getElem?_getD]
  cases hb : (utf8Text s)[0]? with
  | none => rfl
  | some b => exact isTrail_head_utf8Text hs b hb

theorem isTrail_charAt_tail {t : List Byte} (ht : IsTail t) (hne : t ≠ []) (rest : List Byte) :
    isTrail (charAt (t ++ rest) 0) = true := by
  cases t with
  | nil => exact absurd rfl hne
  | cons b t => exact ht.isTrail b List.mem_cons_self

theorem blocksEndBetween_nil : BlocksEndBetween [] := fun _ => rfl

/-- The blocks behind the first one. -/
theorem blocksEndBetween_iff {s : List WChar} (hs : isWellFormed s = true) :
    BlocksEndBetween (utf8Text s) ↔ BlocksEndBetween ((utf8Text s).drop 16384) := by
  constructor
  · intro h k
    rw [charAt_drop, show 16384 + 16384 * k = 16384 * (k + 1) by omega]
    exact h (k + 1)
  · intro h k
    cases k with
    | zero => exact isTrail_charAt_zero hs
    | succ k =>
      have hk := h k
      rwa [charAt_drop, show 16384 + 16384 * k = 16384 * (k + 1) by omega] at hk

theorem blockA_pos (szSrcA : List Byte) (h : szSrcA ≠ []) : 0 < blockA szSrcA := by
  have hlen := List.length_pos_of_ne_nil h
  rw [blockA]
  split <;> omega

theorem drop_blockA (szSrcA : List Byte) : szSrcA.drop (blockA szSrcA) = szSrcA.drop 16384 := by
  rw [blockA]
  split
  · rfl
  · rw [List.drop_length, List.drop_eq_nil_of_le (by omega)]

section Text

variable {conv : Conversions} (hconv : conv.Standard)
include hconv

/-- **A narrow text whose blocks end between characters is converted as a whole.** -/
theorem appends_concatNWide (cStrW : List WChar) {s : List WChar} (hs : isWellFormed s = true)
    (hbetween : BlocksEndBetween (utf8Text s)) :
    Appends (fun hasRoom =>
        concatNWide conv true hasRoom cStrW (some (utf8Text s)) (utf8Text s).length) cStrW
      (conv.multiByteToWideChar .utf8 (utf8Text s)) := by
  refine appends_of_good blockA_pos
    (fun b => ∃ s, isWellFormed s = true ∧ b = utf8Text s ∧ BlocksEndBetween b)
    (conv.multiByteToWideChar .utf8) (hconv.text (s := []) rfl) ?_ cStrW ⟨s, hs, rfl, hbetween⟩
  rintro _ ⟨s, hs, rfl, hbetween⟩ hne
  have hrest := (blocksEndBetween_iff hs).mp hbetween
  rw [← drop_blockA] at hrest
  change _ ∧ conv.multiByteToWideChar .utf8 _ ≠ [] ∧ _ = conv.multiByteToWideChar .utf8 _ ++ _
  cases exists_cut hs (blockA (utf8Text s)) with
  | between p r hp hr hsplit hfront hback =>
    rw [hback] at hrest ⊢
    rw [hfront, hconv.text hp, hconv.text hr, hconv.text hs]
    refine ⟨⟨r, hr, rfl, hrest⟩, fun hnil => ?_, hsplit⟩
    have hpos := blockA_pos _ hne
    rw [hnil, utf8Text, List.take_eq_nil_iff] at hfront
    exact hfront.elim (fun h => absurd h (Nat.pos_iff_ne_zero.mp hpos)) hne
  | inside p c r j _ hc hr _ hj hlt _ hback =>
    -- the byte behind the block is one inside a character
    have htrail := isTrail_charAt_tail ⟨c, j, hc, hj, rfl⟩
      (fun h => absurd (List.drop_eq_nil_iff.mp h) (Nat.not_le.mpr hlt)) (utf8Text r)
    rw [← hback] at htrail
    exact absurd htrail (by rw [hrest 0]; decide)

/-- What a block of a text is converted to, when it may begin inside a character: `c` is the
character that it ends in. -/
theorem exists_block {t : List Byte} (ht : IsTail t) {r : List WChar} (hr : isWellFormed r = true) :
    ∃ p c r' t' m n, isWellFormed r' = true ∧ IsTail t' ∧ r = p ++ (c ++ r') ∧
      (t ++ utf8Text r).drop (blockA (t ++ utf8Text r)) = t' ++ utf8Text r' ∧
      conv.multiByteToWideChar .utf8 ((t ++ utf8Text r).take (blockA (t ++ utf8Text r))) =
        List.replicate m 0xFFFD ++ p ++ List.replicate n 0xFFFD ∧ (0 < m ↔ t ≠ []) ∧
      (c = [] ∧ n = 0 ∧ t' = [] ∨ IsCharacter c ∧ 0 < n ∧ t' ≠ []) := by
  have hlen := ht.length_le
  obtain ⟨k, hk⟩ : ∃ k, blockA (t ++ utf8Text r) = t.length + k := by
    refine Nat.exists_eq_add_of_le ?_
    rw [blockA, List.length_append]
    split <;> omega
  rw [hk, List.take_length_add_append, List.drop_length_add_append]
  cases exists_cut hr k with
  | between p r' hp hr' hsplit hfront hback =>
    obtain ⟨m, n, heq, hm, hn⟩ := hconv.wide t p [] ht hp isHead_nil
    obtain rfl : n = 0 := Nat.eq_zero_of_not_pos fun h => hn.mp h rfl
    rw [List.append_nil] at heq
    exact ⟨p, [], r', [], m, 0, hr', isTail_nil, hsplit, hback, hfront ▸ heq, hm,
      .inl ⟨rfl, rfl, rfl⟩⟩
  | inside p c r' j hp hc hr' hsplit hj hlt hfront hback =>
    have hhead : (utf8Text c).take j ≠ [] := by
      rw [Ne, List.take_eq_nil_iff, not_or]
      exact ⟨Nat.pos_iff_ne_zero.mp hj, List.ne_nil_of_length_pos (Nat.zero_lt_of_lt hlt)⟩
    obtain ⟨m, n, heq, hm, hn⟩ := hconv.wide t p _ ht hp ⟨c, j, hc, hlt, rfl⟩
    rw [List.append_assoc, ← hfront] at heq
    exact ⟨p, c, r', (utf8Text c).drop j, m, n, hr', ⟨c, j, hc, hj, rfl⟩, hsplit, hback, heq, hm,
      .inr ⟨hc, hn.mpr hhead, fun h => absurd (List.drop_eq_nil_iff.mp h) (Nat.not_le.mpr hlt)⟩⟩

/-- No unit is gained for the characters: a part of one gives a unit at least. -/
theorem length_le_convertBlocks (fuel : Nat) : ∀ {t : List Byte} {r : List WChar}, IsTail t →
    isWellFormed r = true → (t ++ utf8Text r).length ≤ fuel →
    (if t = [] then 0 else 1) + r.length ≤
      (convertBlocks blockA (conv.multiByteToWideChar .utf8) fuel (t ++ utf8Text r)).length := by
  induction fuel with
  | zero =>
    intro t r _ hr hlen
    have hnil := List.eq_nil_of_length_eq_zero (Nat.le_zero.mp hlen)
    obtain ⟨rfl, htext⟩ := List.append_eq_nil_iff.mp hnil
    obtain rfl := (utf8Text_eq_nil_iff hr).mp htext
    exact Nat.zero_le _
  | succ fuel ih =>
    intro t r ht hr hlen
    by_cases hne : t ++ utf8Text r = []
    · obtain ⟨rfl, htext⟩ := List.append_eq_nil_iff.mp hne
      obtain rfl := (utf8Text_eq_nil_iff hr).mp htext
      exact Nat.zero_le _
    obtain ⟨p, c, r', t', m, n, hr', ht', hsplit, hback, hfront, hm, hend⟩ :=
      exists_block hconv ht hr
    have hblock := blockA_pos _ hne
    have hrest := ih ht' hr' (by rw [← hback, List.length_drop]; omega)
    rw [convertBlocks_of_ne_nil hne, hback, hfront, hsplit]
    simp only [List.length_append, List.length_replicate]
    have hfirst : (if t = [] then 0 else 1) ≤ m := by
      split
      · exact Nat.zero_le m
      · exact hm.mpr ‹_›
    rcases hend with ⟨rfl, rfl, rfl⟩ | ⟨hc, hn, hne'⟩
    · rw [if_pos rfl] at hrest
      simp only [List.length_nil]
      omega
    · have hc2 := hc.length_le
      rw [if_neg hne'] at hrest
      omega

/-- **A narrow text that is converted as a whole is cut between characters only.** -/
theorem blocksEndBetween_of_convertBlocks (fuel : Nat) : ∀ {r : List WChar},
    isWellFormed r = true → (utf8Text r).length ≤ fuel →
    convertBlocks blockA (conv.multiByteToWideChar .utf8) fuel (utf8Text r) = r →
    BlocksEndBetween (utf8Text r) := by
  induction fuel with
  | zero =>
    intro r _ hlen _
    rw [List.eq_nil_of_length_eq_zero (Nat.le_zero.mp hlen)]
    exact blocksEndBetween_nil
  | succ fuel ih =>
    intro r hr hlen heq
    by_cases hne : utf8Text r = []
    · rw [hne]
      exact blocksEndBetween_nil
    obtain ⟨p, c, r', t', m, n, hr', ht', hsplit, hback, hfront, hm, hend⟩ :=
      exists_block hconv isTail_nil hr
    rw [List.nil_append] at hback hfront
    obtain rfl : m = 0 := Nat.eq_zero_of_not_pos fun h => hm.mp h rfl
    have hblock := blockA_pos _ hne
    have hshort : (t' ++ utf8Text r').length ≤ fuel := by
      rw [← hback, List.length_drop]
      omega
    have hsame : List.replicate n 0xFFFD ++
        convertBlocks blockA (conv.multiByteToWideChar .utf8) fuel (t' ++ utf8Text r') =
          c ++ r' := by
      rw [convertBlocks_of_ne_nil hne, hback, hfront, List.replicate_zero, List.nil_append,
        List.append_assoc] at heq
      exact List.append_cancel_left (heq.trans hsplit)
    rcases hend with ⟨rfl, rfl, rfl⟩ | ⟨hc, hn, hne'⟩
    · rw [List.replicate_zero, List.nil_append, List.nil_append] at hsame
      rw [List.nil_append] at hback hshort
      rw [blocksEndBetween_iff hr, ← drop_blockA, hback]
      exact ih hr' hshort hsame
    · -- both parts of `c` are there, and the first one as U+FFFD
      exfalso
      have hrest := length_le_convertBlocks hconv fuel ht' hr' hshort
      rw [if_neg hne'] at hrest
      have hlength := congrArg List.length hsame
      rw [List.length_append, List.length_append, List.length_replicate] at hlength
      obtain ⟨n, rfl⟩ := Nat.exists_eq_add_of_lt hn
      cases c with
      | nil => exact hc.ne_nil rfl
      | cons u c =>
        rw [Nat.zero_add, List.replicate_succ, List.cons_append, List.cons_append,
          List.cons.injEq] at hsame
        rw [← hsame.1] at hc
        rw [hc.length_of_head] at hlength
        simp only [List.length_cons, List.length_nil] at hlength
        omega

end Text

/-! ### Blocks and the whole -/

/-- Either function appends the conversion of the whole text, given as `utf8Text s` to the one
and as `s` to the other. -/
def ConvertsWhole (conv : Conversions) (cStrW : List WChar) (cStrA : List Byte) (s : List WChar) :
    Prop :=
  Appends (fun hasRoom =>
      concatNWide conv true hasRoom cStrW (some (utf8Text s)) (utf8Text s).length) cStrW
    (conv.multiByteToWideChar .utf8 (utf8Text s)) ∧
  Appends (fun hasRoom => concatNNarrow conv true hasRoom cStrA (some s) s.length) cStrA
    (conv.wideCharToMultiByte .utf8 s)

theorem ConvertsWhole.blocksEndBetween {conv : Conversions} (hconv : conv.Standard)
    {cStrW : List WChar} {cStrA : List Byte} {s : List WChar} (hs : isWellFormed s = true)
    (h : ConvertsWhole conv cStrW cStrA s) : BlocksEndBetween (utf8Text s) := by
  have heq := convertBlocks_of_appends blockA_pos h.1
  rw [hconv.text hs] at heq
  exact blocksEndBetween_of_convertBlocks hconv _ hs (Nat.le_refl _) heq

/-- **A well-formed text is converted in blocks as it is at once if and only if no character
of its narrow form lies across the end of a block.** -/
theorem convertsWhole_iff {conv : Conversions} (hconv : conv.Standard) (cStrW : List WChar)
    (cStrA : List Byte) {s : List WChar} (hs : isWellFormed s = true) :
    ConvertsWhole conv cStrW cStrA s ↔ BlocksEndBetween (utf8Text s) :=
  ⟨ConvertsWhole.blocksEndBetween hconv hs,
    fun h => ⟨appends_concatNWide hconv cStrW hs h, appends_concatNNarrow hconv cStrA hs⟩⟩

/-- The decoder that writes U+FFFD, for either code page. -/
def replacing : Conversions := ⟨fun _ => decodeText, fun _ => utf8Text⟩

theorem standard_replacing : replacing.Standard where
  narrow := fun _ _ => rfl
  wide := by
    intro t s h ht hs hh
    refine ⟨t.length, if h = [] then 0 else 1, ?_, List.length_pos_iff, ?_⟩
    · change decodeText _ = _
      rw [List.append_assoc, decodeText_trail ht.isTrail, decodeText_append hs, decodeText_head hh,
        List.append_assoc]
      split
      · rfl
      · rfl
    · split
      · exact iff_of_false (Nat.lt_irrefl 0) (fun hne => hne ‹_›)
      · exact iff_of_true Nat.zero_lt_one ‹_›

/-- A text of two characters. -/
theorem convertsWhole_short : ConvertsWhole replacing [] [] [0x61, 0xE9] := by
  refine (convertsWhole_iff standard_replacing [] [] rfl).mpr fun k => ?_
  cases k with
  | zero => rfl
  | succ k =>
    have hbehind : 16384 ≤ 16384 * (k + 1) := Nat.le_mul_of_pos_right _ k.succ_pos
    rw [charAt_of_length_le (Nat.le_trans (by decide : _ ≤ 16384) hbehind)]
    rfl

/-- A character of two bytes behind 16383 letters. -/
theorem not_convertsWhole : isWellFormed (List.replicate 16383 0x61 ++ [0xE9]) = true ∧
    ¬ ConvertsWhole replacing [] [] (List.replicate 16383 0x61 ++ [0xE9]) := by
  have hletters : ∀ n, isWellFormed (List.replicate n 0x61) = true ∧
      utf8Text (List.replicate n 0x61) = List.replicate n 0x61 := by
    intro n
    induction n with
    | zero => exact ⟨rfl, rfl⟩
    | succ n ih =>
      rw [List.replicate_succ, isWellFormed_single rfl, utf8Text_single rfl, ih.1, ih.2]
      exact ⟨rfl, rfl⟩
  have hs : isWellFormed (List.replicate 16383 0x61 ++ [0xE9]) = true := by
    rw [isWellFormed_append (hletters 16383).1]
    rfl
  refine ⟨hs, fun h => ?_⟩
  have hbyte := h.blocksEndBetween standard_replacing hs 1
  have hlen : (List.replicate 16383 (0x61 : Byte)).length = 16383 := List.length_replicate
  have hget := charAt_append_add (List.replicate 16383 0x61) (utf8Text [0xE9]) 1
  rw [utf8Text_append_of_wellFormed (hletters 16383).1, (hletters 16383).2] at hbyte
  rw [hlen] at hget
  rw [hget] at hbyte
  exact absurd hbyte (by decide)

end MxLib
