import MxLib.Strings.CString

/-!
# Strings are lists of characters

The buffer of a string after any calls (`run_holds`).  Every call that writes goes through
`EnsureBuffer`, which leaves room for what the call is about to write (`ensureBuffer_spec`), and
ends with the zero behind the last character (`holds_write`).
-/

namespace MxLib.Buffer

open MxLib.Library

variable {α : Type} [OfNat α 0]

/-- The string holds the characters of `l`. -/
structure CString.Holds (s : CString α) (l : List α) : Prop where
  nLen : s.nLen = l.length
  null : s.szStr = none → l = []
  size : s.nSize = (s.szStr.getD []).length
  fits : s.szStr ≠ none → s.nLen < s.nSize
  chars : ∀ block, s.szStr = some block → block.take s.nLen = l.map some
  terminator : ∀ block, s.szStr = some block → block[s.nLen]? = some (some 0)

namespace CString

variable {s : CString α} {l l' : List α} {kind : CharKind} {block : List (Option α)}

theorem holds_empty : (empty : CString α).Holds [] where
  nLen := rfl
  null _ := rfl
  size := rfl
  fits h := absurd rfl h
  chars _ h := nomatch h
  terminator _ h := nomatch h

theorem cells_eq (kind : CharKind) {n : Nat} (h : n < 2 ^ 62) : kind.cells n = n := by
  unfold CharKind.cells CharKind.size
  cases kind with
  | ansi => simp only; omega
  | wide => simp only; omega

theorem align_spec {x : Nat} (h : x < 2 ^ 61) : x ≤ align x ∧ align x < 2 ^ 62 := by
  unfold align
  omega

/-- The characters are in place, and the zero is written behind them. -/
theorem holds_write {nSize : Nat} (hsize : block.length = nSize) (hlen : l.length < nSize)
    (hchars : block.take l.length = l.map some) :
    ∃ block', Blocks.write block l.length [some 0] = some block' ∧
      (⟨some block', nSize, l.length⟩ : CString α).Holds l := by
  obtain ⟨block', hwrite, hsame, htake, -⟩ := Blocks.exists_write block l.length
    [some (0 : α)] (by rw [hsize]; exact hlen)
  refine ⟨block', hwrite, ?_⟩
  constructor
  case nLen => rfl
  case null => exact fun h => nomatch h
  case size => exact (hsame.trans hsize).symm
  case fits => exact fun _ => hlen
  case chars =>
    intro b hb
    obtain rfl := Option.some.inj hb
    rw [Blocks.take_of_write hwrite (Nat.le_refl _)]
    exact hchars
  case terminator =>
    intro b hb
    obtain rfl := Option.some.inj hb
    have hlast : block'.take (l.length + 1) = l.map some ++ [some 0] := by
      rw [← hchars]
      exact htake
    have hget : (block'.take (l.length + 1))[l.length]? = some (some 0) := by
      rw [hlast, List.getElem?_append_right (by simp)]
      simp
    rwa [List.getElem?_take_of_lt (by omega)] at hget

theorem readFront_eq (hs : s.Holds l) : readFront s.szStr l.length = some (l.map some) := by
  cases hblock : s.szStr with
  | none =>
      rw [hs.null hblock]
      rfl
  | some block =>
      have hfits := hs.fits (by rw [hblock]; exact nofun)
      have hsize := hs.size
      rw [hblock, Option.getD_some] at hsize
      have hlen := hs.nLen
      rw [readFront, Blocks.read_eq (by omega), List.drop_zero, ← hlen, hs.chars block hblock]

theorem Holds.length_lt (hs : s.Holds l) (h : 0 < s.nSize) : l.length < s.nSize := by
  rw [← hs.nLen]
  apply hs.fits
  intro hnull
  have hsize := hs.size
  rw [hnull] at hsize
  exact absurd hsize (Nat.ne_of_gt h)

/-- `EnsureBuffer` leaves the characters alone, and there is a buffer with room then. -/
theorem ensureBuffer_spec (kind : CharKind) (hs : s.Holds l) (nChars : Nat)
    (hl : l.length < 2 ^ 60) (hn : nChars < 2 ^ 60 + 2) :
    ∃ s' block, s.ensureBuffer kind nChars true = some (true, s') ∧ s'.Holds l ∧
      s'.szStr = some block ∧ nChars < block.length := by
  have hwrap : (nChars + 1) % 2 ^ 64 = nChars + 1 := Nat.mod_eq_of_lt (by omega)
  unfold ensureBuffer
  simp only [hwrap, if_true]
  by_cases hgrow : nChars + 1 ≥ s.nSize
  · rw [if_pos hgrow]
    generalize hcap : (if s.nSize > 0 then align (nChars + 1) else nChars + 1) = nCap
    obtain ⟨hroom, hsmall, hfits⟩ : nChars + 1 ≤ nCap ∧ nCap < 2 ^ 62 ∧ l.length < nCap := by
      obtain ⟨hle, hlt⟩ := align_spec (x := nChars + 1) (by omega)
      split at hcap
      · next hpos =>
        have hlen := hs.length_lt hpos
        omega
      · next hzero =>
        have hlen : s.szStr = none → l = [] := hs.null
        have hfit := hs.fits
        have hnull : s.szStr = none := by
          by_contra hne
          have := hfit hne
          omega
        rw [hlen hnull]
        simp
        omega
    obtain ⟨block₁, hcopy, hsame, hfront, -⟩ := Blocks.exists_write
      (malloc α nCap) 0 (l.map some) (by simp [malloc]; omega)
    have hchars : block₁.take l.length = l.map some := by simpa using hfront
    have hsize : block₁.length = nCap := by simpa [malloc] using hsame
    obtain ⟨block₂, hzero, hholds⟩ := holds_write hsize hfits hchars
    refine ⟨⟨some block₂, nCap, l.length⟩, block₂, ?_, hholds, rfl, ?_⟩
    · rw [cells_eq kind hsmall, hs.nLen, cells_eq kind (by omega), readFront_eq hs]
      simp only [Option.bind_eq_bind, Option.bind_some, hcopy, hzero]
    · have hlen := hholds.size
      simp only [Option.getD_some] at hlen
      omega
  · rw [if_neg hgrow]
    cases hblock : s.szStr with
    | none =>
        have hsize := hs.size
        rw [hblock] at hsize
        exact absurd hsize (by simp; omega)
    | some block =>
        have hsize := hs.size
        rw [hblock, Option.getD_some] at hsize
        exact ⟨s, block, rfl, hs, hblock, by omega⟩

omit [OfNat α 0] in
/-- The characters that a call takes from its source. -/
theorem read_source (kind : CharKind) {src : List α} {nSrcLen : Nat} (hsrc : nSrcLen ≤ src.length)
    (hn : nSrcLen < 2 ^ 60) :
    Blocks.read src 0 (kind.cells nSrcLen) = some (taken (some src) nSrcLen) := by
  rw [cells_eq kind (by omega), Blocks.read_eq (by omega)]
  rfl

/-- What `ConcatN` and `InsertN` do first: the buffer then has room for the characters to come and
the zero. -/
theorem exists_room (kind : CharKind) (hs : s.Holds l) {nSrcLen : Nat}
    (hn : l.length + nSrcLen < 2 ^ 60) :
    ¬ (s.nLen + nSrcLen + 1) % 2 ^ 64 < s.nLen ∧
      ∃ s' block, s.ensureBuffer kind ((s.nLen + nSrcLen + 1) % 2 ^ 64) true = some (true, s') ∧
        s'.Holds l ∧ s'.szStr = some block ∧ s'.nSize = block.length ∧ s'.nLen = l.length ∧
        l.length + nSrcLen + 1 < block.length := by
  have hwrap : (s.nLen + nSrcLen + 1) % 2 ^ 64 = l.length + nSrcLen + 1 := by
    rw [hs.nLen]
    exact Nat.mod_eq_of_lt (by omega)
  obtain ⟨s', block, hensure, hs', hblock, hroom⟩ :=
    ensureBuffer_spec kind hs (l.length + nSrcLen + 1) (by omega) (by omega)
  have hsize := hs'.size
  rw [hblock, Option.getD_some] at hsize
  rw [hwrap]
  refine ⟨?_, s', block, hensure, hs', hblock, hsize, hs'.nLen, hroom⟩
  rw [hs.nLen]
  omega

theorem concatN_spec (kind : CharKind) (hs : s.Holds l) {szSrc : Option (List α)} {nSrcLen : Nat}
    (hvalid : (Op.concatN szSrc nSrcLen).Valid l) :
    ∃ s', s.concatN kind szSrc nSrcLen true = some ((Op.concatN szSrc nSrcLen).result, s') ∧
      s'.Holds ((Op.concatN szSrc nSrcLen).apply l) := by
  obtain ⟨hn, hsrc⟩ := hvalid
  unfold concatN
  by_cases hzero : nSrcLen = 0
  · rw [if_pos hzero]
    subst hzero
    refine ⟨s, rfl, ?_⟩
    simpa [Op.apply, insertStr, taken] using hs
  rw [if_neg hzero]
  cases szSrc with
  | none =>
      refine ⟨s, by simp [Op.result, hzero], ?_⟩
      simpa [Op.apply, insertStr, taken] using hs
  | some src =>
      have hsrc' := hsrc src rfl
      have hread := read_source kind hsrc' (show nSrcLen < 2 ^ 60 by omega)
      obtain ⟨hno, s₁, block, hensure, hs₁, hblock, hsize₁, hlen₁, hroom⟩ :=
        exists_room kind hs hn
      have hwrap : (l.length + nSrcLen) % 2 ^ 64 = l.length + nSrcLen :=
        Nat.mod_eq_of_lt (by omega)
      generalize hch : taken (some src) nSrcLen = chars at hread
      have htaken : chars.length = nSrcLen := by
        rw [← hch]
        simp [taken]
        omega
      obtain ⟨block', hwrite, hsame, hfront, -⟩ := Blocks.exists_write block l.length
        (chars.map some) (by rw [List.length_map]; omega)
      have hchars : block'.take (l ++ chars).length = (l ++ chars).map some := by
        rw [List.length_map] at hfront
        rw [List.length_append, hfront, List.map_append, ← hs₁.chars block hblock, hlen₁]
      obtain ⟨block'', hend, hholds⟩ := holds_write
        (hsame.trans hsize₁.symm) (by rw [List.length_append]; omega) hchars
      rw [List.length_append, htaken] at hend hholds
      refine ⟨⟨some block'', s₁.nSize, l.length + nSrcLen⟩, ?_, ?_⟩
      · dsimp only
        rw [if_neg hno, hensure]
        simp only [hblock, hlen₁, hwrap, Option.bind_eq_bind, Option.bind_some, hread, hwrite, hend]
        simp [Op.result]
      · rw [Op.apply, hch]
        exact hholds

theorem insertN_spec (kind : CharKind) (hs : s.Holds l) {szSrc : Option (List α)}
    {nInsertPosition nSrcLen : Nat} (hvalid : (Op.insertN szSrc nInsertPosition nSrcLen).Valid l) :
    ∃ s', s.insertN kind szSrc nInsertPosition nSrcLen true =
        some ((Op.insertN szSrc nInsertPosition nSrcLen).result, s') ∧
      s'.Holds ((Op.insertN szSrc nInsertPosition nSrcLen).apply l) := by
  obtain ⟨hn, hsrc⟩ := hvalid
  unfold insertN
  by_cases hzero : nSrcLen = 0
  · rw [if_pos hzero]
    subst hzero
    refine ⟨s, rfl, ?_⟩
    simpa [Op.apply, insertStr, taken] using hs
  rw [if_neg hzero]
  cases szSrc with
  | none =>
      refine ⟨s, by simp [Op.result, hzero], ?_⟩
      simpa [Op.apply, insertStr, taken] using hs
  | some src =>
      have hsrc' := hsrc src rfl
      have hread := read_source kind hsrc' (show nSrcLen < 2 ^ 60 by omega)
      obtain ⟨hno, s₁, block, hensure, hs₁, hblock, hsize₁, hlen₁, hroom⟩ :=
        exists_room kind hs hn
      have hwrap : (l.length + nSrcLen) % 2 ^ 64 = l.length + nSrcLen :=
        Nat.mod_eq_of_lt (by omega)
      generalize hch : taken (some src) nSrcLen = chars at hread
      have htaken : chars.length = nSrcLen := by
        rw [← hch]
        simp [taken]
        omega
      -- a position behind the end is the end
      generalize hpos : (if nInsertPosition > l.length then l.length else nInsertPosition) = pos
      obtain ⟨hle, htake, hdrop⟩ : pos ≤ l.length ∧ l.take nInsertPosition = l.take pos ∧
          l.drop nInsertPosition = l.drop pos := by
        split at hpos
        · next hbig =>
          subst hpos
          refine ⟨Nat.le_refl _, ?_, ?_⟩
          · rw [List.take_of_length_le (by omega), List.take_of_length_le (Nat.le_refl _)]
          · rw [List.drop_eq_nil_of_le (by omega), List.drop_eq_nil_of_le (Nat.le_refl _)]
        · subst hpos
          exact ⟨by omega, rfl, rfl⟩
      have hfront := hs₁.chars block hblock
      rw [hlen₁] at hfront
      obtain ⟨block₁, hmove, hsame₁, hmoved, -, hkeep₁⟩ := Blocks.exists_move block (pos + nSrcLen)
        pos (l.length - pos) (by omega) (by omega)
      obtain ⟨block₂, hwrite, hsame₂, hput, hkeep₂⟩ := Blocks.exists_write block₁ pos
        (chars.map some) (by rw [List.length_map]; omega)
      rw [List.length_map, htaken] at hput hkeep₂
      generalize hl' : l.take pos ++ chars ++ l.drop pos = l'
      have hlen' : l'.length = l.length + nSrcLen := by
        rw [← hl']
        simp
        omega
      have hback : (block₁.drop (pos + nSrcLen)).take (l.length - pos) = (l.drop pos).map some := by
        rw [Blocks.drop_take_of hmoved (by rw [List.length_take]; omega), ← List.drop_take, hfront,
          List.map_drop]
      have hchars : block₂.take l'.length = l'.map some := by
        calc block₂.take l'.length
            = block₂.take (pos + nSrcLen) ++
                (block₂.drop (pos + nSrcLen)).take (l.length - pos) := by
              rw [← List.take_add, hlen']
              congr 1
              omega
          _ = (block.take pos ++ chars.map some) ++ (l.drop pos).map some := by
              rw [hput, hkeep₁ pos (by omega), hkeep₂, hback]
          _ = ((l.map some).take pos ++ chars.map some) ++ (l.drop pos).map some := by
              rw [← hfront, List.take_take, Nat.min_eq_left hle]
          _ = l'.map some := by
              rw [← List.map_take, ← List.map_append, ← List.map_append, hl']
      obtain ⟨block₃, hend, hholds⟩ := holds_write
        (hsame₂.trans (hsame₁.trans hsize₁.symm)) (by omega) hchars
      rw [hlen'] at hend hholds
      refine ⟨⟨some block₃, s₁.nSize, l.length + nSrcLen⟩, ?_, ?_⟩
      · dsimp only
        rw [if_neg hno, hensure]
        simp only [hblock, hlen₁, hwrap, hpos, Option.bind_eq_bind, Option.bind_some, hread,
          cells_eq kind (show l.length - pos < 2 ^ 62 by omega), hmove, hwrite, hend]
        simp [Op.result]
      · rw [Op.apply, insertStr, hch, htake, hdrop, hl']
        exact hholds

theorem delete_spec (kind : CharKind) (hs : s.Holds l) (hl : l.length < 2 ^ 60)
    {nStartChar nChars : Nat} (hvalid : (Op.delete nStartChar nChars).Valid l) :
    ∃ s', s.delete kind nStartChar nChars = some s' ∧
      s'.Holds ((Op.delete nStartChar nChars).apply l) := by
  obtain ⟨hstart, hchars⟩ := hvalid
  unfold delete
  rw [hs.nLen]
  by_cases hempty : l.length > 0
  swap
  · have hnil : l = [] := List.length_eq_zero_iff.mp (by omega)
    subst hnil
    exact ⟨s, if_neg hempty, by simpa [Op.apply, deleteStr] using hs⟩
  rw [if_pos hempty]
  by_cases houtside : isOutside kind nStartChar l.length = true
  · have hge : l.length ≤ nStartChar := by
      cases kind with
      | ansi => simpa [isOutside] using houtside
      | wide => exact Nat.le_of_lt (by simpa [isOutside] using houtside)
    refine ⟨s, if_pos houtside, ?_⟩
    rw [Op.apply, deleteStr, List.take_of_length_le hge, List.drop_eq_nil_of_le (by omega),
      List.append_nil]
    exact hs
  have hinside : nStartChar ≤ l.length := by
    cases kind with
    | ansi =>
        have hlt : nStartChar < l.length := by simpa [isOutside] using houtside
        omega
    | wide => simpa [isOutside] using houtside
  rw [if_neg houtside]
  -- a count that goes past the end, or wraps, stops at the end
  generalize hcount : (if (nStartChar + nChars) % 2 ^ 64 > l.length ∨
    (nStartChar + nChars) % 2 ^ 64 < nStartChar then l.length - nStartChar else nChars) = c
  obtain ⟨hend, hdrop⟩ : nStartChar + c ≤ l.length ∧
      l.drop (nStartChar + nChars) = l.drop (nStartChar + c) := by
    split at hcount
    · next hpast =>
      subst hcount
      refine ⟨by omega, ?_⟩
      rw [List.drop_eq_nil_of_le (by omega), List.drop_eq_nil_of_le (by omega)]
    · subst hcount
      exact ⟨by omega, rfl⟩
  have hblock : ∃ block, s.szStr = some block := by
    cases hstr : s.szStr with
    | none => simp [hs.null hstr] at hempty
    | some block => exact ⟨block, rfl⟩
  obtain ⟨block, hblock⟩ := hblock
  have hsize := hs.size
  rw [hblock, Option.getD_some] at hsize
  have hfits := hs.fits (by rw [hblock]; exact Option.some_ne_none block)
  have hfront := hs.chars block hblock
  have hlen := hs.nLen
  rw [hlen] at hfits hfront
  obtain ⟨block₁, hmove, hsame, hmoved, -⟩ := Blocks.exists_move block nStartChar
    (nStartChar + c) (l.length - c - nStartChar) (by omega) (by omega)
  generalize hl' : l.take nStartChar ++ l.drop (nStartChar + c) = l'
  have hlen' : l'.length = l.length - c := by
    rw [← hl']
    simp
    omega
  have hback : (block.drop (nStartChar + c)).take (l.length - c - nStartChar) =
      (l.map some).drop (nStartChar + c) := by
    rw [← hfront, List.drop_take]
    congr 1
    omega
  have hchars' : block₁.take l'.length = l'.map some := by
    rw [hlen', show l.length - c = nStartChar + (l.length - c - nStartChar) by omega, hmoved, hback,
      ← hl', List.map_append, List.map_take, List.map_drop, ← hfront, List.take_take,
      Nat.min_eq_left hinside]
  obtain ⟨block₂, hzero, hholds⟩ := holds_write
    (hsame.trans hsize.symm) (by omega) hchars'
  rw [hlen'] at hzero hholds
  refine ⟨⟨some block₂, s.nSize, l.length - c⟩, ?_, ?_⟩
  · simp only [hblock, Option.bind_eq_bind, Option.bind_some,
      cells_eq kind (show l.length - c - nStartChar < 2 ^ 62 by omega), hmove, hzero]
  · rw [Op.apply, deleteStr, hdrop, hl']
    exact hholds

/-- Every call does to the string what it means for its characters. -/
theorem call_spec (kind : CharKind) (hs : s.Holds l) (hl : l.length < 2 ^ 60) {op : Op α}
    (hvalid : op.Valid l) :
    ∃ s', s.call kind op = some (op.result, s') ∧ s'.Holds (op.apply l) := by
  cases op with
  | copyN szSrc nSrcLen =>
      have hcopy : (Op.concatN szSrc nSrcLen).Valid ([] : List α) := by
        simpa [Op.Valid] using hvalid
      obtain ⟨s', hrun, hs'⟩ := concatN_spec kind holds_empty hcopy
      exact ⟨s', hrun, hs'⟩
  | concatN szSrc nSrcLen => exact concatN_spec kind hs hvalid
  | insertN szSrc nInsertPosition nSrcLen => exact insertN_spec kind hs hvalid
  | delete nStartChar nChars =>
      obtain ⟨s', hrun, hs'⟩ := delete_spec kind hs hl hvalid
      refine ⟨s', ?_, hs'⟩
      rw [call, hrun]
      rfl
  | empty => exact ⟨empty, rfl, holds_empty⟩
  | ensureBuffer nChars =>
      have hn : nChars < 2 ^ 60 := hvalid
      obtain ⟨s', block, hrun, hs', -⟩ := ensureBuffer_spec kind hs nChars hl (by omega)
      exact ⟨s', hrun, hs'⟩

omit [OfNat α 0] in
/-- Lengths stay below the bound. -/
theorem apply_length {op : Op α} (hl : l.length < 2 ^ 60) (hvalid : op.Valid l) :
    (op.apply l).length < 2 ^ 60 := by
  have htaken : ∀ (szSrc : Option (List α)) n, (taken szSrc n).length ≤ n := by
    intro szSrc n
    exact List.length_take_le _ _
  cases op with
  | copyN szSrc nSrcLen => exact Nat.lt_of_le_of_lt (htaken szSrc nSrcLen) hvalid.1
  | concatN szSrc nSrcLen =>
      have hn := hvalid.1
      have hlen := htaken szSrc nSrcLen
      rw [Op.apply, List.length_append]
      omega
  | insertN szSrc nInsertPosition nSrcLen =>
      have hn := hvalid.1
      have hlen := htaken szSrc nSrcLen
      rw [Op.apply, insertStr, List.length_append, List.length_append, List.length_take,
        List.length_drop]
      omega
  | delete nStartChar nChars =>
      rw [Op.apply, deleteStr, List.length_append, List.length_take, List.length_drop]
      omega
  | empty => exact Nat.two_pow_pos 60
  | ensureBuffer nChars => exact hl

/-- The calls from a string that holds `l`. -/
theorem Holds.run (kind : CharKind) {ops : List (Op α)} : ∀ {s : CString α} {l : List α},
    s.Holds l → l.length < 2 ^ 60 → Valid l ops →
      ∃ s', s.run kind ops = some (ops.map Op.result, s') ∧
        s'.Holds (ops.foldl (fun l op => op.apply l) l) := by
  induction ops with
  | nil => intro s l hs _ _; exact ⟨s, rfl, hs⟩
  | cons op ops ih =>
      intro s l hs hl hvalid
      obtain ⟨s₁, hcall, hs₁⟩ := call_spec kind hs hl hvalid.1
      obtain ⟨s₂, hrun, hs₂⟩ := ih hs₁ (apply_length hl hvalid.1) hvalid.2
      refine ⟨s₂, ?_, hs₂⟩
      rw [CString.run, hcall]
      simp only [Option.bind_eq_bind, Option.bind_some, hrun, List.map_cons]

/-- **Strings are lists of characters.**  After any calls on a new string its buffer holds the
characters of the list that the calls make, and no copy has left a block. -/
theorem run_holds (kind : CharKind) (ops : List (Op α)) (hvalid : Valid [] ops) :
    ∃ s, (empty : CString α).run kind ops = some (ops.map Op.result, s) ∧
      s.Holds (ops.foldl (fun l op => op.apply l) []) :=
  holds_empty.run kind (Nat.two_pow_pos 60) hvalid

/-- A text is copied, two characters are put into it, and the greatest count is deleted. -/
theorem run_holds_wide : ∃ s, (empty : CString WChar).run .wide
      [.copyN (some [0x61, 0x62, 0x63]) 3, .insertN (some [0x64, 0x65]) 2 2,
        .delete 1 (2 ^ 64 - 1), .concatN none 5] = some ([true, true, true, false], s) ∧
    s.Holds [0x61] :=
  run_holds .wide [.copyN (some [0x61, 0x62, 0x63]) 3, .insertN (some [0x64, 0x65]) 2 2,
    .delete 1 (2 ^ 64 - 1), .concatN none 5]
    (by simp [Valid, Op.Valid, Op.apply, insertStr, deleteStr, taken])

end CString

end MxLib.Buffer
