import MxLib.Http.Url
import MxLib.Library.Segments

/-!
# Normalized and reduced paths

What `NormalizePath` and `ReducePath` do with a path, said at once and not turn by
turn: `normalizePath_eq` for the first, `reduceLoop_eq` for the second.  Both work
on the text of a path up to its first zero, `p` below, and leave what follows it,
`t`, alone.

A normalized path begins with a drive, with a server, or with neither of them
(`normalizeText_cases`), and normalizing it once more does nothing.
-/

namespace MxLib.Http

open MxLib.Library MxLib.Library.Segments

/-- A text without zeros and backslashes. -/
def IsText (l : List WChar) : Prop := (0 : WChar) ∉ l ∧ backslashW ∉ l

/-! ### Characters of a path -/

def toSlash (chW : WChar) : WChar := if chW == backslashW then slashW else chW

theorem convertBackslashes_append {p t : List WChar} (hp : (0 : WChar) ∉ p) (ht : charAt t 0 = 0) :
    convertBackslashes (p ++ t) = p.map toSlash ++ t := by
  induction p with
  | nil =>
    cases t with
    | nil => rfl
    | cons ch t =>
      have hch : ch = 0 := ht
      simp [convertBackslashes, hch]
  | cons ch p ih =>
    obtain ⟨hch, hp⟩ := not_or.mp (List.mem_cons.not.mp hp)
    rw [List.cons_append, convertBackslashes, if_neg (by simpa using Ne.symm hch), ih hp]
    rfl

theorem isText_map_toSlash {p : List WChar} (hp : (0 : WChar) ∉ p) : IsText (p.map toSlash) := by
  constructor
  · intro h
    obtain ⟨ch, hch, hzero⟩ := List.mem_map.mp h
    rw [toSlash] at hzero
    split at hzero
    · cases hzero
    · exact hp (hzero ▸ hch)
  · intro h
    obtain ⟨ch, hch, hback⟩ := List.mem_map.mp h
    rw [toSlash] at hback
    split at hback
    · cases hback
    · rename_i hne
      exact hne (by simp [hback])

theorem map_toSlash {l : List WChar} (h : IsText l) : l.map toSlash = l := by
  conv_rhs => rw [← List.map_id l]
  refine List.map_congr_left fun ch hch => ?_
  rw [toSlash, if_neg]
  · rfl
  · rw [beq_iff_eq]
    rintro rfl
    exact h.2 hch

theorem charAt_head {l t : List WChar} (ht : charAt t 0 = 0) :
    charAt (l ++ t) 0 = slashW ↔ l.head? = some slashW := by
  cases l with
  | nil =>
    rw [List.nil_append, ht]
    exact ⟨fun h => absurd h (by decide), fun h => nomatch h⟩
  | cons ch l =>
    rw [List.cons_append, charAt_cons_zero, List.head?_cons, Option.some.injEq]

theorem isDriveAt_append {l t : List WChar} (ht : charAt t 0 = 0) :
    isDriveAt (l ++ t) 0 = isDriveAt l 0 := by
  rw [isDriveAt, isDriveAt]
  cases l with
  | nil =>
    rw [List.nil_append, ht]
    rfl
  | cons ch l =>
    cases l with
    | nil => simp only [List.cons_append, List.nil_append, charAt_cons_zero, charAt_cons_succ, ht, charAt_nil]
    | cons ch' l => rfl

/-! ### Double slashes -/

theorem collapseTurn_measure (c c' : List WChar × Nat) (h : collapseTurn c = .inl c') :
    c'.1.length - c'.2 < c.1.length - c.2 := by
  obtain ⟨path, nOfs⟩ := c
  have hlt : charAt path nOfs ≠ 0 → nOfs < path.length := by
    intro hne
    by_contra hle
    exact hne (charAt_of_length_le (by omega))
  have hlt' : charAt path (nOfs + 1) ≠ 0 → nOfs + 1 < path.length := by
    intro hne
    by_contra hle
    exact hne (charAt_of_length_le (by omega))
  simp only [collapseTurn] at h
  split_ifs at h with hzero hslash
  · obtain rfl := Sum.inl.inj h
    simp only [Bool.and_eq_true, beq_iff_eq] at hslash
    have := hlt' (by rw [hslash.2]; decide)
    simp only [deleteStr, List.length_append, List.length_take, List.length_drop]
    omega
  · obtain rfl := Sum.inl.inj h
    have := hlt (by simpa using hzero)
    simp only
    omega

/-- **The loop leaves single slashes** from the index on. -/
theorem exec_collapse {t : List WChar} (ht : charAt t 0 = 0) (dflt : List WChar) (l : List WChar) :
    ∀ pre, (0 : WChar) ∉ l →
    Loop.exec collapseTurn (fun c => c.1.length - c.2) dflt (pre ++ (l ++ t), pre.length) =
      pre ++ (collapse slashW l ++ t) := by
  induction l with
  | nil =>
    intro pre _
    refine Loop.exec_inr dflt ?_
    rw [collapseTurn, charAt_append_length, List.nil_append, ht]
    rfl
  | cons ch l ih =>
    intro pre hl
    obtain ⟨hch, hl⟩ := not_or.mp (List.mem_cons.not.mp hl)
    have hfirst : charAt (pre ++ (ch :: l ++ t)) pre.length = ch := charAt_append_length pre _
    have hsecond : charAt (pre ++ (ch :: l ++ t)) (pre.length + 1) = charAt (l ++ t) 0 :=
      charAt_append_add pre _ 1
    by_cases hslash : ch = slashW ∧ l.head? = some slashW
    · have hturn : collapseTurn (pre ++ (ch :: l ++ t), pre.length) =
          .inl (pre ++ (l ++ t), pre.length) := by
        rw [collapseTurn, hfirst, hsecond, if_neg (by simpa using Ne.symm hch),
          if_pos (by simpa [charAt_head ht] using hslash)]
        obtain ⟨rfl, hhead⟩ := hslash
        cases l with
        | nil => cases hhead
        | cons ch' l =>
          obtain rfl := Option.some.inj hhead
          have hdel := deleteStr_append (pre ++ [slashW]) (slashW :: l ++ t) 1
          rw [List.length_append, List.length_singleton, List.append_assoc, List.append_assoc] at hdel
          exact congrArg (fun path => Sum.inl (path, pre.length)) hdel
      rw [Loop.exec_inl collapseTurn_measure dflt hturn, ih pre hl, collapse, if_pos hslash]
    · have hturn : collapseTurn (pre ++ (ch :: l ++ t), pre.length) =
          .inl (pre ++ (ch :: l ++ t), pre.length + 1) := by
        rw [collapseTurn, hfirst, hsecond, if_neg (by simpa using Ne.symm hch),
          if_neg (by simpa [charAt_head ht] using hslash)]
      have hnext := ih (pre ++ [ch]) hl
      rw [List.length_append, List.length_singleton, List.append_assoc, List.append_assoc] at hnext
      rw [Loop.exec_inl collapseTurn_measure dflt hturn, collapse, if_neg hslash]
      exact hnext

/-! ### Normalized paths -/

/-- The text, behind a slash. -/
def behindSlash (l : List WChar) : List WChar :=
  if l.head? = some slashW then l else slashW :: l

/-- A path without the slashes at its beginning. -/
def pathBody (l : List WChar) : List WChar := l.dropWhile (· == slashW)

/-- The first name of a path, which is the server of a network path. -/
def firstName (l : List WChar) : List WChar := (pathBody l).takeWhile (· != slashW)

/-- What follows the first name. -/
def afterFirst (l : List WChar) : List WChar := (pathBody l).dropWhile (· != slashW)

/-- What `NormalizePath` makes of a path whose backslashes are slashes. -/
def normalizeSlashed (fn : Bool) (l : List WChar) : List WChar :=
  if fn && isDriveAt (pathBody l) 0 then
    slashW :: charAt (pathBody l) 0 :: colonW ::
      collapse slashW (behindSlash ((pathBody l).drop 2))
  else if fn && 2 ≤ countSlashes l then
    slashW :: slashW :: (firstName l ++ collapse slashW (behindSlash (afterFirst l)))
  else collapse slashW l

/-- The drive or the server at the front of a normalized path. -/
def pathFront (fn : Bool) (l : List WChar) : List WChar :=
  if fn && isDriveAt (pathBody l) 0 then [slashW, charAt (pathBody l) 0, colonW]
  else if fn && 2 ≤ countSlashes l then slashW :: slashW :: firstName l
  else []

/-- The rest of a normalized path. -/
def pathRest (fn : Bool) (l : List WChar) : List WChar :=
  if fn && isDriveAt (pathBody l) 0 then collapse slashW (behindSlash ((pathBody l).drop 2))
  else if fn && 2 ≤ countSlashes l then collapse slashW (behindSlash (afterFirst l))
  else collapse slashW l

theorem normalizeSlashed_eq (fn : Bool) (l : List WChar) :
    normalizeSlashed fn l = pathFront fn l ++ pathRest fn l := by
  rw [normalizeSlashed, pathFront, pathRest]
  split
  · rfl
  · split <;> rfl

def normalizeText (fn : Bool) (p : List WChar) : List WChar :=
  normalizeSlashed fn (p.map toSlash)

theorem head_behindSlash (l : List WChar) : (behindSlash l).head? = some slashW := by
  rw [behindSlash]
  split
  · assumption
  · rfl

theorem mem_behindSlash {ch : WChar} {l : List WChar} (h : ch ∈ behindSlash l) :
    ch = slashW ∨ ch ∈ l := by
  rw [behindSlash] at h
  split at h
  · exact Or.inr h
  · exact List.mem_cons.mp h

theorem behindSlash_append {l t : List WChar} (ht : charAt t 0 = 0) :
    (if charAt (l ++ t) 0 != slashW then slashW :: (l ++ t) else l ++ t) = behindSlash l ++ t := by
  rw [behindSlash]
  by_cases h : l.head? = some slashW
  · rw [if_pos h, (charAt_head ht).mpr h]
    rfl
  · rw [if_neg h, if_pos (by simpa [charAt_head ht] using h)]
    rfl

theorem head_pathBody (l : List WChar) : (pathBody l).head? ≠ some slashW := by
  intro h
  have := List.head?_dropWhile_not (· == slashW) l
  rw [pathBody] at h
  simp [h] at this

/-- A path is slashes and its body. -/
theorem slashes_append_pathBody (l : List WChar) :
    l = List.replicate (countSlashes l) slashW ++ pathBody l := by
  have htake : l.takeWhile (· == slashW) = List.replicate (countSlashes l) slashW := by
    refine List.eq_replicate_of_mem fun ch hch => ?_
    have := List.all_takeWhile (p := fun ch => ch == slashW) (l := l)
    simpa using List.all_eq_true.mp this ch hch
  rw [← htake, pathBody, List.takeWhile_append_dropWhile]

theorem takeWhile_append_tail {f : WChar → Bool} {l t : List WChar}
    (ht : t = [] ∨ ∃ ch t', t = ch :: t' ∧ f ch = false) :
    (l ++ t).takeWhile f = l.takeWhile f := by
  induction l with
  | nil =>
    rcases ht with rfl | ⟨ch, t', rfl, hch⟩
    · rfl
    · simp [hch]
  | cons ch l ih =>
    rw [List.cons_append, List.takeWhile_cons, List.takeWhile_cons, ih]

theorem tail_cases {t : List WChar} (ht : charAt t 0 = 0) : t = [] ∨ ∃ t', t = 0 :: t' := by
  cases t with
  | nil => exact Or.inl rfl
  | cons ch t =>
    rw [charAt_cons_zero] at ht
    exact Or.inr ⟨t, by rw [ht]⟩

theorem countSlashes_append {l t : List WChar} (ht : charAt t 0 = 0) :
    countSlashes (l ++ t) = countSlashes l := by
  rw [countSlashes, countSlashes, takeWhile_append_tail]
  rcases tail_cases ht with rfl | ⟨t', rfl⟩
  · exact Or.inl rfl
  · exact Or.inr ⟨0, t', rfl, rfl⟩

theorem serverEnd_append {l t : List WChar} (hl : (0 : WChar) ∉ l) (ht : charAt t 0 = 0) :
    serverEnd (slashW :: slashW :: (l ++ t)) = 2 + (l.takeWhile (· != slashW)).length := by
  have hserver : l.takeWhile (fun ch => ch != 0 && ch != slashW) =
      l.takeWhile (· != slashW) := by
    induction l with
    | nil => rfl
    | cons ch l ih =>
      obtain ⟨hch, hl⟩ := not_or.mp (List.mem_cons.not.mp hl)
      have hne : (ch != 0) = true := by simpa using Ne.symm hch
      rw [List.takeWhile_cons, List.takeWhile_cons, ih hl, hne, Bool.true_and]
  rw [serverEnd, List.drop_succ_cons, List.drop_succ_cons, List.drop_zero, takeWhile_append_tail,
    hserver]
  rcases tail_cases ht with rfl | ⟨t', rfl⟩
  · exact Or.inl rfl
  · exact Or.inr ⟨0, t', rfl, rfl⟩

/-- The slashes at the beginning, all but `n` of them deleted. -/
theorem deleteStr_slashes (k n : Nat) (l : List WChar) (h : n ≤ k) :
    deleteStr (List.replicate k slashW ++ l) 0 (k - n) = List.replicate n slashW ++ l := by
  rw [deleteStr, List.take_zero, List.nil_append, Nat.zero_add, List.drop_append,
    List.drop_replicate, List.length_replicate, show k - (k - n) = n by omega,
    show k - n - k = 0 by omega, List.drop_zero]

theorem normalizeDrive_eq {t rest : List WChar} (ht : charAt t 0 = 0) (k : Nat) (x c : WChar) :
    normalizeDrive (List.replicate k slashW ++ (x :: c :: rest ++ t)) k =
      slashW :: x :: colonW :: (behindSlash rest ++ t) := by
  have hslash : (if k = 0 then insertStr (List.replicate k slashW ++ (x :: c :: rest ++ t)) 0 [slashW]
      else if k > 1 then deleteStr (List.replicate k slashW ++ (x :: c :: rest ++ t)) 0 (k - 1)
      else List.replicate k slashW ++ (x :: c :: rest ++ t)) = slashW :: x :: c :: (rest ++ t) := by
    by_cases hzero : k = 0
    · rw [if_pos hzero, hzero]
      rfl
    · rw [if_neg hzero]
      by_cases hone : k > 1
      · rw [if_pos hone, deleteStr_slashes k 1 _ (by omega)]
        rfl
      · rw [if_neg hone, show k = 1 by omega]
        rfl
  rw [normalizeDrive, hslash]
  have hset : (slashW :: x :: c :: (rest ++ t)).set 2 colonW =
      slashW :: x :: colonW :: (rest ++ t) := rfl
  simp only [hset]
  have hthree : charAt (slashW :: x :: colonW :: (rest ++ t)) 3 = charAt (rest ++ t) 0 := rfl
  have hinsert : insertStr (slashW :: x :: colonW :: (rest ++ t)) 3 [slashW] =
      slashW :: x :: colonW :: (slashW :: (rest ++ t)) := rfl
  rw [hthree, hinsert, ← behindSlash_append ht]
  split <;> rfl

theorem normalizeUnc_eq {t l : List WChar} (hl : (0 : WChar) ∉ l) (ht : charAt t 0 = 0) {k : Nat}
    (hk : 2 ≤ k) :
    normalizeUnc (List.replicate k slashW ++ (l ++ t)) k =
      (slashW :: slashW :: (l.takeWhile (· != slashW) ++
        (behindSlash (l.dropWhile (· != slashW)) ++ t)), 2 + (l.takeWhile (· != slashW)).length) := by
  have hsplit : slashW :: slashW :: (l ++ t) =
      (slashW :: slashW :: l.takeWhile (· != slashW)) ++ (l.dropWhile (· != slashW) ++ t) := by
    rw [List.cons_append, List.cons_append, ← List.append_assoc, List.takeWhile_append_dropWhile]
  have hlen : 2 + (l.takeWhile (· != slashW)).length =
      (slashW :: slashW :: l.takeWhile (· != slashW)).length := by
    simp only [List.length_cons]
    omega
  rw [normalizeUnc, deleteStr_slashes k 2 _ hk]
  have htwo : List.replicate 2 slashW ++ (l ++ t) = slashW :: slashW :: (l ++ t) := rfl
  simp only [htwo, serverEnd_append hl ht]
  rw [hsplit, hlen, charAt_append_length, insertStr_append, List.singleton_append,
    ← behindSlash_append ht]
  split <;> rfl

theorem isDriveAt_slashes {l t : List WChar} (ht : charAt t 0 = 0) (k : Nat) :
    isDriveAt (List.replicate k slashW ++ (l ++ t)) k = isDriveAt l 0 := by
  have hfirst := charAt_append_add (List.replicate k slashW) (l ++ t) 0
  have hsecond := charAt_append_add (List.replicate k slashW) (l ++ t) 1
  rw [List.length_replicate] at hfirst hsecond
  rw [← isDriveAt_append ht, isDriveAt, isDriveAt, hsecond]
  exact congrArg (isAlphaW · && _) hfirst

/-- A letter and a colon are two characters. -/
theorem exists_cons_of_isDriveAt {l : List WChar} (h : isDriveAt l 0 = true) :
    ∃ x c rest, l = x :: c :: rest := by
  cases l with
  | nil => cases h
  | cons x l =>
    cases l with
    | nil =>
      rw [isDriveAt, charAt_cons_succ, charAt_nil] at h
      simp [colonW, pipeW] at h
    | cons c rest => exact ⟨x, c, rest, rfl⟩

theorem mem_dropWhile {ch : WChar} {l : List WChar} {f : WChar → Bool} (h : ch ∈ l.dropWhile f) :
    ch ∈ l :=
  (List.dropWhile_sublist f).subset h

theorem zero_not_mem_behindSlash {l : List WChar} (hl : (0 : WChar) ∉ l) :
    (0 : WChar) ∉ behindSlash l := by
  intro h
  rcases mem_behindSlash h with h | h
  · cases h
  · exact hl h

/-- **`NormalizePath` on the text of a path.** -/
theorem normalizePath_eq {p t : List WChar} (hp : (0 : WChar) ∉ p) (ht : charAt t 0 = 0)
    (szSchemeW : List WChar) :
    normalizePath (p ++ t) szSchemeW = normalizeText (canBeFilename szSchemeW) p ++ t := by
  cases hcons : p with
  | nil =>
    have hnil : normalizeText (canBeFilename szSchemeW) [] = [] := by
      cases canBeFilename szSchemeW <;> decide
    rw [hnil, List.nil_append, normalizePath, if_pos (by simp [isEmptyStr, ht])]
  | cons ch p' =>
    have hne : ¬ isEmptyStr (p ++ t) = true := by
      rw [hcons] at hp ⊢
      simpa [isEmptyStr] using Ne.symm (not_or.mp (List.mem_cons.not.mp hp)).1
    rw [← hcons, normalizePath, if_neg hne, convertBackslashes_append hp ht, normalizeText]
    obtain ⟨hl, -⟩ := isText_map_toSlash hp
    generalize p.map toSlash = l at hl
    dsimp only
    rw [countSlashes_append ht, normalizeSlashed]
    have hsplit : l ++ t = List.replicate (countSlashes l) slashW ++ (pathBody l ++ t) := by
      rw [← List.append_assoc, ← slashes_append_pathBody]
    have hdrive : isDriveAt (l ++ t) (countSlashes l) = isDriveAt (pathBody l) 0 := by
      rw [hsplit, isDriveAt_slashes ht]
    have hbody : (0 : WChar) ∉ pathBody l := fun h => hl (mem_dropWhile h)
    rw [hdrive]
    cases canBeFilename szSchemeW with
    | false =>
      simp only [Bool.false_and, Bool.false_eq_true, if_false]
      by_cases hk : countSlashes l > 1
      · have hcollapse : collapse slashW l = collapse slashW (slashW :: pathBody l) := by
          conv_lhs => rw [slashes_append_pathBody l]
          obtain ⟨k, hk'⟩ : ∃ k, countSlashes l = k + 1 := ⟨countSlashes l - 1, by omega⟩
          rw [hk', collapse_replicate_append]
        rw [if_pos hk, hsplit, deleteStr_slashes _ 1 _ (by omega), hcollapse]
        refine exec_collapse ht _ (slashW :: pathBody l) [] ?_
        exact fun h => hbody ((List.mem_cons.mp h).resolve_left (by decide))
      · rw [if_neg hk]
        exact exec_collapse ht _ l [] hl
    | true =>
      simp only [Bool.true_and, if_true, decide_eq_true_eq]
      by_cases hd : isDriveAt (pathBody l) 0 = true
      · obtain ⟨x, c, rest, hxc⟩ := exists_cons_of_isDriveAt hd
        simp only [if_pos hd]
        rw [hsplit, hxc, normalizeDrive_eq ht]
        rw [hxc] at hbody
        refine exec_collapse ht _ (behindSlash rest) [slashW, x, colonW] ?_
        refine zero_not_mem_behindSlash fun h => hbody ?_
        exact List.mem_cons_of_mem x (List.mem_cons_of_mem c h)
      · by_cases hk : 2 ≤ countSlashes l
        · simp only [if_neg hd, if_pos hk]
          rw [hsplit, normalizeUnc_eq hbody ht hk]
          have hexec := exec_collapse ht (slashW :: slashW :: (firstName l ++
              (behindSlash (afterFirst l) ++ t))) (behindSlash (afterFirst l))
            (slashW :: slashW :: firstName l)
            (zero_not_mem_behindSlash fun h => hbody (mem_dropWhile h))
          rw [List.length_cons, List.length_cons, Nat.add_comm, Nat.add_comm _ 1,
            ← Nat.add_assoc] at hexec
          exact hexec.trans (by simp)
        · simp only [if_neg hd, if_neg hk]
          exact exec_collapse ht _ l [] hl

/-! ### The names of a normalized path -/

theorem slash_not_mem_takeWhile (l : List WChar) : slashW ∉ l.takeWhile (· != slashW) := by
  intro h
  have := List.all_takeWhile (p := fun ch => ch != slashW) (l := l)
  simpa using List.all_eq_true.mp this slashW h

theorem head_dropWhile (l : List WChar) :
    l.dropWhile (· != slashW) = [] ∨ (l.dropWhile (· != slashW)).head? = some slashW := by
  cases h : l.dropWhile (· != slashW) with
  | nil => exact Or.inl rfl
  | cons ch m =>
    have := List.head_dropWhile_not (· != slashW) (l := l) (by simp [h])
    exact Or.inr (by simpa [h] using this)

theorem names_behindSlash (l : List WChar) : names slashW (behindSlash l) = names slashW l := by
  rw [behindSlash]
  split
  · rfl
  · rw [names_cons_self]

theorem names_pathBody (l : List WChar) : names slashW (pathBody l) = names slashW l := by
  conv_rhs => rw [slashes_append_pathBody l, names_replicate_append]

theorem isAlphaW_ne_slash {x : WChar} (h : isAlphaW x = true) : x ≠ slashW := by
  rintro rfl
  cases h

theorem isName_drive {x : WChar} (h : isAlphaW x = true) : IsName slashW [x, colonW] := by
  refine ⟨List.cons_ne_nil _ _, ?_⟩
  simp only [List.mem_cons, List.not_mem_nil, or_false, not_or]
  exact ⟨Ne.symm (isAlphaW_ne_slash h), by decide⟩

theorem isAlphaW_of_isDriveAt {l : List WChar} (h : isDriveAt l 0 = true) :
    isAlphaW (charAt l 0) = true := by
  rw [isDriveAt, Bool.and_eq_true] at h
  exact h.1

/-- **Normalizing only splits a drive letter from what follows it.** -/
theorem names_normalizeSlashed (fn : Bool) (l : List WChar) :
    names slashW (normalizeSlashed fn l) =
      if fn && isDriveAt (pathBody l) 0 then
        [charAt (pathBody l) 0, colonW] :: names slashW ((pathBody l).drop 2)
      else names slashW l := by
  have hhead : ∀ m, (collapse slashW (behindSlash m)).head? = some slashW := fun m => by
    rw [head_collapse, head_behindSlash]
  rw [normalizeSlashed]
  split
  · rename_i hd
    rw [Bool.and_eq_true] at hd
    rw [names_cons_self]
    have hsplit := names_append_of_head [charAt (pathBody l) 0, colonW]
      (Or.inr (hhead ((pathBody l).drop 2)))
    rw [names_of_isName (isName_drive (isAlphaW_of_isDriveAt hd.2)), names_collapse,
      names_behindSlash] at hsplit
    exact hsplit
  · split
    · rw [names_cons_self, names_cons_self, names_append_of_head _ (Or.inr (hhead _)),
        names_collapse, names_behindSlash, ← names_pathBody l]
      rw [firstName, afterFirst, ← names_append_of_head _ (head_dropWhile (pathBody l)),
        List.takeWhile_append_dropWhile]
    · rw [names_collapse]

/-! ### The front of a normalized path -/

/-- What `ReducePath` passes over, and the part it reduces. -/
inductive Front (fn : Bool) : List WChar → List WChar → Prop
  | drive {x : WChar} {suf : List WChar} (hfn : fn = true) (hx : isAlphaW x = true)
      (hsuf : suf.head? = some slashW) : Front fn [slashW, x, colonW] suf
  | server {srv suf : List WChar} (hfn : fn = true) (hsrv : slashW ∉ srv)
      (hdrive : isDriveAt srv 0 = false) (hsuf : suf.head? = some slashW)
      (hempty : srv = [] → suf = [slashW]) : Front fn (slashW :: slashW :: srv) suf
  | plain {suf : List WChar} (hdrive : fn = true → isDriveAt (pathBody suf) 0 = false) :
      Front fn [] suf

theorem pathBody_of_head {l : List WChar} (h : l.head? ≠ some slashW) : pathBody l = l := by
  cases l with
  | nil => rfl
  | cons ch l =>
    rw [pathBody, List.dropWhile_cons, if_neg]
    simpa using h

theorem countSlashes_of_head {l : List WChar} (h : l.head? ≠ some slashW) : countSlashes l = 0 := by
  cases l with
  | nil => rfl
  | cons ch l =>
    rw [countSlashes, List.takeWhile_cons, if_neg]
    · rfl
    · simpa using h

@[simp] theorem pathBody_cons_slash (l : List WChar) : pathBody (slashW :: l) = pathBody l := rfl

@[simp] theorem countSlashes_cons_slash (l : List WChar) :
    countSlashes (slashW :: l) = countSlashes l + 1 := rfl

/-- The first two characters of a name that is followed by a slash. -/
theorem isDriveAt_append_of_head {l m : List WChar} (hm : m.head? = some slashW) :
    isDriveAt (l ++ m) 0 = isDriveAt l 0 := by
  obtain ⟨m', rfl⟩ : ∃ m', m = slashW :: m' := by
    cases m with
    | nil => cases hm
    | cons ch m => exact ⟨m, by rw [Option.some.inj hm]⟩
  cases l with
  | nil => rfl
  | cons ch l =>
    cases l with
    | nil =>
      simp only [isDriveAt, List.cons_append, List.nil_append, charAt_cons_zero, charAt_cons_succ,
        charAt_nil]
      rfl
    | cons ch' l => rfl

/-! ### The first name -/

theorem firstName_append (l : List WChar) : firstName l ++ afterFirst l = pathBody l :=
  List.takeWhile_append_dropWhile

theorem head_afterFirst (l : List WChar) :
    afterFirst l = [] ∨ (afterFirst l).head? = some slashW :=
  head_dropWhile (pathBody l)

theorem isDriveAt_pathBody (l : List WChar) :
    isDriveAt (pathBody l) 0 = isDriveAt (firstName l) 0 := by
  rw [← firstName_append]
  rcases head_afterFirst l with hnil | hafter
  · rw [hnil, List.append_nil]
  · rw [isDriveAt_append_of_head hafter]

theorem pathBody_eq_nil {l : List WChar} (h : firstName l = []) : pathBody l = [] := by
  cases hbody : pathBody l with
  | nil => rfl
  | cons ch m =>
    rw [firstName, hbody, List.takeWhile_cons] at h
    split at h
    · cases h
    · rename_i hne
      exact absurd (by simpa [hbody] using hne) (head_pathBody l)

theorem isName_firstName {l : List WChar} (h : firstName l ≠ []) : IsName slashW (firstName l) :=
  ⟨h, slash_not_mem_takeWhile _⟩

/-- The names of a path begin with its first name. -/
theorem names_eq_cons {l : List WChar} (h : firstName l ≠ []) :
    names slashW l = firstName l :: names slashW (afterFirst l) := by
  rw [← names_pathBody, ← firstName_append, names_append_of_head _ (head_afterFirst l),
    names_of_isName (isName_firstName h)]
  rfl

theorem names_eq_nil {l : List WChar} (h : firstName l = []) : names slashW l = [] := by
  rw [← names_pathBody, pathBody_eq_nil h, names_nil]

theorem isDriveAt_collapse {l : List WChar} (h : l.head? ≠ some slashW) :
    isDriveAt (collapse slashW l) 0 = isDriveAt l 0 := by
  cases l with
  | nil => rfl
  | cons ch l =>
    have hne : ¬ (ch = slashW ∧ l.head? = some slashW) := fun hch => h (by rw [hch.1]; rfl)
    rw [collapse, if_neg hne]
    simp only [isDriveAt, charAt_cons_zero, charAt_cons_succ]
    have hhead : (collapse slashW l).head? = l.head? := head_collapse l
    have hnext : charAt (collapse slashW l) 0 = charAt l 0 := by
      cases hl : collapse slashW l with
      | nil =>
        rw [hl] at hhead
        cases l with
        | nil => rfl
        | cons _ _ => cases hhead
      | cons a m =>
        rw [hl] at hhead
        cases l with
        | nil => cases hhead
        | cons b l => exact Option.some.inj hhead
    rw [hnext]

theorem pathBody_collapse (l : List WChar) :
    pathBody (collapse slashW l) = collapse slashW (pathBody l) := by
  have hbody : ∀ m : List WChar, m.head? ≠ some slashW →
      pathBody (collapse slashW m) = collapse slashW m := by
    intro m hm
    exact pathBody_of_head (by rw [head_collapse]; exact hm)
  conv_lhs => rw [slashes_append_pathBody l]
  cases countSlashes l with
  | zero => exact hbody _ (head_pathBody l)
  | succ k =>
    rw [collapse_replicate_append, collapse, if_neg fun h => head_pathBody l h.2,
      pathBody_cons_slash, hbody _ (head_pathBody l)]

/-- **A normalized path has one of three fronts.** -/
theorem front_path (fn : Bool) (l : List WChar) :
    Front fn (pathFront fn l) (pathRest fn l) ∧ Collapsed slashW (pathRest fn l) := by
  have hhead : ∀ m, (collapse slashW (behindSlash m)).head? = some slashW := fun m => by
    rw [head_collapse, head_behindSlash]
  rw [pathFront, pathRest]
  split
  · rename_i hd
    rw [Bool.and_eq_true] at hd
    exact ⟨.drive hd.1 (isAlphaW_of_isDriveAt hd.2) (hhead _), collapsed_collapse _⟩
  · rename_i hd
    split
    · rename_i hk
      rw [Bool.and_eq_true] at hk
      refine ⟨.server hk.1 (slash_not_mem_takeWhile _) ?_ (hhead _) ?_, collapsed_collapse _⟩
      · rw [← isDriveAt_pathBody]
        simpa [hk.1] using hd
      · intro hnil
        rw [afterFirst, pathBody_eq_nil hnil]
        rfl
    · refine ⟨.plain fun hfn => ?_, collapsed_collapse _⟩
      rw [pathBody_collapse, isDriveAt_collapse (head_pathBody l)]
      simpa [hfn] using hd

theorem Front.head_drive {x : WChar} (hx : isAlphaW x = true) (suf : List WChar) :
    pathBody (slashW :: x :: colonW :: suf) = x :: colonW :: suf :=
  pathBody_of_head (l := x :: colonW :: suf) fun h => isAlphaW_ne_slash hx (Option.some.inj h)

theorem Front.server_body {srv suf : List WChar} (hsrv : slashW ∉ srv) (hne : srv ≠ []) :
    pathBody (slashW :: slashW :: (srv ++ suf)) = srv ++ suf := by
  cases srv with
  | nil => exact absurd rfl hne
  | cons ch srv =>
    refine pathBody_of_head (l := ch :: srv ++ suf) fun h => hsrv ?_
    rw [← Option.some.inj h]
    exact List.mem_cons_self

theorem takeWhile_server {srv suf : List WChar} (hsrv : slashW ∉ srv)
    (hsuf : suf.head? = some slashW) :
    (srv ++ suf).takeWhile (· != slashW) = srv ∧ (srv ++ suf).dropWhile (· != slashW) = suf := by
  obtain ⟨suf', rfl⟩ : ∃ suf', suf = slashW :: suf' := by
    cases suf with
    | nil => cases hsuf
    | cons ch suf => exact ⟨suf, by rw [Option.some.inj hsuf]⟩
  have hall : ∀ ch ∈ srv, (ch != slashW) = true := fun ch hch => by
    rw [bne_iff_ne]
    rintro rfl
    exact hsrv hch
  rw [List.takeWhile_append_of_pos hall, List.dropWhile_append_of_pos hall]
  simp

/-- **Normalizing once more does nothing.** -/
theorem Front.normalizeSlashed_eq {fn : Bool} {pre suf : List WChar} (h : Front fn pre suf)
    (hsuf : Collapsed slashW suf) : normalizeSlashed fn (pre ++ suf) = pre ++ suf := by
  have hbehind : ∀ l : List WChar, l.head? = some slashW → behindSlash l = l := fun l hl => if_pos hl
  cases h with
  | drive hfn hx hhead =>
    rename_i x
    have hbody := Front.head_drive hx suf
    rw [normalizeSlashed, List.cons_append, List.cons_append, List.cons_append, List.nil_append,
      hbody, if_pos]
    · rw [List.drop_succ_cons, List.drop_succ_cons, List.drop_zero, hbehind suf hhead,
        collapse_of_collapsed hsuf]
      rfl
    · simp [hfn, isDriveAt, hx]
  | server hfn hsrv hdrive hhead hempty =>
    rename_i srv
    by_cases hnil : srv = []
    · rw [hnil, hempty hnil, hfn]
      decide
    · have hbody : pathBody (slashW :: slashW :: (srv ++ suf)) = srv ++ suf :=
        Front.server_body hsrv hnil
      obtain ⟨htake, hdrop⟩ := takeWhile_server hsrv hhead
      rw [normalizeSlashed, List.cons_append, List.cons_append, firstName, afterFirst, hbody,
        htake, hdrop, isDriveAt_append_of_head hhead, hdrive, Bool.and_false, if_neg (by decide),
        if_pos, hbehind suf hhead, collapse_of_collapsed hsuf]
      simp [hfn]
  | plain hdrive =>
    have hk : ¬ (fn && decide (2 ≤ countSlashes suf)) = true := by
      intro hk
      rw [Bool.and_eq_true, decide_eq_true_eq] at hk
      cases suf with
      | nil => exact absurd hk.2 (by decide)
      | cons ch suf =>
        by_cases hch : ch = slashW
        · subst hch
          have hnext : suf.head? ≠ some slashW := fun h => hsuf.1 ⟨rfl, h⟩
          rw [countSlashes_cons_slash, countSlashes_of_head hnext] at hk
          omega
        · rw [countSlashes_of_head (l := ch :: suf) fun h => hch (Option.some.inj h)] at hk
          omega
    have hd : ¬ (fn && isDriveAt (pathBody suf) 0) = true := by
      cases fn with
      | false => simp
      | true => simp [hdrive rfl]
    rw [List.nil_append, normalizeSlashed, if_neg hd, if_neg hk, collapse_of_collapsed hsuf]

/-- **The part that is reduced begins behind the front.** -/
theorem Front.reduceStart_eq {szSchemeW pre suf t : List WChar}
    (h : Front (canBeFilename szSchemeW) pre suf) (hsuf : Collapsed slashW suf)
    (ht : charAt t 0 = 0) : reduceStart (pre ++ (suf ++ t)) szSchemeW = pre.length := by
  cases h with
  | drive hfn hx hhead =>
    rw [reduceStart, hfn]
    simp [hx]
  | server hfn hsrv hdrive hhead hempty =>
    rename_i srv
    obtain ⟨suf', rfl⟩ : ∃ suf', suf = slashW :: suf' := by
      cases suf with
      | nil => cases hhead
      | cons ch suf => exact ⟨suf, by rw [Option.some.inj hhead]⟩
    have htake : (srv ++ (slashW :: suf' ++ t)).takeWhile (· != slashW) = srv :=
      (takeWhile_server hsrv rfl).1
    rw [reduceStart, hfn, List.cons_append, List.cons_append, charAt_cons_zero, charAt_cons_succ,
      charAt_cons_zero, List.drop_succ_cons, List.drop_succ_cons, List.drop_zero, htake]
    simp only [List.length_cons]
    have halpha : isAlphaW slashW = false := rfl
    simp [halpha]
    omega
  | plain hdrive =>
    rw [List.nil_append, List.length_nil, reduceStart]
    cases hfn : canBeFilename szSchemeW with
    | false => rfl
    | true =>
      cases suf with
      | nil =>
        rw [List.nil_append, ht]
        rfl
      | cons ch suf =>
        by_cases hch : ch = slashW
        · subst hch
          have hnext : suf.head? ≠ some slashW := fun h => hsuf.1 ⟨rfl, h⟩
          have hd := hdrive hfn
          rw [pathBody_cons_slash, pathBody_of_head hnext, ← isDriveAt_append ht, isDriveAt] at hd
          have hslash : ¬ charAt (suf ++ t) 0 = slashW := by rw [charAt_head ht]; exact hnext
          have hcolon : (isAlphaW (charAt (suf ++ t) 0) && charAt (suf ++ t) 1 == colonW) = false := by
            cases halpha : isAlphaW (charAt (suf ++ t) 0) with
            | false => rfl
            | true =>
              rw [halpha, Bool.true_and, Bool.or_eq_false_iff] at hd
              rw [Bool.true_and]
              exact hd.1
          rw [List.cons_append, charAt_cons_zero, charAt_cons_succ, charAt_cons_succ, hcolon]
          simp [hslash]
        · rw [List.cons_append, charAt_cons_zero]
          simp [hch]

/-! ### The turns of `ReducePath` -/

def dot : List WChar := [dotW]
def dotdot : List WChar := [dotW, dotW]

theorem backToSlash_le (sW : List WChar) (nStartOfs k : Nat) : backToSlash sW nStartOfs k ≤ k := by
  induction k with
  | zero => exact Nat.le_refl 0
  | succ k ih =>
    rw [backToSlash]
    split
    · omega
    · exact Nat.le_refl _

theorem lt_length_of_charAt {sW : List WChar} {k : Nat} (h : charAt sW k ≠ 0) : k < sW.length := by
  by_contra hle
  exact h (charAt_of_length_le (by omega))

theorem length_deleteStr_lt {sW : List WChar} {k k' n : Nat} (hk : k < sW.length) (hk' : k' ≤ k)
    (hn : 0 < n) : (deleteStr sW k' (k - k' + n)).length + (k - k') + 1 ≤ sW.length := by
  simp only [deleteStr, List.length_append, List.length_take, List.length_drop]
  omega

/-- What a turn does. -/
theorem reduceTurn_inl {nStartOfs : Nat} {c c' : Reducing}
    (h : reduceTurn nStartOfs c = .inl c') :
    charAt c.cStrPathW c.k ≠ 0 ∧
    ((charAt c.cStrPathW c.k = slashW ∧ c' = { c with bPrevWasSlash := true, k := c.k + 1 }) ∨
      (c.bPrevWasSlash = false ∧ c' = { c with k := c.k + 1 }) ∨
      (∃ k', c.k < k' ∧ c' = { c with bPrevWasSlash := false, k := k' }) ∨
      (∃ l bValid, 0 < l ∧
        c' = { c with cStrPathW := deleteStr c.cStrPathW c.k l, bValid := bValid }) ∨
      ∃ k' l, k' = backToSlash c.cStrPathW nStartOfs (c.k - 1) ∧ 0 < l ∧
        c' = { c with cStrPathW := deleteStr c.cStrPathW k' (c.k - k' + l), k := k' }) := by
  have hone : ∀ b : Bool, 0 < if b = true then 2 else 1 := fun b => by cases b <;> decide
  have htwo : ∀ b : Bool, 0 < if b = true then 3 else 2 := fun b => by cases b <;> decide
  rw [reduceTurn] at h
  dsimp only at h
  by_cases hzero : (charAt c.cStrPathW c.k == 0) = true
  · rw [if_pos hzero] at h
    cases h
  rw [if_neg hzero] at h
  refine ⟨fun heq => hzero (beq_iff_eq.mpr heq), ?_⟩
  by_cases hslash : (charAt c.cStrPathW c.k == slashW) = true
  · rw [if_pos hslash] at h
    exact Or.inl ⟨beq_iff_eq.mp hslash, (Sum.inl.inj h).symm⟩
  rw [if_neg hslash] at h
  by_cases hprev : (!c.bPrevWasSlash) = true
  · rw [if_pos hprev] at h
    exact Or.inr (Or.inl ⟨(Bool.not_eq_true' _).mp hprev, (Sum.inl.inj h).symm⟩)
  rw [if_neg hprev] at h
  refine Or.inr (Or.inr ?_)
  by_cases hdot : (charAt c.cStrPathW c.k == dotW) = true
  swap
  · rw [if_neg hdot] at h
    exact Or.inl ⟨c.k + 1, Nat.lt_succ_self _, (Sum.inl.inj h).symm⟩
  rw [if_pos hdot] at h
  by_cases hend : (charAt c.cStrPathW (c.k + 1) == slashW ||
      charAt c.cStrPathW (c.k + 1) == 0) = true
  · rw [if_pos hend] at h
    exact Or.inr (Or.inl ⟨_, c.bValid, hone _, (Sum.inl.inj h).symm⟩)
  rw [if_neg hend] at h
  by_cases hdot' : (charAt c.cStrPathW (c.k + 1) == dotW) = true
  swap
  · rw [if_neg hdot'] at h
    exact Or.inl ⟨c.k + 1, Nat.lt_succ_self _, (Sum.inl.inj h).symm⟩
  rw [if_pos hdot'] at h
  by_cases hend' : (charAt c.cStrPathW (c.k + 2) == slashW ||
      charAt c.cStrPathW (c.k + 2) == 0) = true
  swap
  · rw [if_neg hend'] at h
    exact Or.inl ⟨c.k + 2, by omega, (Sum.inl.inj h).symm⟩
  rw [if_pos hend'] at h
  by_cases hstart : (c.k == nStartOfs || c.k == nStartOfs + 1) = true
  · rw [if_pos hstart] at h
    exact Or.inr (Or.inl ⟨_, false, htwo _, (Sum.inl.inj h).symm⟩)
  · rw [if_neg hstart] at h
    exact Or.inr (Or.inr ⟨_, _, rfl, htwo _, (Sum.inl.inj h).symm⟩)

/-- A turn moves on, or takes a part of the path out from `k'` on. -/
theorem reduceTurn_cases {nStartOfs : Nat} {c c' : Reducing}
    (h : reduceTurn nStartOfs c = .inl c') :
    c.k < c.cStrPathW.length ∧
    ((c'.cStrPathW = c.cStrPathW ∧ c.k < c'.k) ∨
      ∃ k' l, k' ≤ c.k ∧ 0 < l ∧ c'.k = k' ∧ c'.cStrPathW = deleteStr c.cStrPathW k' (c.k - k' + l)) := by
  obtain ⟨hzero, hcases⟩ := reduceTurn_inl h
  refine ⟨lt_length_of_charAt hzero, ?_⟩
  obtain ⟨-, rfl⟩ | ⟨-, rfl⟩ | ⟨k', hk', rfl⟩ | ⟨l, bValid, hl, rfl⟩ | ⟨k', l, hk', hl, rfl⟩ := hcases
  · exact Or.inl ⟨rfl, Nat.lt_succ_self _⟩
  · exact Or.inl ⟨rfl, Nat.lt_succ_self _⟩
  · exact Or.inl ⟨rfl, hk'⟩
  · exact Or.inr ⟨c.k, l, Nat.le_refl _, hl, rfl, by rw [Nat.sub_self, Nat.zero_add]⟩
  · refine Or.inr ⟨k', l, ?_, hl, rfl, rfl⟩
    rw [hk']
    exact Nat.le_trans (backToSlash_le _ _ _) (Nat.sub_le _ _)

theorem reduceTurn_measure (nStartOfs : Nat) (c c' : Reducing)
    (h : reduceTurn nStartOfs c = .inl c') :
    2 * c'.cStrPathW.length - c'.k < 2 * c.cStrPathW.length - c.k := by
  obtain ⟨hlt, ⟨hpath, hk⟩ | ⟨k', l, hk', hl, rfl, hpath⟩⟩ := reduceTurn_cases h
  · rw [hpath]
    omega
  · have hdelete := length_deleteStr_lt hlt hk' hl
    rw [← hpath] at hdelete
    omega

/-- The loop, when the index is at the end of `pre`. -/
def reduceAt (nStartOfs : Nat) (bValid bPrevWasSlash : Bool) (pre rest : List WChar) : Reducing :=
  Loop.exec (reduceTurn nStartOfs) (fun c => 2 * c.cStrPathW.length - c.k) ⟨[], 0, true, true⟩
    ⟨pre ++ rest, pre.length, bValid, bPrevWasSlash⟩

section Turns

variable {nStartOfs : Nat} {bValid bPrevWasSlash : Bool} {pre rest : List WChar}

theorem reduceAt_turn {pre' rest' : List WChar} {bValid' bPrevWasSlash' : Bool}
    (h : reduceTurn nStartOfs ⟨pre ++ rest, pre.length, bValid, bPrevWasSlash⟩ =
      .inl ⟨pre' ++ rest', pre'.length, bValid', bPrevWasSlash'⟩) :
    reduceAt nStartOfs bValid bPrevWasSlash pre rest =
      reduceAt nStartOfs bValid' bPrevWasSlash' pre' rest' :=
  Loop.exec_inl (reduceTurn_measure nStartOfs) _ h

/-- The end of the path. -/
theorem reduceAt_end (h : charAt rest 0 = 0) :
    reduceAt nStartOfs bValid bPrevWasSlash pre rest =
      ⟨pre ++ rest, pre.length, bValid, bPrevWasSlash⟩ := by
  refine Loop.exec_inr _ ?_
  simp only [reduceTurn, charAt_append_length, h]
  rfl

theorem reduceAt_slash : reduceAt nStartOfs bValid bPrevWasSlash pre (slashW :: rest) =
    reduceAt nStartOfs bValid true (pre ++ [slashW]) rest := by
  refine reduceAt_turn ?_
  simp only [reduceTurn, charAt_append_length, charAt_cons_zero]
  rw [List.append_assoc, List.length_append]
  rfl

theorem reduceAt_skip {ch : WChar} (hzero : ch ≠ 0) (hslash : ch ≠ slashW) :
    reduceAt nStartOfs bValid false pre (ch :: rest) =
      reduceAt nStartOfs bValid false (pre ++ [ch]) rest := by
  refine reduceAt_turn ?_
  simp only [reduceTurn, charAt_append_length, charAt_cons_zero]
  rw [if_neg (by simpa using hzero), if_neg (by simpa using hslash), List.append_assoc,
    List.length_append]
  rfl

/-- The rest of a name is passed. -/
theorem reduceAt_skipAll (s : List WChar) : ∀ pre, (0 : WChar) ∉ s → slashW ∉ s →
    reduceAt nStartOfs bValid false pre (s ++ rest) =
      reduceAt nStartOfs bValid false (pre ++ s) rest := by
  induction s with
  | nil =>
    intro pre _ _
    rw [List.nil_append, List.append_nil]
  | cons ch s ih =>
    intro pre hzero hslash
    obtain ⟨hzero, hzeros⟩ := not_or.mp (List.mem_cons.not.mp hzero)
    obtain ⟨hslash, hslashes⟩ := not_or.mp (List.mem_cons.not.mp hslash)
    rw [List.cons_append, reduceAt_skip (Ne.symm hzero) (Ne.symm hslash), ih _ hzeros hslashes,
      List.append_assoc]
    rfl

/-- The character after a name. -/
def EndsName (rest : List WChar) : Prop := charAt rest 0 = slashW ∨ charAt rest 0 = 0

/-- What follows a name and its slash. -/
def afterName (rest : List WChar) : List WChar :=
  if charAt rest 0 == slashW then rest.drop 1 else rest

theorem drop_succ_of_endsName (n : Nat) (s : List WChar) (hs : s.length = n) :
    (s ++ rest).drop (if charAt rest 0 == slashW then n + 1 else n) = afterName rest := by
  subst hs
  rw [afterName]
  split
  · rw [List.drop_append, List.drop_eq_nil_of_le (by omega), List.nil_append,
      Nat.add_sub_cancel_left]
  · rw [List.drop_left]

/-- **A name is passed** that is neither of the dots. -/
theorem reduceAt_name {s : List WChar} (hname : IsName slashW s) (hzero : (0 : WChar) ∉ s)
    (hdot : s ≠ dot) (hdotdot : s ≠ dotdot) :
    reduceAt nStartOfs bValid true pre (s ++ rest) =
      reduceAt nStartOfs bValid false (pre ++ s) rest := by
  obtain ⟨hne, hslash⟩ := hname
  cases s with
  | nil => exact absurd rfl hne
  | cons ch s =>
    obtain ⟨hch, hzeros⟩ := not_or.mp (List.mem_cons.not.mp hzero)
    obtain ⟨hchs, hslashes⟩ := not_or.mp (List.mem_cons.not.mp hslash)
    have hfirst : charAt (pre ++ (ch :: s ++ rest)) pre.length = ch := charAt_append_length pre _
    have hsecond : charAt (pre ++ (ch :: s ++ rest)) (pre.length + 1) = charAt (s ++ rest) 0 :=
      charAt_append_add pre _ 1
    have hthird : charAt (pre ++ (ch :: s ++ rest)) (pre.length + 2) = charAt (s ++ rest) 1 :=
      charAt_append_add pre _ 2
    have hpass : pre ++ [ch] ++ s = pre ++ ch :: s := List.append_assoc pre [ch] s
    by_cases hd : ch = dotW
    · subst hd
      cases s with
      | nil => exact absurd rfl hdot
      | cons ch' s =>
        obtain ⟨hch', hzeros'⟩ := not_or.mp (List.mem_cons.not.mp hzeros)
        obtain ⟨hchs', hslashes'⟩ := not_or.mp (List.mem_cons.not.mp hslashes)
        have hsecond' : charAt (pre ++ (dotW :: ch' :: s ++ rest)) (pre.length + 1) = ch' := hsecond
        by_cases hd' : ch' = dotW
        · subst hd'
          cases s with
          | nil => exact absurd rfl hdotdot
          | cons ch'' s =>
            obtain ⟨hch'', -⟩ := not_or.mp (List.mem_cons.not.mp hzeros')
            obtain ⟨hchs'', -⟩ := not_or.mp (List.mem_cons.not.mp hslashes')
            have hthird' : charAt (pre ++ (dotW :: dotW :: ch'' :: s ++ rest)) (pre.length + 2) =
                ch'' := hthird
            have hturn : reduceAt nStartOfs bValid true pre (dotW :: dotW :: ch'' :: s ++ rest) =
                reduceAt nStartOfs bValid false (pre ++ [dotW, dotW]) (ch'' :: s ++ rest) := by
              refine reduceAt_turn ?_
              simp only [reduceTurn, hfirst, hsecond', hthird']
              rw [if_neg (show ¬ (ch'' == slashW || ch'' == 0) = true by
                simp [Ne.symm hch'', Ne.symm hchs'']), List.append_assoc, List.length_append]
              rfl
            rw [hturn, reduceAt_skipAll (ch'' :: s) _ hzeros' hslashes', List.append_assoc]
            rfl
        · have hturn : reduceAt nStartOfs bValid true pre (dotW :: ch' :: s ++ rest) =
              reduceAt nStartOfs bValid false (pre ++ [dotW]) (ch' :: s ++ rest) := by
            refine reduceAt_turn ?_
            simp only [reduceTurn, hfirst, hsecond']
            rw [if_neg (show ¬ (dotW == 0) = true by decide),
              if_neg (show ¬ (dotW == slashW) = true by decide), if_neg (by decide),
              if_pos (show (dotW == dotW) = true by decide),
              if_neg (show ¬ (ch' == slashW || ch' == 0) = true by
                simp [Ne.symm hch', Ne.symm hchs']), if_neg (by simpa using hd'),
              List.append_assoc, List.length_append]
            rfl
          rw [hturn, reduceAt_skipAll (ch' :: s) _ hzeros hslashes, hpass]
    · have hturn : reduceAt nStartOfs bValid true pre (ch :: s ++ rest) =
          reduceAt nStartOfs bValid false (pre ++ [ch]) (s ++ rest) := by
        refine reduceAt_turn ?_
        simp only [reduceTurn, hfirst]
        rw [if_neg (by simpa using Ne.symm hch), if_neg (by simpa using Ne.symm hchs),
          if_neg (by decide), if_neg (by simpa using hd), List.append_assoc, List.length_append]
        rfl
      rw [hturn, reduceAt_skipAll s _ hzeros hslashes, hpass]

/-- A single dot is taken out. -/
theorem reduceAt_dot (hrest : EndsName rest) :
    reduceAt nStartOfs bValid true pre (dot ++ rest) =
      reduceAt nStartOfs bValid true pre (afterName rest) := by
  have hfirst : charAt (pre ++ (dot ++ rest)) pre.length = dotW := charAt_append_length pre _
  have hsecond : charAt (pre ++ (dot ++ rest)) (pre.length + 1) = charAt rest 0 :=
    charAt_append_add pre _ 1
  refine reduceAt_turn ?_
  simp only [reduceTurn, hfirst, hsecond]
  rw [deleteStr_append, drop_succ_of_endsName 1 dot rfl,
    if_pos (show (charAt rest 0 == slashW || charAt rest 0 == 0) = true by
      rcases hrest with h | h <;> simp [h])]
  rfl

/-- Two dots with no name before them make the path invalid. -/
theorem reduceAt_dotdot_front (hrest : EndsName rest)
    (hpre : pre.length = nStartOfs ∨ pre.length = nStartOfs + 1) :
    reduceAt nStartOfs bValid true pre (dotdot ++ rest) =
      reduceAt nStartOfs false true pre (afterName rest) := by
  have hfirst : charAt (pre ++ (dotdot ++ rest)) pre.length = dotW := charAt_append_length pre _
  have hsecond : charAt (pre ++ (dotdot ++ rest)) (pre.length + 1) = dotW :=
    charAt_append_add pre _ 1
  have hthird : charAt (pre ++ (dotdot ++ rest)) (pre.length + 2) = charAt rest 0 :=
    charAt_append_add pre _ 2
  have hdelete : deleteStr (pre ++ (dotdot ++ rest)) pre.length
      (if charAt rest 0 == slashW then 3 else 2) = pre ++ afterName rest := by
    rw [deleteStr_append, drop_succ_of_endsName 2 dotdot rfl]
  refine reduceAt_turn ?_
  simp only [reduceTurn, hfirst, hsecond, hthird, hdelete]
  rw [if_pos (show (charAt rest 0 == slashW || charAt rest 0 == 0) = true by
      rcases hrest with h | h <;> simp [h]),
    if_pos (show (pre.length == nStartOfs || pre.length == nStartOfs + 1) = true by
      simpa using hpre)]
  rfl

/-- The way back over a name ends at its first character. -/
theorem backToSlash_append {s m : List WChar} (hs : slashW ∉ s)
    (hstart : pre.length = nStartOfs ∨
      ∃ pre', pre = pre' ++ [slashW] ∧ nStartOfs ≤ pre'.length) (k : Nat) (hk : k ≤ s.length) :
    backToSlash (pre ++ (s ++ m)) nStartOfs (pre.length + k) = pre.length := by
  induction k with
  | zero =>
    rw [Nat.add_zero]
    cases hlen : pre.length with
    | zero => rfl
    | succ n =>
      rw [backToSlash, if_neg]
      rw [Bool.and_eq_true, decide_eq_true_eq]
      rintro ⟨hlt, hne⟩
      rcases hstart with h | ⟨pre', rfl, -⟩
      · omega
      · rw [List.length_append, List.length_singleton] at hlen
        obtain rfl : pre'.length = n := by omega
        rw [List.append_assoc, charAt_append_length] at hne
        exact absurd hne (by simp)
  | succ k ih =>
    have hch : charAt (pre ++ (s ++ m)) (pre.length + k) ≠ slashW := by
      rw [charAt_append_add]
      intro h
      refine hs ?_
      have hget : charAt (s ++ m) k = s.get ⟨k, hk⟩ := by
        rw [charAt, List.getD_eq_getElem?_getD, List.getElem?_append_left hk]
        simp [List.getElem?_eq_getElem (show k < s.length from hk)]
      rw [← h, hget]
      exact List.get_mem _ _
    have hle : nStartOfs ≤ pre.length := by
      rcases hstart with h | ⟨pre', rfl, h⟩
      · omega
      · rw [List.length_append]
        omega
    rw [← Nat.add_assoc, backToSlash, if_pos, ih (by omega)]
    rw [Bool.and_eq_true, decide_eq_true_eq, bne_iff_ne]
    exact ⟨by omega, hch⟩

/-- **Two dots take the name before them out.** -/
theorem reduceAt_dotdot {s : List WChar} (hname : IsName slashW s) (hrest : EndsName rest)
    (hstart : pre.length = nStartOfs ∨
      ∃ pre', pre = pre' ++ [slashW] ∧ nStartOfs ≤ pre'.length) :
    reduceAt nStartOfs bValid true (pre ++ (s ++ [slashW])) (dotdot ++ rest) =
      reduceAt nStartOfs bValid true pre (afterName rest) := by
  obtain ⟨base, hbase⟩ : ∃ base, base = pre ++ (s ++ [slashW]) := ⟨_, rfl⟩
  have hlen : base.length = pre.length + s.length + 1 := by
    rw [hbase, List.length_append, List.length_append]
    rfl
  have hspos : 0 < s.length := List.length_pos_iff.mpr hname.1
  have hle : nStartOfs ≤ pre.length := by
    rcases hstart with h | ⟨pre', rfl, h⟩
    · omega
    · rw [List.length_append]
      omega
  have hfirst : charAt (base ++ (dotdot ++ rest)) base.length = dotW := charAt_append_length base _
  have hsecond : charAt (base ++ (dotdot ++ rest)) (base.length + 1) = dotW :=
    charAt_append_add base _ 1
  have hthird : charAt (base ++ (dotdot ++ rest)) (base.length + 2) = charAt rest 0 :=
    charAt_append_add base _ 2
  have hpath : base ++ (dotdot ++ rest) = pre ++ (s ++ ([slashW] ++ (dotdot ++ rest))) := by
    rw [hbase, List.append_assoc, List.append_assoc]
  have hback : backToSlash (base ++ (dotdot ++ rest)) nStartOfs (base.length - 1) = pre.length := by
    rw [hpath, hlen, Nat.add_sub_cancel]
    exact backToSlash_append hname.2 hstart _ (Nat.le_refl _)
  have hdelete : deleteStr (base ++ (dotdot ++ rest)) pre.length (base.length - pre.length +
      if charAt rest 0 == slashW then 3 else 2) = pre ++ afterName rest := by
    rw [hpath, deleteStr_append, hlen]
    have hcount : (pre.length + s.length + 1 - pre.length +
        if charAt rest 0 == slashW then 3 else 2) =
        if charAt rest 0 == slashW then (s ++ ([slashW] ++ dotdot)).length + 1
        else (s ++ ([slashW] ++ dotdot)).length := by
      rw [List.length_append, List.length_append]
      have htwo : dotdot.length = 2 := rfl
      rw [htwo, List.length_singleton]
      split <;> omega
    rw [hcount, ← drop_succ_of_endsName _ (s ++ ([slashW] ++ dotdot)) rfl]
    simp only [List.append_assoc]
  rw [← hbase]
  refine reduceAt_turn ?_
  simp only [reduceTurn, hfirst, hsecond, hthird, hback, hdelete]
  rw [if_pos (show (charAt rest 0 == slashW || charAt rest 0 == 0) = true by
      rcases hrest with h | h <;> simp [h]),
    if_neg (show ¬ (base.length == nStartOfs || base.length == nStartOfs + 1) = true by
      simp only [Bool.or_eq_true, beq_iff_eq]
      omega)]
  rfl

end Turns

/-! ### Reduced paths -/

/-- The path that is left of the names `done` and a last one. -/
def finish (done : List (List WChar)) (last : List WChar) : List WChar :=
  if last = dot then render slashW done
  else if last = dotdot then render slashW done.dropLast
  else render slashW done ++ last

/-- A name without zeros. -/
def IsSeg (s : List WChar) : Prop := IsName slashW s ∧ (0 : WChar) ∉ s

/-- A double dot with nothing in front of it is not resolved. -/
theorem reduceAt_front {pre lead rest : List WChar} (hlead : lead = [] ∨ lead = [slashW])
    (v : Bool) (hrest : EndsName rest) :
    reduceAt pre.length v true (pre ++ (lead ++ render slashW [])) (dotdot ++ rest) =
      reduceAt pre.length false true (pre ++ (lead ++ render slashW [])) (afterName rest) := by
  refine reduceAt_dotdot_front hrest ?_
  rw [List.length_append, render_nil, List.append_nil]
  rcases hlead with rfl | rfl
  · exact Or.inl rfl
  · exact Or.inr rfl

/-- A double dot takes the segment in front of it away. -/
theorem reduceAt_pop {pre lead rest s : List WChar} (hlead : lead = [] ∨ lead = [slashW])
    (v : Bool) (done : List (List WChar)) (hs : IsSeg s) (hrest : EndsName rest) :
    reduceAt pre.length v true (pre ++ (lead ++ render slashW (done ++ [s]))) (dotdot ++ rest) =
      reduceAt pre.length v true (pre ++ (lead ++ render slashW done)) (afterName rest) := by
  have hassoc : pre ++ (lead ++ render slashW (done ++ [s])) =
      pre ++ (lead ++ render slashW done) ++ (s ++ [slashW]) := by
    rw [render_append_singleton]
    simp only [List.append_assoc]
  rw [hassoc]
  refine reduceAt_dotdot hs.1 hrest ?_
  cases hdone : done.reverse with
  | nil =>
    rw [List.reverse_eq_nil_iff] at hdone
    subst hdone
    rcases hlead with rfl | rfl
    · exact Or.inl (by simp)
    · exact Or.inr ⟨pre, by simp, Nat.le_refl _⟩
  | cons s' done' =>
    rw [List.reverse_eq_cons_iff] at hdone
    subst hdone
    refine Or.inr ⟨pre ++ (lead ++ (render slashW done'.reverse ++ s')), ?_, ?_⟩
    · rw [render_append_singleton]
      simp only [List.append_assoc]
    · rw [List.length_append]
      omega

/-- The last name of a path, behind its segments. -/
theorem reduceAt_last {pre lead last t : List WChar} (hlead : lead = [] ∨ lead = [slashW])
    (hlast : slashW ∉ last ∧ (0 : WChar) ∉ last) (ht : charAt t 0 = 0) (v : Bool)
    {done : List (List WChar)} (hdone : ∀ s ∈ done, IsSeg s) :
    (reduceAt pre.length v true (pre ++ (lead ++ render slashW done)) (last ++ t)).cStrPathW =
      pre ++ (lead ++ (finish done last ++ t)) ∧
    ((reduceAt pre.length v true (pre ++ (lead ++ render slashW done)) (last ++ t)).bValid = true ↔
      v = true ∧ Resolvable dot dotdot done [last]) := by
  have hend : ∀ v b base, reduceAt pre.length v b base t = ⟨base ++ t, base.length, v, b⟩ :=
    fun v b base => reduceAt_end ht
  have hdd : dotdot ≠ dot := by decide
  rw [Resolvable]
  by_cases hdot : last = dot
  · subst hdot
    rw [reduceAt_dot (Or.inr ht), afterName, ht, if_neg (by decide), hend, finish, if_pos rfl]
    simp [Resolvable]
  · by_cases hdotdot : last = dotdot
    · subst hdotdot
      rw [finish, if_neg hdd, if_pos rfl, if_neg hdd, if_pos rfl]
      cases hrev : done.reverse with
      | nil =>
        rw [List.reverse_eq_nil_iff] at hrev
        subst hrev
        rw [reduceAt_front hlead v (Or.inr ht), afterName, ht, if_neg (by decide), hend]
        simp
      | cons s done' =>
        rw [List.reverse_eq_cons_iff] at hrev
        subst hrev
        rw [reduceAt_pop hlead v _ (hdone s (by simp)) (Or.inr ht), afterName, ht,
          if_neg (by decide), hend]
        simp [Resolvable]
    · rw [finish, if_neg hdot, if_neg hdotdot, if_neg hdot, if_neg hdotdot]
      by_cases hnil : last = []
      · subst hnil
        rw [List.nil_append, hend]
        simp [Resolvable]
      · rw [reduceAt_name ⟨hnil, hlast.1⟩ hlast.2 hdot hdotdot, hend]
        simp [Resolvable]

/-- **The loop resolves the dots.** -/
theorem reduceAt_segs {pre lead last t : List WChar} (hlead : lead = [] ∨ lead = [slashW])
    (hlast : slashW ∉ last ∧ (0 : WChar) ∉ last) (ht : charAt t 0 = 0) (segs : List (List WChar)) :
    ∀ (done : List (List WChar)) (v : Bool), (∀ s ∈ done, IsSeg s) → (∀ s ∈ segs, IsSeg s) →
    (reduceAt pre.length v true (pre ++ (lead ++ render slashW done))
        (render slashW segs ++ (last ++ t))).cStrPathW =
      pre ++ (lead ++ (finish (resolve dot dotdot done segs) last ++ t)) ∧
    ((reduceAt pre.length v true (pre ++ (lead ++ render slashW done))
        (render slashW segs ++ (last ++ t))).bValid = true ↔
      v = true ∧ Resolvable dot dotdot done (segs ++ [last])) := by
  have hdd : dotdot ≠ dot := by decide
  induction segs with
  | nil =>
    intro done v hdone _
    rw [render_nil, List.nil_append, List.nil_append, resolve]
    exact reduceAt_last hlead hlast ht v hdone
  | cons s segs ih =>
    intro done v hdone hsegs
    have hs := hsegs s List.mem_cons_self
    have hsegs' : ∀ s' ∈ segs, IsSeg s' := fun s' h => hsegs s' (List.mem_cons_of_mem s h)
    obtain ⟨rest, hrest⟩ : ∃ rest, rest = slashW :: (render slashW segs ++ (last ++ t)) := ⟨_, rfl⟩
    have hends : EndsName rest := Or.inl (by rw [hrest]; rfl)
    have hafter : afterName rest = render slashW segs ++ (last ++ t) := by
      rw [hrest]
      rfl
    have hpath : render slashW (s :: segs) ++ (last ++ t) = s ++ rest := by
      rw [hrest, render_cons, List.append_assoc, List.cons_append]
    rw [hpath, resolve, List.cons_append, Resolvable]
    by_cases hdot : s = dot
    · subst hdot
      rw [reduceAt_dot hends, hafter, if_pos rfl, if_pos rfl]
      exact ih done v hdone hsegs'
    · by_cases hdotdot : s = dotdot
      · subst hdotdot
        rw [if_neg hdd, if_pos rfl, if_neg hdd, if_pos rfl]
        cases hrev : done.reverse with
        | nil =>
          rw [List.reverse_eq_nil_iff] at hrev
          subst hrev
          rw [reduceAt_front hlead v hends, hafter]
          obtain ⟨hresult, hvalid⟩ := ih [] false hdone hsegs'
          refine ⟨hresult, hvalid.trans ?_⟩
          simp
        | cons s' done' =>
          rw [List.reverse_eq_cons_iff] at hrev
          subst hrev
          rw [reduceAt_pop hlead v _ (hdone s' (by simp)) hends, hafter, List.dropLast_concat]
          obtain ⟨hresult, hvalid⟩ := ih done'.reverse v
            (fun s h => hdone s (List.mem_append_left _ h)) hsegs'
          refine ⟨hresult, hvalid.trans ?_⟩
          simp
      · rw [reduceAt_name hs.1 hs.2 hdot hdotdot, hrest, reduceAt_slash, if_neg hdot,
          if_neg hdotdot, if_neg hdot, if_neg hdotdot]
        have hnext : pre ++ (lead ++ render slashW done) ++ s ++ [slashW] =
            pre ++ (lead ++ render slashW (done ++ [s])) := by
          rw [render_append_singleton]
          simp only [List.append_assoc]
        rw [hnext]
        refine ih (done ++ [s]) v (fun s' h => ?_) hsegs'
        rcases List.mem_append.mp h with h | h
        · exact hdone s' h
        · rw [List.mem_singleton.mp h]
          exact hs

/-- A part of a path after its dots have been resolved. -/
structure Resolved (suf suf' : List WChar) : Prop where
  names_eq : names slashW suf' = resolve dot dotdot [] (names slashW suf)
  collapsed : Collapsed slashW suf'
  head_iff : suf'.head? = some slashW ↔ suf.head? = some slashW
  of_slash : suf = [slashW] → suf' = [slashW]
  mem : ∀ ch ∈ suf', ch = slashW ∨ ch ∈ suf

theorem names_finish {done : List (List WChar)} (hdone : ∀ s ∈ done, IsName slashW s)
    {last : List WChar} (hlast : slashW ∉ last) :
    names slashW (finish done last) = resolve dot dotdot done (names slashW last) := by
  have hrender : ∀ done, (∀ s ∈ done, IsName slashW s) → names slashW (render slashW done) = done := by
    intro done hdone
    have h := names_render hdone []
    rwa [List.append_nil, names_nil, List.append_nil] at h
  rw [finish]
  by_cases hdot : last = dot
  · subst hdot
    rw [if_pos rfl, hrender done hdone]
    rfl
  · by_cases hdotdot : last = dotdot
    · subst hdotdot
      rw [if_neg (by decide), if_pos rfl,
        hrender _ fun s hs => hdone s (List.dropLast_subset done hs)]
      rfl
    · rw [if_neg hdot, if_neg hdotdot, names_render hdone, names_of_not_mem hlast]
      by_cases hnil : last = []
      · rw [if_pos hnil, List.append_nil, resolve]
      · rw [if_neg hnil, resolve, if_neg hdot, if_neg hdotdot, resolve]

/-- The path that is left is made of some of the names, and a last one. -/
theorem finish_eq (done : List (List WChar)) {last : List WChar} (hlast : slashW ∉ last) :
    ∃ done' last', finish done last = render slashW done' ++ last' ∧ (∀ s ∈ done', s ∈ done) ∧
      slashW ∉ last' ∧ ∀ ch ∈ last', ch ∈ last := by
  rw [finish]
  split
  · exact ⟨done, [], (List.append_nil _).symm, fun _ h => h, List.not_mem_nil, by simp⟩
  · split
    · exact ⟨done.dropLast, [], (List.append_nil _).symm, fun s h => List.dropLast_subset done h,
        List.not_mem_nil, by simp⟩
    · exact ⟨done, last, rfl, fun _ h => h, hlast, fun _ h => h⟩

theorem resolved_finish {lead last : List WChar} {segs : List (List WChar)}
    (hlead : lead = [] ∨ lead = [slashW]) (hsegs : ∀ s ∈ segs, IsName slashW s)
    (hlast : slashW ∉ last) :
    Resolved (lead ++ (render slashW segs ++ last))
      (lead ++ finish (resolve dot dotdot [] segs) last) := by
  have hdone : ∀ s ∈ resolve dot dotdot [] segs, s ∈ segs := by
    intro s hs
    exact ((mem_resolve hs).resolve_left List.not_mem_nil).1
  have hnames : ∀ m : List WChar, names slashW (lead ++ m) = names slashW m := fun m => by
    rcases hlead with rfl | rfl
    · rfl
    · exact names_cons_self m
  obtain ⟨done, last', hfinish, hsub, hlast', hmem⟩ :=
    finish_eq (resolve dot dotdot [] segs) hlast
  have hname : ∀ s ∈ done, IsName slashW s := fun s hs => hsegs s (hdone s (hsub s hs))
  have hhead := head_render hname hlast'
  refine ⟨?_, ?_, ?_, ?_, ?_⟩
  · rw [hnames, hnames, names_finish (fun s hs => hsegs s (hdone s hs)) hlast,
      names_render hsegs, resolve_append]
  · rw [hfinish]
    rcases hlead with rfl | rfl
    · exact collapsed_render hname hlast'
    · exact ⟨fun h => hhead h.2, collapsed_render hname hlast'⟩
  · rw [hfinish]
    rcases hlead with rfl | rfl
    · exact iff_of_false hhead (head_render hsegs hlast)
    · exact Iff.rfl
  · intro h
    rcases hlead with rfl | rfl
    · exact absurd (by rw [List.nil_append] at h; rw [h]; rfl) (head_render hsegs hlast)
    · have hnil : render slashW segs ++ last = [] := (List.cons.inj h).2
      obtain ⟨hrender, rfl⟩ := List.append_eq_nil_iff.mp hnil
      cases segs with
      | nil => rfl
      | cons s segs =>
        rw [render_cons] at hrender
        simp at hrender
  · intro ch hch
    rw [hfinish] at hch
    rcases List.mem_append.mp hch with h | h
    · exact Or.inr (List.mem_append_left _ h)
    · rcases List.mem_append.mp h with h | h
      · obtain ⟨s, hs, h | h⟩ := mem_render.mp h
        · refine Or.inr (List.mem_append_right _ (List.mem_append_left _ ?_))
          exact mem_render.mpr ⟨s, hdone s (hsub s hs), Or.inl h⟩
        · exact Or.inl h
      · exact Or.inr (List.mem_append_right _ (List.mem_append_right _ (hmem ch h)))

/-- What `ReducePath` makes of a path behind its front, and when it accepts it. -/
theorem reducePath_render {szSchemeW pre suf lead last t : List WChar}
    {segs : List (List WChar)} (hfront : Front (canBeFilename szSchemeW) pre suf)
    (hsuf : Collapsed slashW suf) (htext : IsText (pre ++ suf)) (ht : charAt t 0 = 0)
    (hne : pre ++ suf ≠ []) (hrender : suf = lead ++ (render slashW segs ++ last))
    (hlead : lead = [] ∨ lead = [slashW]) (hsegs : ∀ s ∈ segs, IsName slashW s)
    (hlast : slashW ∉ last) :
    (Resolvable dot dotdot [] (segs ++ [last]) →
      reducePath (pre ++ suf ++ t) szSchemeW =
        .ok (pre ++ (lead ++ (finish (resolve dot dotdot [] segs) last ++ t)))) ∧
    (¬ Resolvable dot dotdot [] (segs ++ [last]) →
      reducePath (pre ++ suf ++ t) szSchemeW = .error .mxInvalidData) := by
  have hzero : ∀ ch, ch ∈ suf → ch ≠ 0 := by
    rintro ch hch rfl
    exact htext.1 (List.mem_append_right pre hch)
  have hseg : ∀ s ∈ segs, IsSeg s := by
    refine fun s hs => ⟨hsegs s hs, fun h0 => hzero 0 ?_ rfl⟩
    rw [hrender]
    exact List.mem_append_right _ (List.mem_append_left _ (mem_render.mpr ⟨s, hs, Or.inl h0⟩))
  have hlast0 : (0 : WChar) ∉ last := by
    refine fun h0 => hzero 0 ?_ rfl
    rw [hrender]
    exact List.mem_append_right _ (List.mem_append_right _ h0)
  have hempty : ¬ isEmptyStr (pre ++ suf ++ t) = true := by
    intro hempty
    cases hpath : pre ++ suf with
    | nil => exact hne hpath
    | cons ch l =>
      rw [hpath, List.cons_append, isEmptyStr, charAt_cons_zero, beq_iff_eq] at hempty
      refine absurd ?_ htext.1
      rw [hpath, hempty]
      exact List.mem_cons_self
  have hnormal : normalizePath (pre ++ suf ++ t) szSchemeW = pre ++ (suf ++ t) := by
    rw [normalizePath_eq htext.1 ht, normalizeText, map_toSlash htext,
      hfront.normalizeSlashed_eq hsuf, List.append_assoc]
  have hloop : reduceLoop pre.length (pre ++ (suf ++ t)) =
      reduceAt pre.length true true pre (suf ++ t) :=
    Loop.exec_dflt (reduceTurn_measure pre.length) _ _ _
  have hlead' : reduceAt pre.length true true pre (suf ++ t) =
      reduceAt pre.length true true (pre ++ (lead ++ render slashW []))
        (render slashW segs ++ (last ++ t)) := by
    rw [hrender, List.append_assoc, List.append_assoc]
    rcases hlead with rfl | rfl
    · rw [render_nil, List.append_nil, List.nil_append, List.append_nil]
    · rw [render_nil, List.append_nil]
      exact reduceAt_slash
  have hsegsAt := @reduceAt_segs pre lead last t hlead ⟨hlast, hlast0⟩ ht segs
  obtain ⟨hpath, hvalid⟩ := hsegsAt [] true (by simp) hseg
  rw [reducePath, if_neg hempty]
  dsimp only
  rw [hnormal, hfront.reduceStart_eq hsuf ht, hloop, hlead', hpath]
  constructor
  · intro hresolvable
    rw [if_pos (hvalid.mpr ⟨rfl, hresolvable⟩)]
  · intro hnot
    rw [if_neg fun h => hnot (hvalid.mp h).2]

/-- **`ReducePath` resolves the dots behind the front of a path.** -/
theorem reducePath_front {szSchemeW pre suf t R : List WChar}
    (hfront : Front (canBeFilename szSchemeW) pre suf) (hsuf : Collapsed slashW suf)
    (htext : IsText (pre ++ suf)) (ht : charAt t 0 = 0)
    (h : reducePath (pre ++ suf ++ t) szSchemeW = .ok R) :
    ∃ suf', R = pre ++ (suf' ++ t) ∧ Resolved suf suf' := by
  obtain ⟨lead, segs, last, hrender, hlead, hsegs, hlast⟩ := exists_render hsuf
  by_cases hne : pre ++ suf = []
  · obtain ⟨rfl, rfl⟩ := List.append_eq_nil_iff.mp hne
    rw [reducePath, if_pos (by simp [isEmptyStr, ht])] at h
    obtain rfl := Except.ok.inj h
    exact ⟨[], rfl, rfl, trivial, Iff.rfl, id, fun ch h => Or.inr h⟩
  · obtain ⟨hok, herror⟩ :=
      reducePath_render hfront hsuf htext ht hne hrender hlead hsegs hlast
    by_cases hresolvable : Resolvable dot dotdot [] (segs ++ [last])
    · rw [hok hresolvable] at h
      obtain rfl := Except.ok.inj h
      refine ⟨lead ++ finish (resolve dot dotdot [] segs) last, by rw [List.append_assoc], ?_⟩
      rw [hrender]
      exact resolved_finish hlead hsegs hlast
    · rw [herror hresolvable] at h
      cases h

end MxLib.Http
