import MxLib.Http.UrlPath

/-!
# Paths that leave their directory

A path is safe when no name in it is `.` or `..` and no backslash is left.  The dots
are resolved, but two things keep a path from being safe when it can be the name of
a file: the name of a server is not looked at, and the last `NormalizePath` takes a
name such as `c:..`, which has come to the front when the names before it were
resolved, for a drive and puts a slash behind the colon.

`getPath_safe_iff` says that there is nothing else.
-/

namespace MxLib.Http

open MxLib.Library MxLib.Library.Segments

/-- No name between the slashes is `.` or `..`, and there is no backslash. -/
def SafePath (path : List WChar) : Prop :=
  dot ∉ path.splitOn slashW ∧ dotdot ∉ path.splitOn slashW ∧ backslashW ∉ path

/-- A letter, a colon or a bar, and dots. -/
def DriveDot (s : List WChar) : Prop :=
  isDriveAt s 0 = true ∧ (s.drop 2 = dot ∨ s.drop 2 = dotdot)

/-- The text of a path that can be the name of a file does not begin with a drive,
and it begins with a server whose name is made of dots, or, without a server, with
a drive and dots after its dots are resolved. -/
def Traverses (l : List WChar) : Prop :=
  isDriveAt (pathBody l) 0 = false ∧
    if 2 ≤ countSlashes l then firstName l = dot ∨ firstName l = dotdot
    else ∃ s segs, resolve dot dotdot [] (names slashW l) = s :: segs ∧ DriveDot s

/-- The scheme of a URL and the text of its path, decoded, with slashes for the
backslashes. -/
def requestedPath (e : UrlEnv) (szUrlA : List Byte) :
    Except HResult (List WChar × List WChar) :=
  match splitUrl e (skipUrlPrefix szUrlA.length szUrlA) with
  | .error hRes => .error hRes
  | .ok parts =>
    (decodeText (pathText (parts.rest.take (pathEnd parts.rest)))).map fun cStrTempW =>
      (parts.cStrSchemeW, (szStr cStrTempW).map toSlash)

/-! ### Names -/

theorem safePath_iff (path : List WChar) : SafePath path ↔
    (dot ∉ names slashW path ∧ dotdot ∉ names slashW path) ∧ backslashW ∉ path := by
  have hdot : dot ≠ [] := List.cons_ne_nil _ _
  have hdotdot : dotdot ≠ [] := List.cons_ne_nil _ _
  rw [SafePath, mem_names_iff hdot, mem_names_iff hdotdot, and_assoc]

/-- No dots among the names. -/
def NoDots (ns : List (List WChar)) : Prop := dot ∉ ns ∧ dotdot ∉ ns

theorem noDots_cons {s : List WChar} {ns : List (List WChar)} :
    NoDots (s :: ns) ↔ (s ≠ dot ∧ s ≠ dotdot) ∧ NoDots ns := by
  simp only [NoDots, List.mem_cons, not_or]
  constructor
  · rintro ⟨⟨h1, h2⟩, h3, h4⟩
    exact ⟨⟨Ne.symm h1, Ne.symm h3⟩, h2, h4⟩
  · rintro ⟨⟨h1, h2⟩, h3, h4⟩
    exact ⟨⟨Ne.symm h1, h3⟩, Ne.symm h2, h4⟩

theorem noDots_resolve (segs : List (List WChar)) : NoDots (resolve dot dotdot [] segs) := by
  constructor
  · intro h
    exact ((mem_resolve h).resolve_left List.not_mem_nil).2.1 rfl
  · intro h
    exact ((mem_resolve h).resolve_left List.not_mem_nil).2.2 rfl

theorem Resolved.noDots {suf suf' : List WChar} (h : Resolved suf suf') :
    NoDots (names slashW suf') := by
  rw [h.names_eq]
  exact noDots_resolve _

/-! ### The characters of a normalized path -/

theorem mem_normalizeSlashed {fn : Bool} {l : List WChar} {ch : WChar}
    (h : ch ∈ normalizeSlashed fn l) : ch = slashW ∨ ch = colonW ∨ ch ∈ l := by
  have hbody : ∀ c ∈ pathBody l, c ∈ l := fun c hc => mem_dropWhile hc
  have hbehind : ∀ m : List WChar, (∀ c ∈ m, c ∈ l) →
      ch ∈ collapse slashW (behindSlash m) → ch = slashW ∨ ch = colonW ∨ ch ∈ l := by
    intro m hm hch
    rcases mem_behindSlash (mem_collapse hch) with h | h
    · exact Or.inl h
    · exact Or.inr (Or.inr (hm ch h))
  rw [normalizeSlashed] at h
  split at h
  · rename_i hd
    rw [Bool.and_eq_true] at hd
    obtain ⟨x, c, rest, hxc⟩ := exists_cons_of_isDriveAt hd.2
    rcases List.mem_cons.mp h with h | h
    · exact Or.inl h
    · rcases List.mem_cons.mp h with h | h
      · refine Or.inr (Or.inr (hbody ch ?_))
        rw [h, hxc]
        exact List.mem_cons_self
      · rcases List.mem_cons.mp h with h | h
        · exact Or.inr (Or.inl h)
        · exact hbehind _ (fun c hc => hbody c (List.mem_of_mem_drop hc)) h
  · split at h
    · rcases List.mem_cons.mp h with h | h
      · exact Or.inl h
      · rcases List.mem_cons.mp h with h | h
        · exact Or.inl h
        · rcases List.mem_append.mp h with h | h
          · exact Or.inr (Or.inr (hbody ch ((List.takeWhile_sublist _).subset h)))
          · exact hbehind _ (fun c hc => hbody c (mem_dropWhile hc)) h
    · exact Or.inr (Or.inr (mem_collapse h))

theorem isText_normalizeSlashed {fn : Bool} {l : List WChar} (h : IsText l) :
    IsText (normalizeSlashed fn l) := by
  constructor
  · intro h0
    rcases mem_normalizeSlashed h0 with h0 | h0 | h0
    · cases h0
    · cases h0
    · exact h.1 h0
  · intro hb
    rcases mem_normalizeSlashed hb with hb | hb | hb
    · cases hb
    · cases hb
    · exact h.2 hb

/-! ### The last normalization -/

/-- The names of a path whose dots have been resolved, normalized once more. -/
theorem noDots_last {fn : Bool} {l : List WChar} (hl : NoDots (names slashW l)) :
    NoDots (names slashW (normalizeSlashed fn l)) ↔
      ¬ (fn = true ∧ ∃ s segs, names slashW l = s :: segs ∧ DriveDot s) := by
  rw [names_normalizeSlashed, isDriveAt_pathBody]
  cases fn with
  | false => exact iff_of_true hl fun h => by cases h.1
  | true =>
    by_cases hnil : firstName l = []
    · rw [names_eq_nil hnil] at hl ⊢
      rw [hnil]
      refine iff_of_true hl ?_
      rintro ⟨-, s, segs, h, -⟩
      cases h
    rw [names_eq_cons hnil] at hl ⊢
    have hcons : (true = true ∧ ∃ s segs,
        firstName l :: names slashW (afterFirst l) = s :: segs ∧ DriveDot s) ↔
        DriveDot (firstName l) := by
      constructor
      · rintro ⟨-, s, segs, h, hs⟩
        rwa [(List.cons.inj h).1]
      · exact fun h => ⟨rfl, _, _, rfl, h⟩
    rw [hcons, DriveDot, Bool.true_and]
    by_cases hdrive : isDriveAt (firstName l) 0 = true
    · obtain ⟨x, c, rest, hxc⟩ := exists_cons_of_isDriveAt hdrive
      have hdrop : (pathBody l).drop 2 = (firstName l).drop 2 ++ afterFirst l := by
        rw [← firstName_append, hxc]
        rfl
      have hrest : slashW ∉ (firstName l).drop 2 := fun h =>
        (isName_firstName hnil).2 (List.mem_of_mem_drop h)
      have hshort : ([charAt (pathBody l) 0, colonW] ≠ dot ∧
          [charAt (pathBody l) 0, colonW] ≠ dotdot) := by
        simp [dot, dotdot, colonW, dotW]
      rw [if_pos hdrive, hdrop, names_append_of_head _ (head_afterFirst l), names_of_not_mem hrest,
        noDots_cons, and_iff_right hshort]
      have hafter := (noDots_cons.mp hl).2
      split
      · rename_i hempty
        refine iff_of_true hafter ?_
        rintro ⟨-, h | h⟩ <;> rw [hempty] at h <;> cases h
      · rw [List.singleton_append, noDots_cons, and_iff_left hafter, and_iff_right hdrive, not_or]
    · rw [if_neg hdrive]
      exact iff_of_true hl fun h => hdrive h.1

/-! ### The path of a URL -/

theorem prependSlash_append {P t : List WChar} (hP : (0 : WChar) ∉ P) (ht : charAt t 0 = 0)
    (szSchemeW : List WChar) : prependSlash szSchemeW (P ++ t) =
      (if isEmptyStr szSchemeW = false ∧ P.head? ≠ some slashW then slashW :: P else P) ++ t := by
  have hcond : (isEmptyStr (P ++ t) || charAt (P ++ t) 0 != slashW) =
      decide (P.head? ≠ some slashW) := by
    cases P with
    | nil => simp [isEmptyStr, ht]
    | cons ch P =>
      have hne : (ch == 0) = false := by
        rw [beq_eq_false_iff_ne]
        exact fun h => hP (by rw [h]; exact List.mem_cons_self)
      rw [List.cons_append, isEmptyStr, charAt_cons_zero, hne, Bool.false_or, List.head?_cons]
      simp [bne, BEq.beq]
  rw [prependSlash, hcond]
  by_cases h : isEmptyStr szSchemeW = false ∧ P.head? ≠ some slashW
  · rw [if_pos h, if_pos (by simpa using h)]
    rfl
  · rw [if_neg h, if_neg (by simpa using h)]

theorem isText_append_resolved {pre suf suf' : List WChar} (h : IsText (pre ++ suf))
    (hsuf : Resolved suf suf') : IsText (pre ++ suf') := by
  have hmem : ∀ ch ∈ pre ++ suf', ch = slashW ∨ ch ∈ pre ++ suf := by
    intro ch hch
    rcases List.mem_append.mp hch with h | h
    · exact Or.inr (List.mem_append_left _ h)
    · rcases hsuf.mem ch h with h | h
      · exact Or.inl h
      · exact Or.inr (List.mem_append_right _ h)
  constructor
  · intro h0
    rcases hmem 0 h0 with h' | h'
    · cases h'
    · exact h.1 h'
  · intro hb
    rcases hmem backslashW hb with h' | h'
    · cases h'
    · exact h.2 h'

/-- The names of a path behind a drive or a server, whose dots have been resolved. -/
theorem noDots_front {fn : Bool} {l suf' : List WChar} (hsuf : Resolved (pathRest fn l) suf')
    (hpre : pathFront fn l ≠ []) :
    (pathFront fn l ++ suf').head? = some slashW ∧
      (NoDots (names slashW (normalizeSlashed fn (pathFront fn l ++ suf'))) ↔
        ¬ (fn = true ∧ Traverses l)) := by
  obtain ⟨hfront, -⟩ := front_path fn l
  have hfront' : Front fn (pathFront fn l) suf' := by
    generalize pathFront fn l = pre at hfront hpre
    generalize pathRest fn l = suf at hfront hsuf
    cases hfront with
    | drive hfn hx hhead => exact .drive hfn hx (hsuf.head_iff.mpr hhead)
    | server hfn hsrv hdrive hhead hempty =>
      exact .server hfn hsrv hdrive (hsuf.head_iff.mpr hhead)
        fun hnil => hsuf.of_slash (hempty hnil)
    | plain _ => exact absurd rfl hpre
  rw [hfront'.normalizeSlashed_eq hsuf.collapsed]
  by_cases hd : (fn && isDriveAt (pathBody l) 0) = true
  · have hhead : suf'.head? = some slashW := by
      rw [hsuf.head_iff, pathRest, if_pos hd, head_collapse, head_behindSlash]
    rw [Bool.and_eq_true] at hd
    have halpha := isAlphaW_of_isDriveAt hd.2
    rw [pathFront, if_pos (by simp [hd])]
    refine ⟨rfl, iff_of_true ?_ fun h => ?_⟩
    · have hnames := names_append_of_head [charAt (pathBody l) 0, colonW] (Or.inr hhead)
      rw [names_of_isName (isName_drive halpha), List.singleton_append] at hnames
      rw [List.cons_append, names_cons_self, hnames, noDots_cons]
      exact ⟨by simp [dot, dotdot, colonW, dotW], hsuf.noDots⟩
    · rw [h.2.1] at hd
      cases hd.2
  · by_cases hk : (fn && decide (2 ≤ countSlashes l)) = true
    · have hhead : suf'.head? = some slashW := by
        rw [hsuf.head_iff, pathRest, if_neg hd, if_pos hk, head_collapse, head_behindSlash]
      rw [pathFront, if_neg hd, if_pos hk]
      rw [Bool.and_eq_true, decide_eq_true_eq] at hk
      refine ⟨rfl, ?_⟩
      have hnames := names_append_of_head (firstName l) (Or.inr hhead)
      have htraverses : (fn = true ∧ Traverses l) ↔ firstName l = dot ∨ firstName l = dotdot := by
        rw [Traverses, if_pos hk.2, and_iff_right hk.1, and_iff_right]
        simpa [hk.1] using hd
      have hname : slashW ∉ firstName l := slash_not_mem_takeWhile _
      rw [List.cons_append, List.cons_append, names_cons_self, names_cons_self, hnames, htraverses,
        names_of_not_mem hname]
      split
      · rename_i hnil
        refine iff_of_true hsuf.noDots ?_
        rw [hnil]
        rintro (h | h) <;> cases h
      · rw [List.singleton_append, noDots_cons, and_iff_left hsuf.noDots, not_or]
    · rw [pathFront, if_neg hd, if_neg hk] at hpre
      exact absurd rfl hpre

/-- **What is left of the path of a URL, and when it has no dots.** -/
theorem noDots_path {p t R szSchemeW : List WChar} (hp : (0 : WChar) ∉ p) (ht : charAt t 0 = 0)
    (hR : reducePath (normalizePath (p ++ t) szSchemeW) szSchemeW = .ok R) :
    ∃ P, normalizePath (prependSlash szSchemeW R) szSchemeW =
        normalizeSlashed (canBeFilename szSchemeW) P ++ t ∧ IsText P ∧
      (NoDots (names slashW (normalizeSlashed (canBeFilename szSchemeW) P)) ↔
        ¬ (canBeFilename szSchemeW = true ∧ Traverses (p.map toSlash))) := by
  have hl := isText_map_toSlash hp
  rw [normalizePath_eq hp ht, normalizeText] at hR
  generalize p.map toSlash = l at hR hl
  obtain ⟨hfront, hcollapsed⟩ := front_path (canBeFilename szSchemeW) l
  have htext : IsText (normalizeSlashed (canBeFilename szSchemeW) l) := isText_normalizeSlashed hl
  rw [normalizeSlashed_eq] at hR htext
  obtain ⟨suf', rfl, hsuf⟩ := reducePath_front hfront hcollapsed htext ht hR
  have htext' := isText_append_resolved htext hsuf
  rw [← List.append_assoc, prependSlash_append htext'.1 ht]
  by_cases hpre : pathFront (canBeFilename szSchemeW) l = []
  · obtain ⟨hd, hk⟩ : ¬ (canBeFilename szSchemeW && isDriveAt (pathBody l) 0) = true ∧
        ¬ (canBeFilename szSchemeW && decide (2 ≤ countSlashes l)) = true := by
      rw [pathFront] at hpre
      split_ifs at hpre with hd hk
      exact ⟨hd, hk⟩
    rw [pathRest, if_neg hd, if_neg hk] at hsuf
    rw [hpre, List.nil_append] at htext' ⊢
    obtain ⟨P, hP⟩ : ∃ P, P = if isEmptyStr szSchemeW = false ∧ suf'.head? ≠ some slashW
        then slashW :: suf' else suf' := ⟨_, rfl⟩
    have hnames : names slashW P = resolve dot dotdot [] (names slashW l) := by
      rw [← @names_collapse _ slashW _ l, ← hsuf.names_eq, hP]
      split
      · exact names_cons_self _
      · rfl
    have hPtext : IsText P := by
      rw [hP]
      split
      · refine ⟨fun h => ?_, fun h => ?_⟩
        · exact htext'.1 ((List.mem_cons.mp h).resolve_left (by decide))
        · exact htext'.2 ((List.mem_cons.mp h).resolve_left (by decide))
      · exact htext'
    rw [← hP]
    refine ⟨P, ?_, hPtext, ?_⟩
    · rw [normalizePath_eq hPtext.1 ht, normalizeText, map_toSlash hPtext]
    · rw [noDots_last (by rw [hnames]; exact noDots_resolve _), hnames]
      refine not_congr (and_congr_right fun hfn => ?_)
      rw [hfn, Bool.true_and] at hd hk
      rw [Traverses, if_neg (by simpa using hk), and_iff_right (by simpa using hd)]
  · obtain ⟨hhead, hdots⟩ := noDots_front hsuf hpre
    rw [if_neg fun h => h.2 hhead]
    refine ⟨_, ?_, htext', hdots⟩
    rw [normalizePath_eq htext'.1 ht, normalizeText, map_toSlash htext']

/-! ### Parsing a URL -/

/-- The parameters and the fragment leave the scheme and the path alone. -/
theorem parseParams_ok {url url' : Url} {rest : List Byte} (h : parseParams url rest = .ok url') :
    url'.cStrSchemeW = url.cStrSchemeW ∧ url'.cStrPathW = url.cStrPathW := by
  obtain ⟨⟨cQueryStringsList, rest⟩, -, h⟩ := exists_of_bind_ok h
  obtain ⟨cStrFragmentW, -, h⟩ := exists_of_bind_ok h
  obtain rfl := Except.ok.inj h
  exact ⟨rfl, rfl⟩

theorem setPath_ok {szPathA : List Byte} {szSchemeW cStrPathW : List WChar}
    (h : setPath szPathA szSchemeW = .ok cStrPathW) :
    ∃ cStrTempW, decodeText szPathA = .ok cStrTempW ∧
      cStrPathW = normalizePath cStrTempW szSchemeW := by
  have hnil : normalizePath [] szSchemeW = [] := by
    rw [normalizePath, if_pos isEmptyStr_nil]
  rw [setPath] at h
  split at h
  · rename_i hempty
    obtain rfl := Except.ok.inj h
    exact ⟨[], by rw [hempty]; rfl, hnil.symm⟩
  · split at h
    · cases h
    · cases hdec : decodeText szPathA with
      | error hRes =>
        rw [hdec] at h
        cases h
      | ok cStrTempW =>
        rw [hdec] at h
        obtain rfl := Except.ok.inj h
        refine ⟨cStrTempW, rfl, ?_⟩
        dsimp only
        split
        · rename_i hempty
          rw [hempty, hnil]
        · rfl

theorem parsePath_ok {e : UrlEnv} {parts : UrlParts} {url : Url}
    (h : parsePath e parts = .ok url) :
    ∃ cStrTempW R, decodeText (pathText (parts.rest.take (pathEnd parts.rest))) = .ok cStrTempW ∧
      reducePath (normalizePath cStrTempW parts.cStrSchemeW) parts.cStrSchemeW = .ok R ∧
      url.cStrSchemeW = parts.cStrSchemeW ∧
      url.cStrPathW = normalizePath (prependSlash parts.cStrSchemeW R) parts.cStrSchemeW := by
  obtain ⟨cStrPathW, R, _, _, _, url', hset, hreduce, -, -, -, hparams, rfl⟩ := parsePath_iff.mp h
  obtain ⟨hscheme, hpath⟩ := parseParams_ok hparams
  obtain ⟨cStrTempW, hdec, rfl⟩ := setPath_ok hset
  refine ⟨cStrTempW, R, hdec, hreduce, hscheme, ?_⟩
  rw [hpath, hscheme]

theorem parseMail_ok {e : UrlEnv} {parts : UrlParts} {url : Url}
    (h : parseMail e parts = .ok url) : url.cStrSchemeW = parts.cStrSchemeW := by
  obtain ⟨cStrPathW, -, h⟩ := exists_of_bind_ok h
  obtain ⟨cStrPathW', -, h⟩ := exists_of_bind_ok h
  exact (parseParams_ok h).1

/-- The URL asks for a file, by a path that leaves its directory. -/
def TraversesUrl (e : UrlEnv) (szUrlA : List Byte) : Prop :=
  ∃ szSchemeW l, requestedPath e szUrlA = .ok (szSchemeW, l) ∧ canBeFilename szSchemeW = true ∧
    Traverses l

/-- **The path of a URL is safe exactly when** the URL does not ask for a file by the
name of a server that is made of dots, or by a drive and dots at the front of its
path. -/
theorem getPath_safe_iff (e : UrlEnv) (szUrlA : List Byte) (url : Url)
    (h : parseFromString e szUrlA = .ok url) (hmail : isMail url.cStrSchemeW = false) :
    SafePath url.getPath ↔ ¬ TraversesUrl e szUrlA := by
  rw [parseFromString] at h
  split at h
  · rename_i hempty
    obtain rfl := Except.ok.inj h
    have hsafe : SafePath Url.reset.getPath := ⟨by decide, by decide, by decide⟩
    refine iff_of_true hsafe ?_
    rintro ⟨szSchemeW, l, hpath, -, -, htraverses⟩
    rw [requestedPath, hempty] at hpath
    obtain ⟨-, rfl⟩ := Prod.mk.inj (Except.ok.inj hpath)
    rw [if_neg (by decide)] at htraverses
    obtain ⟨s, segs, hnames, -⟩ := htraverses
    cases hnames
  · cases hsplit : splitUrl e (skipUrlPrefix szUrlA.length szUrlA) with
    | error hRes =>
      rw [hsplit] at h
      cases h
    | ok parts =>
      rw [hsplit] at h
      dsimp only at h
      split at h
      · rename_i hparts
        rw [parseMail_ok h, hparts] at hmail
        cases hmail
      · obtain ⟨cStrTempW, R, hdec, hreduce, -, hpath⟩ := parsePath_ok h
        have hrequested : requestedPath e szUrlA =
            .ok (parts.cStrSchemeW, (szStr cStrTempW).map toSlash) := by
          rw [requestedPath, hsplit]
          dsimp only
          rw [hdec]
          rfl
        have hiff : TraversesUrl e szUrlA ↔ canBeFilename parts.cStrSchemeW = true ∧
            Traverses ((szStr cStrTempW).map toSlash) := by
          constructor
          · rintro ⟨szSchemeW, l, hpath, hfn, htraverses⟩
            rw [hrequested] at hpath
            obtain ⟨rfl, rfl⟩ := Prod.mk.inj (Except.ok.inj hpath)
            exact ⟨hfn, htraverses⟩
          · exact fun h => ⟨_, _, hrequested, h⟩
        obtain ⟨t, htext, hzero, ht⟩ := exists_szStr_append cStrTempW
        rw [htext] at hreduce
        obtain ⟨P, hfinal, hP, hdots⟩ := noDots_path hzero ht hreduce
        have htext' : IsText (normalizeSlashed (canBeFilename parts.cStrSchemeW) P) :=
          isText_normalizeSlashed hP
        rw [hiff, ← hdots, Url.getPath, hpath, hfinal, szStr_append_of_charAt htext'.1 ht,
          safePath_iff, and_iff_left htext'.2]
        rfl

/-! ### URLs of a server -/

/-- A client that takes every name for a host and none for its own. -/
def anyHost : UrlEnv :=
  ⟨fun _ => false, fun szHostA => .ok (szHostA.map UInt8.toUInt16), fun _ => true, .ok⟩

theorem parseFromString_dots : ∃ url,
    parseFromString anyHost (ascii "/a/../b/./c") = .ok url ∧ url.getPath = wide "/b/c" ∧
      SafePath url.getPath := by
  obtain ⟨url, hurl, hpath, hmail⟩ : ∃ url, parseFromString anyHost (ascii "/a/../b/./c") = .ok url ∧
      url.getPath = wide "/b/c" ∧ isMail url.cStrSchemeW = false :=
    ⟨⟨[], [], wide "/b/c", none, [], [], []⟩, by decide, by decide, by decide⟩
  refine ⟨url, hurl, hpath, (getPath_safe_iff _ _ url hurl hmail).mpr ?_⟩
  rintro ⟨szSchemeW, l, hrequested, -, -, htraverses⟩
  have hl : requestedPath anyHost (ascii "/a/../b/./c") = .ok ([], wide "/a/../b/./c") := by
    decide
  rw [hl] at hrequested
  obtain ⟨-, rfl⟩ := Prod.mk.inj (Except.ok.inj hrequested)
  rw [if_neg (by decide)] at htraverses
  obtain ⟨s, segs, hnames, hdrive, -⟩ := htraverses
  have hresolve : resolve dot dotdot [] (names slashW (wide "/a/../b/./c")) = [wide "b", wide "c"] := by
    decide
  rw [hresolve] at hnames
  obtain ⟨rfl, -⟩ := List.cons.inj hnames
  cases hdrive

/-- The name of a server is left as it is. -/
theorem parseFromString_serverDots : ∃ url,
    parseFromString anyHost (ascii "//../etc/passwd") = .ok url ∧
      isMail url.cStrSchemeW = false ∧ ¬ SafePath url.getPath :=
  ⟨⟨[], [], wide "//../etc/passwd", none, [], [], []⟩, by decide, by decide, by
    intro h
    exact h.2.1 (by decide)⟩

end MxLib.Http
