import MxLib.Http.UrlRoundTrip

/-!
# Paths that are left alone

An ordinary path has nothing to decode, nothing to collapse and no dots to resolve.  It
comes out of `ParseFromString` as it went in, unless its first name begins with a letter
and a colon or a bar.  Then `copy_path` takes it for a drive, and writes the drive before
the path without taking it from the path.
-/

namespace MxLib.Http

open MxLib.Library MxLib.Library.Segments

/-! ### Ordinary paths -/

/-- The characters of a path that stand for themselves.  Those of a URI are among them,
but for the percent sign and the plus sign. -/
def isPathByte (ch : Byte) : Bool := ch != 0 && ch < 0x80 && !(ascii "?#%+\\").contains ch

def widePath (szPathA : List Byte) : List WChar := szPathA.map UInt8.toUInt16

/-- A path that starts with a slash, without double slashes and without names of dots. -/
structure IsPlainPath (szPathA : List Byte) : Prop where
  chars : ∀ ch ∈ szPathA, isPathByte ch = true
  slash : (widePath szPathA).head? = some slashW
  single : Collapsed slashW (widePath szPathA)
  noDots : NoDots (names slashW (widePath szPathA))

/-- The texts that have the path: the path itself, and a URL of a server whose other
parts are accepted.  At its end, the path of one slash does not have to be written. -/
inductive HasPath (e : UrlEnv) (szPathA : List Byte) : List Byte → Prop
  | path : HasPath e szPathA szPathA
  | http {szSchemeA szAuthorityA szWrittenA rest cStrTempHostA cStrTempUserInfoA : List Byte}
      {nPort : Option Nat} {cStrHostW cStrFragmentW : List WChar} {url : Url} :
      szSchemeA.map lowerA = ascii "http" ∨ szSchemeA.map lowerA = ascii "https" →
      Clear (ascii "/\\") (ascii "?#") szAuthorityA →
      splitHost szAuthorityA = .ok (cStrTempHostA, cStrTempUserInfoA, nPort) →
      setHost e cStrTempHostA = .ok cStrHostW →
      setUserInfo cStrTempUserInfoA = .ok cStrFragmentW →
      szWrittenA = szPathA ∨ szWrittenA = [] ∧ szPathA = ascii "/" ∧ rest = [] →
      (rest = [] ∨ charAt rest 0 = 0x3F ∨ charAt rest 0 = 0x23) →
      parseParams .reset rest = .ok url →
      HasPath e szPathA (szSchemeA ++ ascii "://" ++ szAuthorityA ++ szWrittenA ++ rest)

/-- The text is parsed, and the path is there unchanged. -/
def KeepsPath (e : UrlEnv) (szUrlA szPathA : List Byte) : Prop :=
  ∃ url, parseFromString e szUrlA = .ok url ∧ url.getPath = widePath szPathA

/-! ### Names without dots -/

theorem resolvable_noDots {segs : List (List WChar)} (h : NoDots segs)
    (done : List (List WChar)) : Resolvable dot dotdot done segs := by
  induction segs generalizing done with
  | nil => trivial
  | cons s segs ih =>
    obtain ⟨⟨hdot, hdotdot⟩, hsegs⟩ := noDots_cons.mp h
    rw [Resolvable, if_neg hdot, if_neg hdotdot]
    exact ih hsegs _

theorem resolve_noDots {segs : List (List WChar)} (h : NoDots segs) (done : List (List WChar)) :
    resolve dot dotdot done segs = done ++ segs := by
  induction segs generalizing done with
  | nil => exact (List.append_nil done).symm
  | cons s segs ih =>
    obtain ⟨⟨hdot, hdotdot⟩, hsegs⟩ := noDots_cons.mp h
    rw [resolve, if_neg hdot, if_neg hdotdot, ih hsegs, List.append_assoc, List.singleton_append]

theorem noDots_append {segs segs' : List (List WChar)} :
    NoDots (segs ++ segs') ↔ NoDots segs ∧ NoDots segs' := by
  simp only [NoDots, List.mem_append, not_or]
  exact and_and_and_comm

/-- **A path without dots is left alone** behind its front. -/
theorem reducePath_noDots {szSchemeW pre suf : List WChar}
    (hfront : Front (canBeFilename szSchemeW) pre suf) (hsuf : Collapsed slashW suf)
    (htext : IsText (pre ++ suf)) (hne : pre ++ suf ≠ [])
    (hdots : NoDots (names slashW suf)) :
    reducePath (pre ++ suf) szSchemeW = .ok (pre ++ suf) := by
  obtain ⟨lead, segs, last, hrender, hlead, hsegs, hlast⟩ := exists_render hsuf
  have hnames : names slashW suf = segs ++ names slashW last := by
    rw [hrender]
    rcases hlead with rfl | rfl
    · exact names_render hsegs last
    · exact (names_cons_self _).trans (names_render hsegs last)
  rw [hnames, noDots_append, names_of_not_mem hlast] at hdots
  have hlastDots : last ≠ dot ∧ last ≠ dotdot := by
    constructor
    · rintro rfl
      exact hdots.2.1 (by decide)
    · rintro rfl
      exact hdots.2.2 (by decide)
  have hall : NoDots (segs ++ [last]) := by
    rw [noDots_append]
    exact ⟨hdots.1, noDots_cons.mpr ⟨hlastDots, List.not_mem_nil, List.not_mem_nil⟩⟩
  have hok := (reducePath_render (t := []) hfront hsuf htext rfl hne hrender hlead hsegs hlast).1
    (resolvable_noDots hall [])
  rw [List.append_nil, List.append_nil, resolve_noDots hdots.1, List.nil_append, finish,
    if_neg hlastDots.1, if_neg hlastDots.2, ← hrender] at hok
  exact hok

/-- Nor is it changed when it is normalized for the last time. -/
theorem normalizePath_front {szSchemeW pre suf : List WChar}
    (hfront : Front (canBeFilename szSchemeW) pre suf) (hsuf : Collapsed slashW suf)
    (htext : IsText (pre ++ suf)) (hhead : (pre ++ suf).head? = some slashW) :
    normalizePath (prependSlash szSchemeW (pre ++ suf)) szSchemeW = pre ++ suf := by
  have hprepend : prependSlash szSchemeW (pre ++ suf) = pre ++ suf := by
    have happ := prependSlash_append (t := []) htext.1 rfl szSchemeW
    rwa [List.append_nil, List.append_nil, if_neg fun h => h.2 hhead] at happ
  have hnormal := normalizePath_eq (t := []) htext.1 rfl szSchemeW
  rw [hprepend]
  rwa [List.append_nil, List.append_nil, normalizeText, map_toSlash htext,
    hfront.normalizeSlashed_eq hsuf] at hnormal

/-! ### Reading a path -/

theorem isPlainChar_of_isPathByte {ch : Byte} (h : isPathByte ch = true) :
    isPlainChar ch = true ∧ ch.toNat < 0x80 ∧ ch ≠ 0 ∧ ch ≠ 0x5C ∧ ch ≠ 0x25 ∧
      ch ∉ ascii "?#" := by
  simp only [isPathByte, Bool.and_eq_true, bne_iff_ne, decide_eq_true_iff, Bool.not_eq_true',
    ← Bool.not_eq_true, List.contains_iff_mem] at h
  obtain ⟨⟨hzero, hhigh⟩, hnot⟩ := h
  have hlt : ch.toNat < 0x80 := UInt8.lt_iff_toNat_lt.mp hhigh
  have hin : ∀ c ∈ (0x2B : Byte) :: 0x25 :: 0x5C :: ascii "?#", c ∈ ascii "?#%+\\" :=
    List.all_iff_forall_prop.mp (by decide)
  have hne : ∀ c ∈ (0x2B : Byte) :: 0x25 :: 0x5C :: ascii "?#", ch ≠ c :=
    fun c hc heq => hnot (heq ▸ hin c hc)
  refine ⟨?_, hlt, hzero, hne _ (by decide), hne _ (by decide), fun hmem => hnot (hin ch ?_)⟩
  · simp [isPlainChar, (and_80_eq_zero_iff ch).mpr hlt, hne 0x2B (by decide), hne 0x25 (by decide)]
  · exact List.mem_cons_of_mem _ (List.mem_cons_of_mem _ (List.mem_cons_of_mem _ hmem))

theorem decodeFrom_all {p : List Byte} (h : ∀ ch ∈ p, isPlainChar ch = true) {fuel : Nat}
    (hfuel : p.length ≤ fuel) (cStrDestA : List Byte) :
    decodeFrom fuel p cStrDestA = .ok (cStrDestA ++ p) := by
  induction p generalizing fuel cStrDestA with
  | nil => cases fuel <;> rw [List.append_nil] <;> rfl
  | cons ch p ih =>
    obtain ⟨hch, hp⟩ := List.forall_mem_cons.mp h
    obtain ⟨fuel, rfl⟩ : ∃ n, fuel = n + 1 := ⟨fuel - 1, by rw [List.length_cons] at hfuel; omega⟩
    rw [decodeFrom_plain hch, ih hp (Nat.le_of_succ_le_succ hfuel), List.append_assoc,
      List.singleton_append]

theorem hasDisallowed_of_not_mem {p : List Byte} (h : (0x25 : Byte) ∉ p) :
    hasDisallowedEscapedSequences p = false := by
  have hfind : ∀ {l : List Byte}, 0 ∉ 0x25 :: l → strNFindA (0x25 :: l) p = false := by
    intro l hzero
    rw [← Bool.not_eq_true]
    intro hfind
    exact h ((isInfix_of_strNFindA hzero hfind).subset List.mem_cons_self)
  simp only [hasDisallowedEscapedSequences, Bool.or_eq_false_iff]
  exact ⟨⟨⟨⟨⟨hfind (by decide), hfind (by decide)⟩, hfind (by decide)⟩, hfind (by decide)⟩,
    hfind (by decide)⟩, hfind (by decide)⟩

/-- A text of such characters is decoded to itself. -/
theorem setPath_of_chars {p : List Byte} (h : ∀ ch ∈ p, isPathByte ch = true) (hne : p ≠ [])
    (szSchemeW : List WChar) :
    setPath p szSchemeW = .ok (normalizePath (widePath p) szSchemeW) := by
  have hpct : (0x25 : Byte) ∉ p := fun hin =>
    (isPlainChar_of_isPathByte (h _ hin)).2.2.2.2.1 rfl
  have hdecode : decode p = .ok p :=
    decodeFrom_all (fun ch hch => (isPlainChar_of_isPathByte (h ch hch)).1) (Nat.le_refl _) []
  have hwide : widePath p ≠ [] := mt List.map_eq_nil_iff.mp hne
  rw [setPath, if_neg hne, hasDisallowed_of_not_mem hpct, if_neg Bool.false_ne_true, decodeText,
    hdecode]
  dsimp only
  rw [utf8Decode_ascii fun ch hch => (isPlainChar_of_isPathByte (h ch hch)).2.1]
  exact congrArg Except.ok (if_neg hwide)

theorem isText_widePath {p : List Byte} (h : ∀ ch ∈ p, isPathByte ch = true) :
    IsText (widePath p) := by
  constructor
  · intro hin
    obtain ⟨ch, hch, h0⟩ := List.mem_map.mp hin
    exact (isPlainChar_of_isPathByte (h ch hch)).2.2.1 (toUInt16_inj.mp h0)
  · intro hin
    obtain ⟨ch, hch, hback⟩ := List.mem_map.mp hin
    exact (isPlainChar_of_isPathByte (h ch hch)).2.2.2.1 (toUInt16_inj.mp hback)

theorem slashed_of_chars {p : List Byte} (h : ∀ ch ∈ p, isPathByte ch = true) :
    pathText.slashed p = p :=
  slashed_eq fun hin => (isPlainChar_of_isPathByte (h _ hin)).2.2.2.1 rfl

/-! ### Parsing -/

theorem parseParams_any {url₀ url : Url} {rest : List Byte} (h : parseParams url₀ rest = .ok url)
    (url' : Url) : ∃ url'', parseParams url' rest = .ok url'' := by
  obtain ⟨⟨query, rest'⟩, hquery, h⟩ := exists_of_bind_ok h
  obtain ⟨fragment, hfragment, -⟩ := exists_of_bind_ok h
  have hany : ∃ f, fragmentPart url'.cStrFragmentW rest' = .ok f := by
    rw [fragmentPart] at hfragment ⊢
    split
    · rename_i hhash
      rw [if_pos hhash] at hfragment
      exact ⟨fragment, hfragment⟩
    · exact ⟨_, rfl⟩
  obtain ⟨f, hf⟩ := hany
  exact ⟨{ url' with cQueryStringsList := query, cStrFragmentW := f }, by
    simp only [parseParams, hquery, hf, bind, Except.bind]⟩

/-- The path of a URL whose other parts are accepted. -/
theorem parsePath_eq {e : UrlEnv} {szSchemeW q r cStrHostW cStrFragmentW : List WChar}
    {cStrTempHostA szWrittenA rest szHostA szUserInfoA : List Byte} {nPort : Option Nat} {url : Url}
    (hclear : Clear (ascii "?#") [] szWrittenA)
    (hrest : rest = [] ∨ charAt rest 0 = 0x3F ∨ charAt rest 0 = 0x23)
    (hset : setPath (pathText szWrittenA) szSchemeW = .ok q)
    (hreduce : reducePath q szSchemeW = .ok r)
    (hsplit : splitHost cStrTempHostA = .ok (szHostA, szUserInfoA, nPort))
    (hhost : setHost e szHostA = .ok cStrHostW)
    (huser : setUserInfo szUserInfoA = .ok cStrFragmentW)
    (hparams : parseParams .reset rest = .ok url) :
    ∃ url', parsePath e ⟨szSchemeW, cStrTempHostA, szWrittenA ++ rest⟩ = .ok url' ∧
      url'.cStrPathW = normalizePath (prependSlash szSchemeW r) szSchemeW := by
  have hrest' : rest = [] ∨ ∃ ch r', rest = ch :: r' ∧ ch ≠ 0 ∧ ch ∈ ascii "?#" := by
    rcases rest with _ | ⟨ch, r'⟩
    · exact Or.inl rfl
    · refine Or.inr ⟨ch, r', rfl, ?_⟩
      rcases hrest with hrest | hrest | hrest
      · cases hrest
      · obtain rfl : ch = 0x3F := hrest
        decide
      · obtain rfl : ch = 0x23 := hrest
        decide
  have hend : pathEnd (szWrittenA ++ rest) = szWrittenA.length := findChar_getD hclear hrest'
  obtain ⟨url', hurl'⟩ := parseParams_any hparams
    ⟨szSchemeW, cStrHostW, prependSlash szSchemeW r, nPort, [], [], cStrFragmentW⟩
  obtain ⟨hscheme, hpath⟩ := parseParams_ok hurl'
  refine ⟨{ url' with cStrPathW := normalizePath url'.cStrPathW url'.cStrSchemeW },
    parsePath_iff.mpr ⟨q, r, _, cStrHostW, cStrFragmentW, url', ?_, hreduce, hsplit, hhost, huser, ?_,
      rfl⟩, ?_⟩
  · rw [hend, List.take_left, hset]
  · rw [hend, List.drop_left, hurl']
  · rw [hpath, hscheme]

/-- The letters whose small ones are those of a scheme. -/
theorem mem_of_lowerA {ch : Byte} (h : lowerA ch ∈ ascii "htps") : ch ∈ ascii "htpsHTPS" := by
  rw [lowerA] at h
  split at h
  · have hback : ch = (ch + 0x20) - 0x20 := (UInt8.add_sub_cancel ch 0x20).symm
    have hall : ∀ c ∈ ascii "htps", c - 0x20 ∈ ascii "htpsHTPS" :=
      List.all_iff_forall_prop.mp (by decide)
    rw [hback]
    exact hall _ h
  · have hall : ∀ c ∈ ascii "htps", c ∈ ascii "htpsHTPS" :=
      List.all_iff_forall_prop.mp (by decide)
    exact hall ch h

/-- A scheme of a server, in letters of both cases. -/
theorem setScheme_http {szSchemeA : List Byte}
    (h : szSchemeA.map lowerA = ascii "http" ∨ szSchemeA.map lowerA = ascii "https") :
    setScheme szSchemeA = .ok (widePath (szSchemeA.map lowerA)) ∧
      Clear (ascii ":") (ascii "@?#/\\") szSchemeA := by
  have hall : ∀ ch ∈ ascii "htpsHTPS", ch ≠ 0 ∧ isAlphaW ch.toUInt16 = true ∧
      lowerW ch.toUInt16 = (lowerA ch).toUInt16 ∧ ch ∉ ascii ":" ∧ ch ∉ ascii "@?#/\\" :=
    List.all_iff_forall_prop.mp (by decide)
  have hletters : ∀ ch ∈ szSchemeA, lowerA ch ∈ ascii "htps" := by
    intro ch hch
    have hin := List.mem_map_of_mem (f := lowerA) hch
    have hhttp : ∀ c ∈ ascii "http", c ∈ ascii "htps" :=
      List.all_iff_forall_prop.mp (by decide)
    have hhttps : ∀ c ∈ ascii "https", c ∈ ascii "htps" :=
      List.all_iff_forall_prop.mp (by decide)
    rcases h with h | h
    · exact hhttp _ (h ▸ hin)
    · exact hhttps _ (h ▸ hin)
  have hfacts : ∀ ch ∈ szSchemeA, ch ≠ 0 ∧ isAlphaW ch.toUInt16 = true ∧
      lowerW ch.toUInt16 = (lowerA ch).toUInt16 ∧ ch ∉ ascii ":" ∧ ch ∉ ascii "@?#/\\" := by
    intro ch hch
    exact hall ch (mem_of_lowerA (hletters ch hch))
  refine ⟨?_, fun ch hch => ⟨(hfacts ch hch).1, (hfacts ch hch).2.2.2⟩⟩
  have hlower : (szSchemeA.map UInt8.toUInt16).map lowerW = widePath (szSchemeA.map lowerA) := by
    rw [widePath, List.map_map, List.map_map]
    exact List.map_congr_left fun ch hch => (hfacts ch hch).2.2.1
  rw [setScheme, szStr_of_ne_zero fun ch hch => (hfacts ch hch).1]
  cases szSchemeA with
  | nil => rcases h with h | h <;> cases h
  | cons ch szSchemeA =>
    obtain ⟨hch, hrest⟩ := List.forall_mem_cons.mp hfacts
    have hscheme : (szSchemeA.map UInt8.toUInt16).all isSchemeChar = true := by
      rw [List.all_eq_true]
      intro x hx
      obtain ⟨c, hc, rfl⟩ := List.mem_map.mp hx
      rw [isSchemeChar, (hrest c hc).2.1]
      rfl
    rw [← hlower]
    simp only [List.map_cons, hch.2.1, hscheme]
    rfl

/-- What there is to say of the scheme of a server. -/
theorem httpScheme_facts {szSchemeA : List Byte}
    (h : szSchemeA.map lowerA = ascii "http" ∨ szSchemeA.map lowerA = ascii "https") :
    (∃ ch r, szSchemeA = ch :: r ∧ ch ≠ 0 ∧ lowerA ch ≠ 0x75) ∧
      scheme2Enum (widePath (szSchemeA.map lowerA)) ∈
        [Scheme.http, .https, .ftp, .webSocket, .secureWebSocket] := by
  obtain ⟨-, hclear⟩ := setScheme_http h
  constructor
  · rcases szSchemeA with _ | ⟨ch, r⟩
    · rcases h with h | h <;> cases h
    · refine ⟨ch, r, rfl, (hclear ch List.mem_cons_self).1, ?_⟩
      rcases h with h | h
      · rw [(List.cons.inj h).1]
        decide
      · rw [(List.cons.inj h).1]
        decide
  · rcases h with h | h
    · rw [h]
      decide
    · rw [h]
      decide

theorem parseFromString_http {szSchemeA : List Byte}
    (h : szSchemeA.map lowerA = ascii "http" ∨ szSchemeA.map lowerA = ascii "https") (e : UrlEnv)
    (szUrlA : List Byte) :
    parseFromString e (szSchemeA ++ ascii "://" ++ szUrlA) =
      parsePath e ⟨widePath (szSchemeA.map lowerA), szUrlA.take (hostEnd szUrlA),
        szUrlA.drop (hostEnd szUrlA)⟩ := by
  obtain ⟨hset, hclear⟩ := setScheme_http h
  obtain ⟨hhead, hcode⟩ := httpScheme_facts h
  exact parseFromString_hostScheme hhead hclear hset hcode e szUrlA

/-! ### What is stored -/

theorem charAt_widePath (p : List Byte) (k : Nat) :
    charAt (widePath p) k = (charAt p k).toUInt16 :=
  charAt_map UInt8.toUInt16 rfl p k

theorem isAlphaW_toUInt16 (ch : Byte) : isAlphaW ch.toUInt16 = isAlphaA ch := by
  simp only [isAlphaW, isAlphaA, UInt16.le_iff_toNat_le, UInt8.le_iff_toNat_le,
    UInt8.toNat_toUInt16]
  rfl

/-- The path, without its slash. -/
theorem IsPlainPath.exists_cons {p : List Byte} (hp : IsPlainPath p) :
    ∃ p', p = 0x2F :: p' ∧ (widePath p').head? ≠ some slashW ∧ Collapsed slashW (widePath p') := by
  cases p with
  | nil => cases hp.slash
  | cons ch p' =>
    have hch : ch.toUInt16 = slashW := Option.some.inj hp.slash
    obtain rfl : ch = 0x2F := toUInt16_inj.mp hch
    exact ⟨p', rfl, fun h => hp.single.1 ⟨rfl, h⟩, hp.single.2⟩

/-- The text of the path that `copy_path` makes. -/
theorem pathText_plain {p : List Byte} (hp : IsPlainPath p) :
    pathText p = if isDriveAt (widePath p) 1 then 0x2F :: charAt p 1 :: 0x3A :: p.drop 1 else p := by
  obtain ⟨p', rfl, hhead, -⟩ := hp.exists_cons
  have hslashes : ((0x2F :: p').takeWhile (· == 0x2F)).length = 1 := by
    rw [List.takeWhile_cons_of_pos rfl]
    cases p' with
    | nil => rfl
    | cons ch p' =>
      have hch : ch ≠ 0x2F := by
        rintro rfl
        exact hhead rfl
      rw [List.takeWhile_cons_of_neg (by simpa using hch)]
      rfl
  have hcolon : ∀ {a b : Byte}, (a.toUInt16 == b.toUInt16) = (a == b) := by
    intro a b
    rw [Bool.eq_iff_iff, beq_iff_eq, beq_iff_eq, toUInt16_inj]
  have hdrive : isDriveAt (widePath (0x2F :: p')) 1 = (isAlphaA (charAt (0x2F :: p') 1) &&
      (charAt (0x2F :: p') 2 == 0x3A || charAt (0x2F :: p') 2 == 0x7C)) := by
    rw [isDriveAt, charAt_widePath, charAt_widePath, isAlphaW_toUInt16,
      show colonW = (0x3A : Byte).toUInt16 from rfl, show pipeW = (0x7C : Byte).toUInt16 from rfl,
      hcolon, hcolon]
  rw [pathText, slashed_of_chars hp.chars, hslashes, hdrive, Bool.and_assoc,
    show (!isEmptyStr (0x2F :: p')) = true from rfl, Bool.true_and]
  rfl

/-- What the parser stores for the path: `q` is set, and no step changes it. -/
def Stores (szSchemeW : List WChar) (szPathA : List Byte) (q : List WChar) : Prop :=
  setPath (pathText szPathA) szSchemeW = .ok q ∧ reducePath q szSchemeW = .ok q ∧
    normalizePath (prependSlash szSchemeW q) szSchemeW = q ∧ 0 ∉ q

theorem stores_front {szSchemeW pre suf : List WChar} {p : List Byte}
    (hfront : Front (canBeFilename szSchemeW) pre suf) (hsuf : Collapsed slashW suf)
    (htext : IsText (pre ++ suf)) (hhead : (pre ++ suf).head? = some slashW)
    (hdots : NoDots (names slashW suf))
    (hset : setPath (pathText p) szSchemeW = .ok (pre ++ suf)) : Stores szSchemeW p (pre ++ suf) := by
  have hne : pre ++ suf ≠ [] := by
    intro hnil
    rw [hnil] at hhead
    cases hhead
  exact ⟨hset, reducePath_noDots hfront hsuf htext hne hdots,
    normalizePath_front hfront hsuf htext hhead, htext.1⟩

theorem normalizePath_text {w : List WChar} (h : IsText w) (szSchemeW : List WChar) :
    normalizePath w szSchemeW = normalizeSlashed (canBeFilename szSchemeW) w := by
  have hnormal := normalizePath_eq (t := []) h.1 rfl szSchemeW
  rwa [List.append_nil, List.append_nil, normalizeText, map_toSlash h] at hnormal

/-- **An ordinary path is stored as it is.** -/
theorem stores_plain {p : List Byte} (hp : IsPlainPath p)
    (hdrive : isDriveAt (widePath p) 1 = false) (szSchemeW : List WChar) :
    Stores szSchemeW p (widePath p) := by
  have htext := isText_widePath hp.chars
  have hbody : isDriveAt (pathBody (widePath p)) 0 = false := by
    obtain ⟨p', rfl, hhead, -⟩ := hp.exists_cons
    have hcons : widePath (0x2F :: p') = slashW :: widePath p' := rfl
    rw [hcons, pathBody_cons_slash, pathBody_of_head hhead]
    exact hdrive
  have hfront : Front (canBeFilename szSchemeW) [] (widePath p) := .plain fun _ => hbody
  have hne : p ≠ [] := by
    rintro rfl
    cases hp.slash
  refine stores_front hfront hp.single htext hp.slash hp.noDots ?_
  rw [pathText_plain hp, hdrive, if_neg Bool.false_ne_true, setPath_of_chars hp.chars hne,
    normalizePath_text htext]
  exact congrArg Except.ok (hfront.normalizeSlashed_eq hp.single)

/-- A drive in front of a name that is left. -/
theorem names_drive {x : WChar} {l : List WChar} (hx : x ≠ slashW) (hdots : NoDots (names slashW l)) :
    NoDots (names slashW (slashW :: x :: colonW :: l)) := by
  have hsplit : x :: colonW :: l =
      (x :: colonW :: l.takeWhile (· != slashW)) ++ l.dropWhile (· != slashW) := by
    rw [List.cons_append, List.cons_append, List.takeWhile_append_dropWhile]
  have hname : slashW ∉ x :: colonW :: l.takeWhile (· != slashW) := by
    simp only [List.mem_cons, not_or]
    exact ⟨Ne.symm hx, by decide, slash_not_mem_takeWhile l⟩
  have hrest : NoDots (names slashW (l.dropWhile (· != slashW))) := by
    have happ : names slashW (l.takeWhile (· != slashW) ++ l.dropWhile (· != slashW)) =
        names slashW (l.takeWhile (· != slashW)) ++ names slashW (l.dropWhile (· != slashW)) :=
      names_append_of_head _ (head_dropWhile l)
    rw [List.takeWhile_append_dropWhile] at happ
    rw [happ, noDots_append] at hdots
    exact hdots.2
  rw [names_cons_self, hsplit, names_append_of_head _ (head_dropWhile l), noDots_append,
    names_of_not_mem hname, if_neg (List.cons_ne_nil _ _)]
  refine ⟨noDots_cons.mpr ⟨⟨?_, ?_⟩, List.not_mem_nil, List.not_mem_nil⟩, hrest⟩
  · intro h
    cases (List.cons.inj h).2
  · intro h
    have hcolon := (List.cons.inj (List.cons.inj h).2).1
    exact absurd hcolon (by decide)

/-- **A path that begins like a drive is stored with the drive before it.** -/
theorem stores_drive {p : List Byte} (hp : IsPlainPath p)
    (hdrive : isDriveAt (widePath p) 1 = true) (szSchemeW : List WChar) :
    ∃ q, Stores szSchemeW p q ∧ q ≠ widePath p := by
  obtain ⟨p', rfl, hhead, hcollapsed⟩ := hp.exists_cons
  obtain ⟨x, c, l, rfl⟩ : ∃ x c l, p' = x :: c :: l := by
    rcases p' with _ | ⟨x, _ | ⟨c, l⟩⟩
    · cases hdrive
    · rw [isDriveAt, Bool.and_eq_true] at hdrive
      cases hdrive.2
    · exact ⟨x, c, l, rfl⟩
  have halpha : isAlphaW x.toUInt16 = true := (Bool.and_eq_true_iff.mp hdrive).1
  have hx : x.toUInt16 ≠ slashW := isAlphaW_ne_slash halpha
  have hcons : widePath (0x2F :: x :: c :: l) = slashW :: widePath (x :: c :: l) := rfl
  have hnames : NoDots (names slashW (widePath (x :: c :: l))) := by
    have hdots := hp.noDots
    rwa [hcons, names_cons_self] at hdots
  -- the text that is set, with the drive in front of the name
  have hpathText : pathText (0x2F :: x :: c :: l) = 0x2F :: x :: 0x3A :: x :: c :: l := by
    rw [pathText_plain hp, hdrive, if_pos rfl]
    rfl
  have hchars : ∀ ch ∈ (0x2F :: x :: 0x3A :: x :: c :: l : List Byte), isPathByte ch = true := by
    have hall := hp.chars
    simp only [List.forall_mem_cons] at hall ⊢
    exact ⟨hall.1, hall.2.1, by decide, hall.2.1, hall.2.2⟩
  have hwide : widePath (0x2F :: x :: 0x3A :: x :: c :: l) =
      slashW :: x.toUInt16 :: colonW :: widePath (x :: c :: l) := rfl
  have htext := isText_widePath hchars
  rw [hwide] at htext
  have hset : setPath (pathText (0x2F :: x :: c :: l)) szSchemeW =
      .ok (normalizeSlashed (canBeFilename szSchemeW)
        (slashW :: x.toUInt16 :: colonW :: widePath (x :: c :: l))) := by
    rw [hpathText, setPath_of_chars hchars (List.cons_ne_nil _ _), hwide, normalizePath_text htext]
  cases hfn : canBeFilename szSchemeW with
  | false =>
    have hsuf : Collapsed slashW (slashW :: x.toUInt16 :: colonW :: widePath (x :: c :: l)) :=
      ⟨fun h => hx (Option.some.inj h.2), fun h => hx h.1, fun h => absurd h.1 (by decide), hcollapsed⟩
    have hfront : Front (canBeFilename szSchemeW) []
        (slashW :: x.toUInt16 :: colonW :: widePath (x :: c :: l)) :=
      .plain fun h => by rw [hfn] at h; cases h
    refine ⟨_, stores_front hfront hsuf htext rfl (names_drive hx hnames) ?_, ?_⟩
    · rw [hset]
      exact congrArg Except.ok (hfront.normalizeSlashed_eq hsuf)
    · intro h
      have hlen := congrArg List.length h
      rw [hcons] at hlen
      simp only [List.nil_append, List.length_cons] at hlen
      omega
  | true =>
    have hfront : Front (canBeFilename szSchemeW) [slashW, x.toUInt16, colonW]
        (widePath (0x2F :: x :: c :: l)) := .drive hfn halpha rfl
    have htext' : IsText ([slashW, x.toUInt16, colonW] ++ widePath (0x2F :: x :: c :: l)) := by
      refine ⟨fun h => ?_, fun h => ?_⟩
      · rcases List.mem_append.mp h with h | h
        · exact htext.1 (List.mem_append_left (widePath (x :: c :: l)) h)
        · exact (isText_widePath hp.chars).1 h
      · rcases List.mem_append.mp h with h | h
        · exact htext.2 (List.mem_append_left (widePath (x :: c :: l)) h)
        · exact (isText_widePath hp.chars).2 h
    refine ⟨_, stores_front hfront hp.single htext' rfl hp.noDots ?_, ?_⟩
    · rw [hset, hfn, normalizeSlashed, Front.head_drive halpha, if_pos]
      · rw [List.drop_succ_cons, List.drop_succ_cons, List.drop_zero, behindSlash, if_neg hhead,
          ← hcons, collapse_of_collapsed hp.single]
        rfl
      · rw [isDriveAt, charAt_cons_zero, charAt_cons_succ, charAt_cons_zero, halpha]
        rfl
    · intro h
      have hlen := congrArg List.length h
      simp only [List.length_append, List.length_cons, List.length_nil] at hlen
      omega

/-! ### The path of a URL -/

theorem clear_of_chars {p : List Byte} (h : ∀ ch ∈ p, isPathByte ch = true) :
    Clear (ascii "?#") [] p := fun ch hch =>
  ⟨(isPlainChar_of_isPathByte (h ch hch)).2.2.1, (isPlainChar_of_isPathByte (h ch hch)).2.2.2.2.2,
    List.not_mem_nil⟩

/-- The path that is stored is the one that `GetPath` gives, whatever text has the path. -/
theorem getPath_of_stores {e : UrlEnv} {p szUrlA : List Byte} (hp : IsPlainPath p)
    (hurl : HasPath e p szUrlA) {Q : List WChar → Prop}
    (hq : ∀ szSchemeW, ∃ q, Stores szSchemeW p q ∧ Q q) :
    ∃ url, parseFromString e szUrlA = .ok url ∧ Q url.getPath := by
  have hgetPath : ∀ {url : Url} {q : List WChar}, url.cStrPathW = q → 0 ∉ q → Q q →
      Q url.getPath := by
    rintro url q rfl hzero hQ
    rw [Url.getPath, szStr_of_ne_zero fun ch hch h0 => hzero (h0 ▸ hch)]
    exact hQ
  cases hurl with
  | path =>
    obtain ⟨q, ⟨hset, hreduce, hlast, hzero⟩, hQ⟩ := hq []
    obtain ⟨url, hparse, hpath⟩ : ∃ url, parsePath e ⟨[], [], p ++ []⟩ = .ok url ∧
        url.cStrPathW = normalizePath (prependSlash [] q) [] :=
      parsePath_eq (clear_of_chars hp.chars) (Or.inl rfl) hset hreduce rfl rfl rfl rfl
    refine ⟨url, ?_, hgetPath (hpath.trans hlast) hzero hQ⟩
    obtain ⟨p', rfl, hhead, -⟩ := hp.exists_cons
    have hslash : ∀ ch ∈ p'.head?, isSlash ch = false := by
      intro ch hch
      have hin : ch ∈ p' := List.mem_of_mem_head? hch
      have hback := (isPlainChar_of_isPathByte (hp.chars ch (List.mem_cons_of_mem _ hin))).2.2.2.1
      have hne : ch ≠ 0x2F := by
        rintro rfl
        refine hhead ?_
        rw [widePath, List.head?_map, Option.mem_def.mp hch]
        rfl
      rw [isSlash, beq_eq_false_iff_ne.mpr hne, beq_eq_false_iff_ne.mpr hback]
      rfl
    have hleave : leaveTwoSlashes (0x2F :: p') = 0x2F :: p' := by
      have hlen : ((0x2F :: p').takeWhile isSlash).length ≤ 2 := by
        cases p' with
        | nil => decide
        | cons ch p' =>
          rw [List.takeWhile_cons_of_pos (by decide),
            List.takeWhile_cons_of_neg (by rw [hslash ch rfl]; exact Bool.false_ne_true)]
          decide
      rw [leaveTwoSlashes, Nat.sub_eq_zero_of_le hlen, List.drop_zero]
    rw [parseFromString, skipUrlPrefix_of_head (by decide) (by decide),
      if_neg (List.cons_ne_nil _ _)]
    have hsplit : splitUrl e (0x2F :: p') = .ok ⟨[], [], 0x2F :: p'⟩ := by
      rw [splitUrl, findChar, if_neg (by decide), if_neg (by decide), if_pos (by decide), hleave]
    rw [hsplit]
    rw [List.append_nil] at hparse
    exact (if_neg (show ¬ isMail [] = true by decide)).trans hparse
  | http hscheme hauthority hsplit hhost huser hwritten hrest hparams =>
    rename_i szSchemeA szAuthorityA szWrittenA rest _ _ _ _ _ _
    have hend : hostEnd (szAuthorityA ++ (szWrittenA ++ rest)) = szAuthorityA.length := by
      rcases hwritten with rfl | ⟨rfl, -, rfl⟩
      · obtain ⟨p', rfl, -, -⟩ := hp.exists_cons
        exact findChar_getD hauthority (Or.inr ⟨0x2F, p' ++ rest, rfl, by decide, by decide⟩)
      · exact findChar_getD hauthority (Or.inl rfl)
    obtain ⟨q, hstores, hQ⟩ := hq (widePath (szSchemeA.map lowerA))
    obtain ⟨r, hclear', hset', hreduce', hlast'⟩ : ∃ r, Clear (ascii "?#") [] szWrittenA ∧
        setPath (pathText szWrittenA) (widePath (szSchemeA.map lowerA)) = .ok r ∧
        reducePath r (widePath (szSchemeA.map lowerA)) = .ok r ∧
        normalizePath (prependSlash (widePath (szSchemeA.map lowerA)) r)
          (widePath (szSchemeA.map lowerA)) = q := by
      rcases hwritten with rfl | ⟨rfl, rfl, -⟩
      · exact ⟨q, clear_of_chars hp.chars, hstores.1, hstores.2.1, hstores.2.2.1⟩
      · -- nothing is stored at first, and the slash is put there
        have hslash := (stores_plain hp rfl (widePath (szSchemeA.map lowerA))).1
        rw [hstores.1] at hslash
        obtain rfl := Except.ok.inj hslash
        refine ⟨[], fun _ h => absurd h List.not_mem_nil, rfl, rfl, ?_⟩
        rcases hscheme with h | h
        · rw [h]
          decide
        · rw [h]
          decide
    obtain ⟨url, hparse, hpath⟩ := parsePath_eq hclear' hrest hset' hreduce' hsplit hhost huser
      hparams
    refine ⟨url, ?_, hgetPath (hpath.trans hlast') hstores.2.2.2 hQ⟩
    have htext : szSchemeA ++ ascii "://" ++ szAuthorityA ++ szWrittenA ++ rest =
        szSchemeA ++ ascii "://" ++ (szAuthorityA ++ (szWrittenA ++ rest)) := by
      simp only [List.append_assoc]
    rw [htext, parseFromString_http hscheme, hend, List.take_left, List.drop_left]
    exact hparse

/-- **A path is left alone** exactly when it does not begin like a drive. -/
theorem keepsPath_iff {e : UrlEnv} {p szUrlA : List Byte} (hp : IsPlainPath p)
    (hurl : HasPath e p szUrlA) :
    KeepsPath e szUrlA p ↔ isDriveAt (widePath p) 1 = false := by
  cases hdrive : isDriveAt (widePath p) 1 with
  | false =>
    refine iff_of_true ?_ rfl
    exact getPath_of_stores (Q := (· = widePath p)) hp hurl fun szSchemeW =>
      ⟨widePath p, stores_plain hp hdrive szSchemeW, rfl⟩
  | true =>
    refine iff_of_false ?_ (fun h => Bool.noConfusion h)
    obtain ⟨url, hparse, hne⟩ := getPath_of_stores (Q := (· ≠ widePath p)) hp hurl
      fun szSchemeW => stores_drive hp hdrive szSchemeW
    rintro ⟨url', hparse', hpath⟩
    rw [hparse] at hparse'
    obtain rfl := Except.ok.inj hparse'
    exact hne hpath

/-- A URL with a colon in a name, and a bar behind a letter. -/
theorem keepsPath_colon : IsPlainPath (ascii "/a/b:c|d") ∧
    HasPath anyHost (ascii "/a/b:c|d") (ascii "HTTP://host:80/a/b:c|d?x=1") ∧
    (KeepsPath anyHost (ascii "HTTP://host:80/a/b:c|d?x=1") (ascii "/a/b:c|d") ↔
      isDriveAt (widePath (ascii "/a/b:c|d")) 1 = false) := by
  have hplain : IsPlainPath (ascii "/a/b:c|d") := by
    refine ⟨List.all_eq_true.mp (by decide), rfl, ?_, ?_⟩
    · simp [Collapsed, widePath, ascii, slashW]
    · constructor <;> decide
  have hscheme : (ascii "HTTP").map lowerA = ascii "http" ∨ (ascii "HTTP").map lowerA = ascii "https" :=
    Or.inl (by decide)
  have hauthority : Clear (ascii "/\\") (ascii "?#") (ascii "host:80") := by
    have hall : ((ascii "host:80").all fun ch => ch != 0 && !(ascii "/\\").contains ch &&
        !(ascii "?#").contains ch) = true := by decide
    intro ch hch
    simpa [and_assoc] using List.all_eq_true.mp hall ch hch
  have hsplit : splitHost (ascii "host:80") = .ok (ascii "host", [], some 80) := by decide
  have hhost : setHost anyHost (ascii "host") = .ok (wide "host") := by decide
  have hparams : parseParams .reset (ascii "?x=1") =
      .ok ⟨[], [], [], none, [(wide "x", wide "1")], [], []⟩ := by decide
  have hurl : HasPath anyHost (ascii "/a/b:c|d") (ascii "HTTP://host:80/a/b:c|d?x=1") :=
    .http hscheme hauthority hsplit hhost rfl (Or.inl rfl) (Or.inr (Or.inl rfl)) hparams
  exact ⟨hplain, hurl, keepsPath_iff hplain hurl⟩

/-- A name of a letter and a colon comes out twice. -/
theorem path_drive_twice : ¬ ∀ (e : UrlEnv) (p szUrlA : List Byte), IsPlainPath p →
    HasPath e p szUrlA → KeepsPath e szUrlA p := by
  intro h
  have hplain : IsPlainPath (ascii "/C:/x") := by
    refine ⟨List.all_eq_true.mp (by decide), rfl, ?_, ?_⟩
    · simp [Collapsed, widePath, ascii, slashW]
    · constructor <;> decide
  obtain ⟨url, hparse, hpath⟩ := h anyHost _ _ hplain .path
  have hurl : parseFromString anyHost (ascii "/C:/x") =
      .ok ⟨[], [], wide "/C:/C:/x", none, [], [], []⟩ := by decide
  rw [hurl] at hparse
  obtain rfl := Except.ok.inj hparse
  exact absurd hpath (by decide)

end MxLib.Http
