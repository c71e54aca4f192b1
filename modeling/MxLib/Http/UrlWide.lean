import MxLib.Http.UrlText

/-!
# Wide URLs

`parseFromStringW` is `CUrl::ParseFromString` for wide strings, a copy of the narrow one with
a few differences: nothing is decoded, a query parameter without a name is passed over, and
one without an equals sign is stored with the number of characters of its value left to
`StrLenW`, which is given what stands behind the separator.  So the text comes with what is
in memory behind its `nSrcLen` characters.

The names of the local host are left open, as they are for narrow strings.
-/

namespace MxLib.Http

/-! ### The prefix -/

/-- The prefixes the source takes for `URL:`, with `TRUE` as the number of characters. -/
def skipUrlPrefixW : Nat → List WChar → List WChar
  | 0, szUrlW => szUrlW
  | fuel + 1, szUrlW =>
    if szUrlW.length ≥ 4 && strNCompareW szUrlW (wide "URL:") 1 true then
      skipUrlPrefixW fuel (szUrlW.drop 4)
    else szUrlW

/-! ### The parts -/

def isSlashW (chW : WChar) : Bool := chW == slashW || chW == backslashW

/-- `FindChar` for wide strings. -/
def findCharW (szToFindW szStopCharW : List WChar) : List WChar → Option Nat
  | [] => none
  | chW :: rest =>
    if chW == 0 then none
    else if szToFindW.contains chW then some 0
    else if szStopCharW.contains chW then none
    else (findCharW szToFindW szStopCharW rest).map (· + 1)

/-- At most two of the slashes at the front stay. -/
def leaveTwoSlashesW (szUrlW : List WChar) : List WChar :=
  szUrlW.drop ((szUrlW.takeWhile isSlashW).length - 2)

/-- A wide URL in its parts: the scheme, the host, and the rest from the path on. -/
structure UrlPartsW where
  cStrSchemeW : List WChar
  cStrTempHostW : List WChar
  rest : List WChar

/-- The host of a URL with this scheme. -/
def splitHostPartW (isLocalHost : List WChar → Bool) (cStrSchemeW szUrlW : List WChar) : UrlPartsW :=
  let szUrlW :=
    if szUrlW.length ≥ 2 && isSlashW (charAt szUrlW 0) && isSlashW (charAt szUrlW 1) then
      szUrlW.drop 2
    else szUrlW
  let nPos := (findCharW (wide "/\\") (wide "?#") szUrlW).getD szUrlW.length
  let cStrTempHostW := szUrlW.take nPos
  if scheme2Enum cStrSchemeW == .file then
    let szUrlW :=
      if !isEmptyStr cStrTempHostW && isLocalHost (szStr cStrTempHostW) then szUrlW.drop nPos
      else szUrlW
    ⟨cStrSchemeW, [], leaveTwoSlashesW szUrlW⟩
  else ⟨cStrSchemeW, cStrTempHostW, szUrlW.drop nPos⟩

/-- The parts of a URL that is not empty. -/
def splitUrlW (isLocalHost : List WChar → Bool) (szUrlW : List WChar) : Except HResult UrlPartsW :=
  match findCharW (wide ":") (wide "@?#/\\") szUrlW with
  | none => .ok ⟨[], [], leaveTwoSlashesW szUrlW⟩
  | some 0 => .error .eFail
  | some nPos =>
    match setSchemeW (szUrlW.take nPos) with
    | .error hRes => .error hRes
    | .ok cStrSchemeW =>
      let szUrlW := szUrlW.drop (nPos + 1)
      if isMail cStrSchemeW then .ok ⟨cStrSchemeW, [], szUrlW⟩
      else .ok (splitHostPartW isLocalHost cStrSchemeW szUrlW)

/-- The text of a path: its backslashes are slashes, and a drive letter at its front
gets another one before it. -/
def pathTextW (szPathW : List WChar) : List WChar :=
  let cStrTempW := convertBackslashes szPathW
  let i := countSlashes cStrTempW
  if !isEmptyStr cStrTempW && isDriveAt cStrTempW i then
    [slashW, charAt cStrTempW i, colonW] ++ deleteStr cStrTempW 0 i
  else cStrTempW

/-- Where the path of a URL ends in `rest`. -/
def pathEndW (rest : List WChar) : Nat := (findCharW (wide "?#") [] rest).getD rest.length

/-- The digits of a port. -/
def parsePortW : Nat → List WChar → Except HResult Nat
  | nPort, [] => if nPort < 1 then .error .eFail else .ok nPort
  | nPort, chW :: sW =>
    if 0x30 ≤ chW && chW ≤ 0x39 then
      if nPort * 10 + (chW.toNat - 0x30) > 65535 then .error .eFail
      else parsePortW (nPort * 10 + (chW.toNat - 0x30)) sW
    else if chW != 0 || nPort < 1 then .error .eFail
    else .ok nPort

/-- The host, the user info and the port. -/
def splitHostW (cStrTempHostW : List WChar) :
    Except HResult (List WChar × List WChar × Option Nat) :=
  if isEmptyStr cStrTempHostW then .ok (cStrTempHostW, [], none)
  else
    match findCharW (wide "@") [] cStrTempHostW with
    | some 0 => .error .eFail
    | nPos =>
      let cStrTempUserInfoW := cStrTempHostW.take (nPos.getD 0)
      let cStrTempHostW := cStrTempHostW.drop ((nPos.map (· + 1)).getD 0)
      match findCharW (wide ":") [] cStrTempHostW with
      | some 0 => .error .eFail
      | none => .ok (cStrTempHostW, cStrTempUserInfoW, none)
      | some nPos =>
        match parsePortW 0 (cStrTempHostW.drop (nPos + 1)) with
        | .error hRes => .error hRes
        | .ok nPort => .ok (cStrTempHostW.take nPos, cStrTempUserInfoW, some nPort)

/-! ### The query parameters and the fragment -/

/-- What `AddQueryString` stores of a parameter of `nPos` characters, if it is called.
Where there is no equals sign the value is what `StrLenW` finds behind the separator. -/
def queryItemW (szUrlW behind : List WChar) (nPos : Nat) : Option (List WChar × List WChar) :=
  let item := szUrlW.take nPos
  let i := (findCharW (wide "=") [] item).getD nPos
  if i > 0 then
    some (item.take i,
      if i < nPos then item.drop (i + 1) else szStr ((szUrlW ++ behind).drop (i + 1)))
  else none

/-- The loop over the query parameters, with at most `fuel` of them left: the
parameters and the rest. -/
def parseQueryW (behind : List WChar) : Nat → List WChar → List (List WChar × List WChar) →
    List (List WChar × List WChar) × List WChar
  | 0, szUrlW, query => (query, szUrlW)
  | fuel + 1, szUrlW, query =>
    match szUrlW with
    | [] => (query, [])
    | chW :: rest =>
      if chW == 0 then (query, szUrlW)
      else
        let nPos := (findCharW (wide "#&") [] szUrlW).getD szUrlW.length
        if nPos = 0 then
          if chW == 0x26 then parseQueryW behind fuel rest query else (query, szUrlW)
        else
          parseQueryW behind fuel (szUrlW.drop nPos)
            (query ++ (queryItemW szUrlW behind nPos).toList)

/-- The query parameters, if there are any, and the rest. -/
def queryPartW (rest behind : List WChar) : List (List WChar × List WChar) × List WChar :=
  if charAt rest 0 == 0x3F then parseQueryW behind rest.length (rest.drop 1) [] else ([], rest)

/-- The fragment, if there is one; otherwise `cStrFragmentW` stays. -/
def fragmentPartW (cStrFragmentW rest : List WChar) : List WChar :=
  if charAt rest 0 == 0x23 then rest.drop 1 else cStrFragmentW

/-- The query parameters and the fragment. -/
def parseParamsW (url : Url) (rest behind : List WChar) : Url :=
  let (cQueryStringsList, rest) := queryPartW rest behind
  { url with
    cQueryStringsList := cQueryStringsList
    cStrFragmentW := fragmentPartW url.cStrFragmentW rest }

/-! ### Parsing -/

/-- A URL with an address. -/
def parseMailW (parts : UrlPartsW) (behind : List WChar) : Except HResult Url := do
  let e := urlEnv fun _ => false -- the local host is not asked for
  let cStrPathW ← checkMail e parts.cStrSchemeW (parts.rest.take (pathEndW parts.rest))
  .ok (parseParamsW ⟨parts.cStrSchemeW, [], cStrPathW, none, [], [], []⟩
    (parts.rest.drop (pathEndW parts.rest)) behind)

/-- A URL with a path.  `SetUserInfo` stores what it is given as the fragment. -/
def parsePathW (parts : UrlPartsW) (behind : List WChar) : Except HResult Url := do
  let cStrPathW := setPathW (pathTextW (parts.rest.take (pathEndW parts.rest))) parts.cStrSchemeW
  let cStrPathW ← reducePath cStrPathW parts.cStrSchemeW
  let (cStrTempHostW, cStrTempUserInfoW, nPort) ← splitHostW parts.cStrTempHostW
  let cStrPathW := prependSlash parts.cStrSchemeW cStrPathW
  let cStrHostW ← setHostW (szStr cStrTempHostW)
  let url := parseParamsW ⟨parts.cStrSchemeW, cStrHostW, cStrPathW, nPort, [], [], cStrTempUserInfoW⟩
    (parts.rest.drop (pathEndW parts.rest)) behind
  .ok { url with cStrPathW := normalizePath url.cStrPathW url.cStrSchemeW }

/-- **What a wide URL with a path is parsed to.** -/
theorem parsePathW_iff {parts : UrlPartsW} {behind : List WChar} {url : Url} :
    parsePathW parts behind = .ok url ↔ ∃ R x cStrHostW,
      reducePath (setPathW (pathTextW (parts.rest.take (pathEndW parts.rest))) parts.cStrSchemeW)
        parts.cStrSchemeW = .ok R ∧
      splitHostW parts.cStrTempHostW = .ok x ∧ setHostW (szStr x.1) = .ok cStrHostW ∧
      url = { parseParamsW ⟨parts.cStrSchemeW, cStrHostW, prependSlash parts.cStrSchemeW R, x.2.2, [], [],
          x.2.1⟩ (parts.rest.drop (pathEndW parts.rest)) behind with
        cStrPathW := normalizePath (prependSlash parts.cStrSchemeW R) parts.cStrSchemeW } := by
  constructor
  · intro h
    obtain ⟨R, hreduce, h⟩ := exists_of_bind_ok h
    obtain ⟨x, hsplit, h⟩ := exists_of_bind_ok h
    obtain ⟨cStrHostW, hset, h⟩ := exists_of_bind_ok h
    exact ⟨R, x, cStrHostW, hreduce, hsplit, hset, (Except.ok.inj h).symm⟩
  · rintro ⟨R, x, cStrHostW, hreduce, hsplit, hset, rfl⟩
    simp only [parsePathW, hreduce, hsplit, hset, bind, Except.bind]
    rfl

/-- `ParseFromString(szUrlW, nSrcLen)`, where `behind` is what stands in memory behind the
`nSrcLen` characters. -/
def parseFromStringW (isLocalHost : List WChar → Bool) (szUrlW behind : List WChar) :
    Except HResult Url :=
  let szUrlW := skipUrlPrefixW szUrlW.length szUrlW
  if szUrlW = [] then .ok .reset
  else
    match splitUrlW isLocalHost szUrlW with
    | .error hRes => .error hRes
    | .ok parts =>
      if isMail parts.cStrSchemeW then parseMailW parts behind else parsePathW parts behind

/-! ### The prefix that is passed over -/

/-- A loop that takes blocks of four characters away leaves `t` behind the blocks, unless it
takes another block from `t`. -/
theorem skipBlocks_iff {α : Type} {f : Nat → List α → List α} {test : List α → Bool}
    (hzero : ∀ s, f 0 s = s)
    (hsucc : ∀ n s, f (n + 1) s = if s.length ≥ 4 && test s then f n (s.drop 4) else s)
    {blocks : List (List α)} (hblocks : ∀ p ∈ blocks, p.length = 4 ∧ ∀ r, test (p ++ r) = true)
    {t : List α} : ∀ {fuel : Nat}, (blocks.flatten ++ t).length ≤ fuel →
      (f fuel (blocks.flatten ++ t) = t ↔ ¬ (4 ≤ t.length ∧ test t = true)) := by
  have hle : ∀ n s, (f n s).length ≤ s.length := by
    intro n
    induction n with
    | zero => intro s; exact Nat.le_of_eq (congrArg List.length (hzero s))
    | succ n ih =>
      intro s
      rw [hsucc]
      split
      · exact Nat.le_trans (ih _) (by rw [List.length_drop]; omega)
      · exact Nat.le_refl _
  induction blocks with
  | nil =>
    intro fuel hfuel
    rw [List.flatten_nil, List.nil_append] at hfuel ⊢
    by_cases htaken : 4 ≤ t.length ∧ test t = true
    · obtain ⟨fuel, rfl⟩ : ∃ n, fuel = n + 1 := ⟨fuel - 1, by omega⟩
      rw [hsucc, if_pos (by simp [htaken])]
      refine iff_of_false (fun heq => ?_) (not_not_intro htaken)
      have hlen := hle fuel (t.drop 4)
      rw [heq, List.length_drop] at hlen
      omega
    · refine iff_of_true ?_ htaken
      cases fuel with
      | zero => exact hzero t
      | succ fuel => rw [hsucc, if_neg (by simpa using htaken)]
  | cons p blocks ih =>
    intro fuel hfuel
    obtain ⟨⟨hlen, htest⟩, hblocks⟩ := List.forall_mem_cons.mp hblocks
    rw [List.flatten_cons, List.append_assoc] at hfuel ⊢
    rw [List.length_append, hlen] at hfuel
    obtain ⟨fuel, rfl⟩ : ∃ n, fuel = n + 1 := ⟨fuel - 1, by omega⟩
    rw [hsucc, if_pos, List.drop_left' hlen]
    · exact ih hblocks (by omega)
    · rw [htest, Bool.and_true, decide_eq_true_iff, List.length_append]
      omega

/-- Only the first character is compared. -/
theorem strNCompareA_url (szUrlA : List Byte) : strNCompareA szUrlA (ascii "URL:") 1 true = true ↔
    szUrlA.head? = some 0x75 ∨ szUrlA.head? = some 0x55 := by
  cases szUrlA with
  | nil => decide
  | cons ch rest =>
    have hhead : strNCompareA (ch :: rest) (ascii "URL:") 1 true = (lowerA ch == 0x75) := by
      by_cases hzero : ch = 0
      · subst hzero
        rfl
      · simp [strNCompareA, szStr, hzero, ascii, lowerA]
    rw [hhead, beq_iff_eq, lowerA_eq_iff (by decide) (by decide), List.head?_cons, Option.some.injEq,
      Option.some.injEq]
    rfl

theorem strNCompareW_url (szUrlW : List WChar) : strNCompareW szUrlW (wide "URL:") 1 true = true ↔
    szUrlW.head? = some 0x75 ∨ szUrlW.head? = some 0x55 := by
  cases szUrlW with
  | nil => decide
  | cons ch rest =>
    have hhead : strNCompareW (ch :: rest) (wide "URL:") 1 true = (lowerW ch == 0x75) := by
      by_cases hzero : ch = 0
      · subst hzero
        rfl
      · simp [strNCompareW, szStr, hzero, wide, lowerW]
    rw [hhead, beq_iff_eq, lowerW_eq_iff (by decide) (by decide), List.head?_cons, Option.some.injEq,
      Option.some.injEq]
    rfl

/-- **What is passed over in front of a URL**: the prefixes `url:`, and no more than those where
the rest is short or begins with another letter. -/
theorem skipUrlPrefix_iff (prefixesA : List (List Byte)) (tA : List Byte)
    (prefixesW : List (List WChar)) (tW : List WChar) :
    ((∀ p ∈ prefixesA, p.map lowerA = ascii "url:") → (tA.take 4).map lowerA ≠ ascii "url:" →
      (skipUrlPrefix (prefixesA.flatten ++ tA).length (prefixesA.flatten ++ tA) = tA ↔
        ¬ (4 ≤ tA.length ∧ (tA.head? = some 0x75 ∨ tA.head? = some 0x55)))) ∧
    ((∀ p ∈ prefixesW, p.map lowerW = wide "url:") → (tW.take 4).map lowerW ≠ wide "url:" →
      (skipUrlPrefixW (prefixesW.flatten ++ tW).length (prefixesW.flatten ++ tW) = tW ↔
        ¬ (4 ≤ tW.length ∧ (tW.head? = some 0x75 ∨ tW.head? = some 0x55)))) := by
  constructor
  · intro hprefixes _
    rw [← strNCompareA_url]
    refine @skipBlocks_iff _ skipUrlPrefix (strNCompareA · (ascii "URL:") 1 true) (fun _ => rfl)
      (fun _ _ => rfl) prefixesA (fun p hp => ?_) tA _ (Nat.le_refl _)
    have hlower := hprefixes p hp
    have hlen : p.length = 4 := by rw [← List.length_map, hlower]; rfl
    obtain ⟨ch, p, rfl⟩ := List.exists_cons_of_length_pos (Nat.lt_of_lt_of_eq (by decide) hlen.symm)
    refine ⟨hlen, fun r => (strNCompareA_url _).mpr ?_⟩
    rw [List.cons_append, List.head?_cons, Option.some.injEq, Option.some.injEq]
    exact (lowerA_eq_iff (by decide) (by decide)).mp (List.cons.inj hlower).1
  · intro hprefixes _
    rw [← strNCompareW_url]
    refine @skipBlocks_iff _ skipUrlPrefixW (strNCompareW · (wide "URL:") 1 true) (fun _ => rfl)
      (fun _ _ => rfl) prefixesW (fun p hp => ?_) tW _ (Nat.le_refl _)
    have hlower := hprefixes p hp
    have hlen : p.length = 4 := by rw [← List.length_map, hlower]; rfl
    obtain ⟨ch, p, rfl⟩ := List.exists_cons_of_length_pos (Nat.lt_of_lt_of_eq (by decide) hlen.symm)
    refine ⟨hlen, fun r => (strNCompareW_url _).mpr ?_⟩
    rw [List.cons_append, List.head?_cons, Option.some.injEq, Option.some.injEq]
    exact (lowerW_eq_iff (by decide) (by decide)).mp (List.cons.inj hlower).1

theorem skipUrlPrefix_twice :
    skipUrlPrefix 13 (ascii "url:URL:a/b/c") = ascii "a/b/c" ∧
      skipUrlPrefixW 13 (wide "url:URL:a/b/c") = wide "a/b/c" :=
  have hskip := skipUrlPrefix_iff [ascii "url:", ascii "URL:"] (ascii "a/b/c")
    [wide "url:", wide "URL:"] (wide "a/b/c")
  ⟨(hskip.1 (by decide) (by decide)).mpr (by decide),
    (hskip.2 (by decide) (by decide)).mpr (by decide)⟩

/-- A relative reference that loses its beginning. -/
theorem skipUrlPrefix_users : ¬ ∀ t : List Byte, (t.take 4).map lowerA ≠ ascii "url:" →
    skipUrlPrefix t.length t = t := by
  intro h
  have hskip := h (ascii "users/list") (by decide)
  revert hskip
  decide

end MxLib.Http
