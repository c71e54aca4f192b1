import MxLib.Http.UrlComponents

/-!
# Reading a URL back

`ParseFromString` of what `ToString` writes.  The components behind the host are always
read back.  A mail address is not written at all, and a port only behind a host.  The host
is copied as it is, so it is read back when it has none of the characters that end it or
cut it, and the narrow `SetHost` takes it; the wide one may have stored another.
-/

namespace MxLib.Http

open MxLib.Library.Unicode

/-! ### Schemes -/

/-- A scheme of the table, as it is written. -/
structure SchemeText (szSchemeA : List Byte) : Prop where
  head : ∃ ch r, szSchemeA = ch :: r ∧ ch ≠ 0 ∧ lowerA ch ≠ 0x75
  clear : Clear (ascii ":") (ascii "@?#/\\") szSchemeA
  setScheme : setScheme szSchemeA = .ok (szSchemeA.map UInt8.toUInt16)

/-- A scheme that is followed by a host. -/
structure HostScheme (szSchemeA : List Byte) : Prop extends SchemeText szSchemeA where
  code : scheme2Enum (szSchemeA.map UInt8.toUInt16) ∈
    [Scheme.http, .https, .ftp, .webSocket, .secureWebSocket]

theorem clear_scheme {l : List Byte} (h : (l.all fun ch => ch != 0 && !(ascii ":").contains ch &&
    !(ascii "@?#/\\").contains ch) = true) : Clear (ascii ":") (ascii "@?#/\\") l := by
  intro ch hch
  have hall := List.all_eq_true.mp h ch hch
  simpa [and_assoc] using hall

theorem schemeText_mailTo : SchemeText (ascii "mailto") :=
  ⟨⟨_, _, rfl, by decide, by decide⟩, clear_scheme (by decide), by decide⟩

def hostSchemes : List (List Byte) := [ascii "http", ascii "https", ascii "ftp", ascii "ws", ascii "wss"]

theorem hostScheme_of_mem {szSchemeA : List Byte} (h : szSchemeA ∈ hostSchemes) :
    HostScheme szSchemeA := by
  simp only [hostSchemes, List.mem_cons, List.not_mem_nil, or_false] at h
  rcases h with rfl | rfl | rfl | rfl | rfl
  · exact ⟨⟨⟨_, _, rfl, by decide, by decide⟩, clear_scheme (by decide), by decide⟩, by decide⟩
  · exact ⟨⟨⟨_, _, rfl, by decide, by decide⟩, clear_scheme (by decide), by decide⟩, by decide⟩
  · exact ⟨⟨⟨_, _, rfl, by decide, by decide⟩, clear_scheme (by decide), by decide⟩, by decide⟩
  · exact ⟨⟨⟨_, _, rfl, by decide, by decide⟩, clear_scheme (by decide), by decide⟩, by decide⟩
  · exact ⟨⟨⟨_, _, rfl, by decide, by decide⟩, clear_scheme (by decide), by decide⟩, by decide⟩

theorem skipUrlPrefix_of_head {ch : Byte} (hzero : ch ≠ 0) (h : lowerA ch ≠ 0x75) (fuel : Nat)
    (rest : List Byte) : skipUrlPrefix fuel (ch :: rest) = ch :: rest := by
  cases fuel with
  | zero => rfl
  | succ fuel =>
    have hcmp : strNCompareA (ch :: rest) (ascii "URL:") 1 true = false := by
      have hszStr : (szStr (ch :: rest)).take 1 = [ch] := by
        rw [szStr, List.takeWhile_cons, if_pos (by simpa using hzero), List.take_succ_cons,
          List.take_zero]
      rw [strNCompareA, hszStr]
      simpa [szStr, ascii, lowerA] using h
    rw [skipUrlPrefix, hcmp, Bool.and_false, if_neg Bool.false_ne_true]

/-- A URL with a scheme. -/
theorem parseFromString_setScheme {szSchemeA : List Byte} {szSchemeW : List WChar}
    (hhead : ∃ ch r, szSchemeA = ch :: r ∧ ch ≠ 0 ∧ lowerA ch ≠ 0x75)
    (hclear : Clear (ascii ":") (ascii "@?#/\\") szSchemeA)
    (hset : setScheme szSchemeA = .ok szSchemeW) (e : UrlEnv) (szUrlA : List Byte) :
    parseFromString e (szSchemeA ++ 0x3A :: szUrlA) =
      if isMail szSchemeW then parseMail e ⟨szSchemeW, [], szUrlA⟩
      else
        match splitHostPart e szSchemeW szUrlA with
        | parts => if isMail parts.cStrSchemeW then parseMail e parts else parsePath e parts := by
  obtain ⟨ch, r, hcons, hzero, hlower⟩ := hhead
  have hskip : ∀ fuel, skipUrlPrefix fuel (szSchemeA ++ 0x3A :: szUrlA) =
      szSchemeA ++ 0x3A :: szUrlA := by
    intro fuel
    rw [hcons]
    exact skipUrlPrefix_of_head hzero hlower fuel _
  have hne : szSchemeA ++ 0x3A :: szUrlA ≠ [] :=
    List.append_ne_nil_of_right_ne_nil _ (List.cons_ne_nil _ _)
  have hpos : szSchemeA.length ≠ 0 := by
    rw [hcons]
    exact Nat.succ_ne_zero _
  have hfind : findChar _ _ (szSchemeA ++ 0x3A :: szUrlA) = some szSchemeA.length :=
    findChar_append_cons hclear (by decide) (by decide) szUrlA
  have htake : (szSchemeA ++ 0x3A :: szUrlA).take szSchemeA.length = szSchemeA := List.take_left
  have hdrop : (szSchemeA ++ 0x3A :: szUrlA).drop (szSchemeA.length + 1) = szUrlA :=
    drop_append_cons _ _ _
  obtain ⟨n, hn⟩ := Nat.exists_eq_add_one_of_ne_zero hpos
  rw [hn] at hfind htake hdrop
  have hsplit : splitUrl e (szSchemeA ++ 0x3A :: szUrlA) =
      if isMail szSchemeW then .ok ⟨szSchemeW, [], szUrlA⟩
      else .ok (splitHostPart e szSchemeW szUrlA) := by
    simp [splitUrl, hfind, htake, hset, hdrop]
  rw [parseFromString, hskip, if_neg hne, hsplit]
  by_cases hmail : isMail szSchemeW = true
  · rw [if_pos hmail, if_pos hmail]
    dsimp only
    rw [if_pos hmail]
  · rw [if_neg hmail, if_neg hmail]

theorem parseFromString_scheme {szSchemeA : List Byte} (h : SchemeText szSchemeA) (e : UrlEnv)
    (szUrlA : List Byte) :
    parseFromString e (szSchemeA ++ 0x3A :: szUrlA) =
      if isMail (szSchemeA.map UInt8.toUInt16) then
        parseMail e ⟨szSchemeA.map UInt8.toUInt16, [], szUrlA⟩
      else
        match splitHostPart e (szSchemeA.map UInt8.toUInt16) szUrlA with
        | parts => if isMail parts.cStrSchemeW then parseMail e parts else parsePath e parts :=
  parseFromString_setScheme h.head h.clear h.setScheme e szUrlA

/-- Where the host ends. -/
def hostEnd (szUrlA : List Byte) : Nat :=
  (findChar (ascii "/\\") (ascii "?#") szUrlA).getD szUrlA.length

/-- The scheme of a server is none of an address or of a file. -/
theorem serverScheme_facts {szSchemeW : List WChar}
    (hcode : scheme2Enum szSchemeW ∈ [Scheme.http, .https, .ftp, .webSocket, .secureWebSocket]) :
    isMail szSchemeW = false ∧ scheme2Enum szSchemeW ≠ .mailTo ∧ scheme2Enum szSchemeW ≠ .file ∧
      canBeFilename szSchemeW = false := by
  rw [isMail, canBeFilename]
  generalize scheme2Enum szSchemeW = code at hcode
  simp only [List.mem_cons, List.not_mem_nil, or_false] at hcode
  rcases hcode with rfl | rfl | rfl | rfl | rfl <;> exact ⟨rfl, by decide, by decide, rfl⟩

/-- **A URL with a host is split at its end.** -/
theorem parseFromString_hostScheme {szSchemeA : List Byte} {szSchemeW : List WChar}
    (hhead : ∃ ch r, szSchemeA = ch :: r ∧ ch ≠ 0 ∧ lowerA ch ≠ 0x75)
    (hclear : Clear (ascii ":") (ascii "@?#/\\") szSchemeA)
    (hset : setScheme szSchemeA = .ok szSchemeW)
    (hcode : scheme2Enum szSchemeW ∈ [Scheme.http, .https, .ftp, .webSocket, .secureWebSocket])
    (e : UrlEnv) (szUrlA : List Byte) :
    parseFromString e (szSchemeA ++ ascii "://" ++ szUrlA) =
      parsePath e ⟨szSchemeW, szUrlA.take (hostEnd szUrlA), szUrlA.drop (hostEnd szUrlA)⟩ := by
  have htext : szSchemeA ++ ascii "://" ++ szUrlA = szSchemeA ++ 0x3A :: 0x2F :: 0x2F :: szUrlA := by
    rw [List.append_assoc]
    rfl
  obtain ⟨hmail, -, hnotFile, -⟩ := serverScheme_facts hcode
  have hfile : (scheme2Enum szSchemeW == Scheme.file) = false := beq_eq_false_iff_ne.mpr hnotFile
  have hhost : splitHostPart e szSchemeW (0x2F :: 0x2F :: szUrlA) =
      ⟨szSchemeW, szUrlA.take (hostEnd szUrlA), szUrlA.drop (hostEnd szUrlA)⟩ := by
    have hslashes : ((0x2F :: 0x2F :: szUrlA).length ≥ 2 && isSlash (charAt (0x2F :: 0x2F :: szUrlA) 0) &&
        isSlash (charAt (0x2F :: 0x2F :: szUrlA) 1)) = true := by
      simp [isSlash]
    rw [splitHostPart, if_pos hslashes, hfile, if_neg Bool.false_ne_true]
    rfl
  rw [htext, parseFromString_setScheme hhead hclear hset, hmail, if_neg Bool.false_ne_true, hhost]
  dsimp only
  rw [hmail, if_neg Bool.false_ne_true]

theorem parseFromString_host {szSchemeA : List Byte} (h : HostScheme szSchemeA) (e : UrlEnv)
    (szUrlA : List Byte) :
    parseFromString e (szSchemeA ++ ascii "://" ++ szUrlA) =
      parsePath e ⟨szSchemeA.map UInt8.toUInt16, szUrlA.take (hostEnd szUrlA),
        szUrlA.drop (hostEnd szUrlA)⟩ :=
  parseFromString_hostScheme h.head h.clear h.setScheme h.code e szUrlA

/-! ### What is written -/

def portEncoded : Option Nat → List Byte
  | none => []
  | some nPort => 0x3A :: decimal nPort

/-- The host and the port. -/
def hostEncoded (url : Url) : List Byte :=
  if url.cStrHostW = [] then [] else url.cStrHostW.map UInt16.toUInt8 ++ portEncoded url.nPort

/-- What is written behind the host. -/
def restEncoded (url : Url) : List Byte :=
  encoded (ascii "/") url.cStrPathW ++
    (queryEncoded 0x3F url.cQueryStringsList ++ fragmentEncoded url.cStrFragmentW)

/-- The components that setters store. -/
structure Url.Stored (url : Url) : Prop where
  path : IsUrlPath url.cStrPathW url.cStrSchemeW
  host : IsKeptText url.cStrHostW
  ascii : ∀ ch ∈ url.cStrHostW, ch < 0x80
  port : ∀ nPort, url.nPort = some nPort → 1 ≤ nPort ∧ nPort ≤ 65535
  query : ∀ item ∈ url.cQueryStringsList, IsItem item
  fragment : IsKeptText url.cStrFragmentW
  userInfo : url.cStrUserInfoW = []

/-- An ASCII text has no code points to encode. -/
theorem punycode_ascii {s : List WChar} (hkept : IsKeptText s) (h : ∀ ch ∈ s, ch < 0x80) :
    Punycode.encode s = .ok (s.map UInt16.toUInt8) := by
  have hlt : ∀ ch ∈ s, ch.toNat < 128 := fun ch hch => UInt16.lt_iff_toNat_lt.mp (h ch hch)
  have hchars : Punycode.wideChars s = s.map UInt16.toNat := by
    refine Punycode.wideChars_eq_map (List.any_eq_false.mpr fun u hu => ?_)
    have hlt := hlt u hu
    rw [Punycode.isSurrogate, Bool.or_eq_true, isHighSurrogate_iff, isLowSurrogate_iff]
    omega
  have hzero : (s.map UInt16.toNat).contains 0 = false := by
    rw [← Bool.not_eq_true, List.contains_iff_mem, List.mem_map]
    rintro ⟨u, hu, h0⟩
    exact (hkept u hu).1 (UInt16.toNat_inj.mp h0)
  have hbasic : Punycode.basicChars (s.map UInt16.toNat) = s.map UInt16.toUInt8 := by
    rw [Punycode.basicChars, List.filter_eq_self.mpr]
    · rw [List.map_map]
      rfl
    · intro c hc
      obtain ⟨ch, hch, rfl⟩ := List.mem_map.mp hc
      exact decide_eq_true (hlt ch hch)
  have hlen : (s.map UInt16.toUInt8).length = s.length := List.length_map _
  have hloop : ∀ fuel n st, st.h = s.length →
      Punycode.encodeFrom (s.map UInt16.toNat) s.length s.length fuel n st = .ok st := by
    intro fuel n st hst
    cases fuel with
    | zero => rfl
    | succ fuel => rw [Punycode.encodeFrom, if_neg (by omega)]
  rw [Punycode.encode, hchars]
  dsimp only
  rw [hzero, if_neg Bool.false_ne_true, hbasic, hlen, hloop _ _ _ rfl]
  exact congrArg Except.ok (if_neg (by rw [hlen]; exact Nat.lt_irrefl _))

theorem portText_eq (url : Url) : portText url addAll = portEncoded url.nPort := by
  rw [portText]
  cases url.nPort <;> rfl

/-- The bytes of a host. -/
theorem ne_zero_of_mem_host {url : Url} (h : url.Stored) {ch : Byte}
    (hch : ch ∈ url.cStrHostW.map UInt16.toUInt8) : ch ≠ 0 := by
  obtain ⟨u, hu, rfl⟩ := List.mem_map.mp hch
  have hlt : u.toNat < 0x80 := UInt16.lt_iff_toNat_lt.mp (h.ascii u hu)
  intro h0
  refine (h.host u hu).1 (UInt16.toNat_inj.mp ?_)
  have hnat := congrArg UInt8.toNat h0
  rw [UInt16.toNat_toUInt8, Nat.mod_eq_of_lt (by omega)] at hnat
  exact hnat

theorem hostPart_eq {url : Url} (h : url.Stored)
    (hfile : (scheme2Enum url.cStrSchemeW != .file) = true) :
    hostPart url addAll = .ok (hostEncoded url) := by
  have huser : isEmptyStr url.cStrUserInfoW = true := by rw [h.userInfo]; rfl
  rw [hostPart, hostEncoded]
  by_cases hnil : url.cStrHostW = []
  · rw [if_pos hnil, hnil]
    rfl
  · have hempty : isEmptyStr url.cStrHostW = false :=
      isEmptyStr_of_ne_zero (fun ch hch => (h.host ch hch).1) hnil
    rw [if_neg hnil, if_pos (by rw [hempty, hfile]; rfl), huser, punycode_ascii h.host h.ascii,
      portText_eq]
    change Except.ok ([] ++ szStr (url.cStrHostW.map UInt16.toUInt8) ++ _) = _
    rw [szStr_of_ne_zero fun ch hch => ne_zero_of_mem_host h hch, List.nil_append]

/-- A scheme of bytes, as it is written. -/
theorem schemeText {szSchemeA : List Byte} (hzero : ∀ ch ∈ szSchemeA, ch ≠ 0) :
    (szStr (szSchemeA.map UInt8.toUInt16)).map UInt16.toUInt8 = szSchemeA := by
  rw [szStr_of_ne_zero, List.map_map]
  · refine (List.map_congr_left fun ch _ => ?_).trans (List.map_id _)
    exact UInt8.toNat_inj.mp (by simp)
  · intro ch hch h0
    obtain ⟨c, hc, rfl⟩ := List.mem_map.mp hch
    exact hzero c hc (show c = 0 from toUInt16_inj.mp h0)

/-- **The text of a URL with a host.** -/
theorem toString_host {url : Url} (h : url.Stored) {szSchemeA : List Byte}
    (hscheme : HostScheme szSchemeA) (heq : url.cStrSchemeW = szSchemeA.map UInt8.toUInt16) :
    url.toString addAll = .ok (szSchemeA ++ ascii "://" ++ (hostEncoded url ++ restEncoded url)) := by
  have hcode := hscheme.code
  rw [← heq] at hcode
  have hfile : (scheme2Enum url.cStrSchemeW != .file) = true :=
    bne_iff_ne.mpr (serverScheme_facts hcode).2.2.1
  have htext : (szStr url.cStrSchemeW).map UInt16.toUInt8 = szSchemeA := by
    rw [heq]
    exact schemeText fun ch hch => (hscheme.clear ch hch).1
  have hfront : frontText url addAll =
      .ok (szSchemeA ++ ascii "://" ++ hostEncoded url ++ encoded (ascii "/") url.cStrPathW) := by
    rw [frontText]
    split
    · rename_i hnone
      rw [hnone] at hcode
      exact absurd hcode (by decide)
    · rename_i hmail
      rw [hmail] at hcode
      exact absurd hcode (by decide)
    · rename_i hnews
      rw [hnews] at hcode
      exact absurd hcode (by decide)
    · rw [hostPart_eq h hfile, pathPart_eq h.path, htext]
      rfl
  rw [Url.toString, hfront]
  change (do
    let queryA ← queryText 0x3F url.cQueryStringsList
    let fragmentA ← fragmentText url.cStrFragmentW
    Except.ok (_ ++ queryA ++ fragmentA)) = _
  rw [queryText_eq h.query, fragmentText_eq h.fragment]
  change Except.ok _ = Except.ok _
  rw [restEncoded]
  simp only [List.append_assoc]

/-! ### What is read -/

/-- The characters that end a host or cut it. -/
def hostDelimiters : List Byte := ascii "/\\?#@:"

theorem mem_portEncoded {nPort : Option Nat} {ch : Byte} (h : ch ∈ portEncoded nPort) :
    ch ≠ 0 ∧ ch ∉ ascii "/\\?#@" := by
  have hnot : ∀ c ∈ 0 :: ascii "/\\?#@", ¬ (0x30 ≤ c ∧ c ≤ 0x39) :=
    List.all_iff_forall_prop.mp (by decide)
  cases nPort with
  | none => exact absurd h List.not_mem_nil
  | some nPort =>
    rcases List.mem_cons.mp h with rfl | h
    · decide
    · have hdigit := mem_decimal h
      exact ⟨fun hzero => hnot ch (hzero ▸ List.mem_cons_self) hdigit,
        fun hmem => hnot ch (List.mem_cons_of_mem _ hmem) hdigit⟩

theorem clear_hostEncoded {url : Url} (h : url.Stored)
    (hclear : ∀ ch ∈ url.cStrHostW.map UInt16.toUInt8, ch ∉ hostDelimiters) :
    ∀ ch ∈ hostEncoded url, ch ≠ 0 ∧ ch ∉ ascii "/\\?#@" := by
  have hsub : ∀ ch ∈ ascii "/\\?#@", ch ∈ hostDelimiters := by
    intro ch hch
    exact List.mem_append_left [0x3A] hch
  intro ch hch
  rw [hostEncoded] at hch
  split at hch
  · exact absurd hch List.not_mem_nil
  · rcases List.mem_append.mp hch with hch | hch
    · exact ⟨ne_zero_of_mem_host h hch, fun hmem => hclear ch hch (hsub ch hmem)⟩
    · exact mem_portEncoded hch

/-- **The host and the port are split where they were put together.** -/
theorem splitHost_eq {url : Url} (h : url.Stored)
    (hclear : ∀ ch ∈ url.cStrHostW.map UInt16.toUInt8, ch ∉ hostDelimiters)
    (hport : url.cStrHostW = [] → url.nPort = none) :
    splitHost (hostEncoded url) = .ok (url.cStrHostW.map UInt16.toUInt8, [], url.nPort) := by
  by_cases hnil : url.cStrHostW = []
  · rw [hostEncoded, if_pos hnil, hnil, hport hnil]
    rfl
  · have hne : url.cStrHostW.map UInt16.toUInt8 ≠ [] := mt List.map_eq_nil_iff.mp hnil
    have hchars := clear_hostEncoded h hclear
    have hat : findChar (ascii "@") [] (hostEncoded url) = none :=
      findChar_eq_none fun ch hch => ⟨(hchars ch hch).1,
        fun hmem => (hchars ch hch).2 (List.mem_append_right (ascii "/\\?#") hmem), List.not_mem_nil⟩
    have hempty : isEmptyStr (hostEncoded url) = false := by
      refine isEmptyStr_of_ne_zero (fun ch hch => (hchars ch hch).1) ?_
      rw [hostEncoded, if_neg hnil]
      exact List.append_ne_nil_of_left_ne_nil hne _
    have hcolon : Clear (ascii ":") [] (url.cStrHostW.map UInt16.toUInt8) := fun ch hch =>
      ⟨ne_zero_of_mem_host h hch,
        fun hmem => hclear ch hch (List.mem_append_right (ascii "/\\?#@") hmem), List.not_mem_nil⟩
    rw [splitHost, hempty, if_neg Bool.false_ne_true, hat]
    dsimp only [Option.getD_none, Option.map_none]
    rw [List.take_zero, List.drop_zero, hostEncoded, if_neg hnil]
    cases hp : url.nPort with
    | none =>
      rw [portEncoded, List.append_nil, findChar_eq_none hcolon]
    | some nPort =>
      obtain ⟨hlo, hhi⟩ := h.port nPort hp
      obtain ⟨n, hn⟩ := Nat.exists_eq_add_one_of_ne_zero (mt List.length_eq_zero_iff.mp hne)
      have hfind : findChar (ascii ":") [] (url.cStrHostW.map UInt16.toUInt8 ++ 0x3A :: decimal nPort) =
          some (n + 1) := by
        rw [findChar_append_cons hcolon (by decide) (by decide), hn]
      have hdrop : (url.cStrHostW.map UInt16.toUInt8 ++ 0x3A :: decimal nPort).drop (n + 1 + 1) =
          decimal nPort := by
        rw [← hn, drop_append_cons]
      have htake : (url.cStrHostW.map UInt16.toUInt8 ++ 0x3A :: decimal nPort).take (n + 1) =
          url.cStrHostW.map UInt16.toUInt8 := by
        rw [← hn]
        exact List.take_left
      have hparse : parsePort 0 (decimal nPort) = .ok nPort := by
        have hdigits := parsePort_decimal hhi []
        rwa [List.append_nil, parsePort, if_neg (by omega)] at hdigits
      simp [portEncoded, hfind, hdrop, htake, hparse]

theorem hostEnd_eq {url : Url} (h : url.Stored)
    (hclear : ∀ ch ∈ url.cStrHostW.map UInt16.toUInt8, ch ∉ hostDelimiters) :
    hostEnd (hostEncoded url ++ restEncoded url) = (hostEncoded url).length := by
  have hchars := clear_hostEncoded h hclear
  obtain ⟨r, hr⟩ := head_encoded_path h.path
  refine findChar_getD (fun ch hch => ⟨(hchars ch hch).1, fun hmem => (hchars ch hch).2 ?_,
    fun hmem => (hchars ch hch).2 ?_⟩) ?_
  · exact List.mem_append_left (ascii "?#@") hmem
  · exact List.mem_append_right (ascii "/\\") (List.mem_append_left (ascii "@") hmem)
  · exact Or.inr ⟨0x2F, _, by rw [restEncoded, hr]; rfl, by decide, by decide⟩

theorem pathEnd_eq (url : Url) :
    pathEnd (restEncoded url) = (encoded (ascii "/") url.cStrPathW).length := by
  refine findChar_getD (fun ch hch => ?_) ?_
  · obtain ⟨hzero, hsep⟩ := isEncoded_clear (isEncoded_of_mem hch)
    refine ⟨hzero, fun hmem => hsep ?_, List.not_mem_nil⟩
    exact List.mem_append_right [0x3A] (List.mem_append_left (ascii "&=@\\|") hmem)
  · refine (queryEncoded_cases 0x3F url.cQueryStringsList url.cStrFragmentW).imp_right ?_
    rintro ⟨ch, r, hr, rfl | rfl⟩
    · exact ⟨_, r, hr, by decide, by decide⟩
    · exact ⟨_, r, hr, by decide, by decide⟩

/-- **What is read behind the host.** -/
theorem parsePath_rest {url : Url} (h : url.Stored) (e : UrlEnv) (cStrTempHostA : List Byte) :
    parsePath e ⟨url.cStrSchemeW, cStrTempHostA, restEncoded url⟩ = (do
      let (cStrTempHostA, cStrTempUserInfoA, nPort) ← splitHost cStrTempHostA
      let cStrHostW ← setHost e cStrTempHostA
      let cStrFragmentW ← setUserInfo cStrTempUserInfoA
      let url' ← parseParams ⟨url.cStrSchemeW, cStrHostW, url.cStrPathW, nPort, [], [], cStrFragmentW⟩
        (queryEncoded 0x3F url.cQueryStringsList ++ fragmentEncoded url.cStrFragmentW)
      .ok { url' with cStrPathW := normalizePath url'.cStrPathW url'.cStrSchemeW }) := by
  have htake : (restEncoded url).take (encoded (ascii "/") url.cStrPathW).length =
      encoded (ascii "/") url.cStrPathW := List.take_left
  have hdrop : (restEncoded url).drop (encoded (ascii "/") url.cStrPathW).length =
      queryEncoded 0x3F url.cQueryStringsList ++ fragmentEncoded url.cStrFragmentW := List.drop_left
  have hslash : prependSlash url.cStrSchemeW url.cStrPathW = url.cStrPathW := by
    have hne : isEmptyStr url.cStrPathW = false :=
      isEmptyStr_of_ne_zero (fun ch hch => (h.path.kept ch hch).1) h.path.ne_nil
    rw [prependSlash, hne, h.path.slash, if_neg (by simp)]
  rw [parsePath]
  dsimp only
  rw [pathEnd_eq, htake, hdrop, pathText_encoded, setPath_encoded h.path]
  change (do let cStrPathW ← reducePath url.cStrPathW url.cStrSchemeW; _) = _
  rw [h.path.reduced]
  change (do let x ← splitHost cStrTempHostA; _) = _
  rw [hslash]

/-- The condition on the host and the port of a URL. -/
def Url.HostReadsBack (url : Url) : Prop :=
  if url.cStrHostW = [] then url.nPort = none
  else (∀ ch ∈ url.cStrHostW.map UInt16.toUInt8, ch ∉ hostDelimiters) ∧
    IsReadHost (url.cStrHostW.map UInt16.toUInt8)

theorem map_host {url : Url} (h : url.Stored) :
    (url.cStrHostW.map UInt16.toUInt8).map UInt8.toUInt16 = url.cStrHostW := by
  rw [List.map_map]
  refine (List.map_congr_left fun u hu => ?_).trans (List.map_id _)
  have hlt : u.toNat < 0x80 := UInt16.lt_iff_toNat_lt.mp (h.ascii u hu)
  refine UInt16.toNat_inj.mp ?_
  rw [Function.comp_apply, UInt8.toNat_toUInt16, UInt16.toNat_toUInt8, Nat.mod_eq_of_lt (by omega)]
  rfl

theorem setHost_eq {url : Url} (h : url.Stored) (hhost : url.HostReadsBack)
    (isLocalHost : List Byte → Bool) :
    setHost (urlEnv isLocalHost) (url.cStrHostW.map UInt16.toUInt8) = .ok url.cStrHostW := by
  rw [setHost, szStr_of_ne_zero fun ch hch => ne_zero_of_mem_host h hch]
  by_cases hnil : url.cStrHostW = []
  · rw [hnil]
    rfl
  · rw [Url.HostReadsBack, if_neg hnil] at hhost
    have hne : url.cStrHostW.map UInt16.toUInt8 ≠ [] := mt List.map_eq_nil_iff.mp hnil
    have hcolon : 0x3A ∉ url.cStrHostW.map UInt16.toUInt8 := fun hmem => hhost.1 _ hmem (by decide)
    rw [if_neg hne]
    exact (setHostA_eq_ok hcolon hne _).mpr ⟨hhost.2, (map_host h).symm⟩

/-- **A URL whose host is read back is read back.** -/
theorem parseFromString_toString {url : Url} (h : url.Stored) {szSchemeA : List Byte}
    (hscheme : HostScheme szSchemeA) (heq : url.cStrSchemeW = szSchemeA.map UInt8.toUInt16)
    (hhost : url.HostReadsBack) (isLocalHost : List Byte → Bool) :
    parseFromString (urlEnv isLocalHost)
      (szSchemeA ++ ascii "://" ++ (hostEncoded url ++ restEncoded url)) = .ok url := by
  have hclear : ∀ ch ∈ url.cStrHostW.map UInt16.toUInt8, ch ∉ hostDelimiters := by
    rw [Url.HostReadsBack] at hhost
    split at hhost
    · rename_i hnil
      intro ch hch
      rw [hnil] at hch
      exact absurd hch List.not_mem_nil
    · exact hhost.1
  have hport : url.cStrHostW = [] → url.nPort = none := fun hnil => by
    rwa [Url.HostReadsBack, if_pos hnil] at hhost
  have hsplit := splitHost_eq h hclear hport
  have hset := setHost_eq h hhost isLocalHost
  rw [parseFromString_host hscheme, hostEnd_eq h hclear, List.take_left, List.drop_left, ← heq,
    parsePath_rest h, hsplit]
  change (do
    let cStrHostW ← setHost (urlEnv isLocalHost) (url.cStrHostW.map UInt16.toUInt8)
    let cStrFragmentW ← setUserInfo []
    let url' ← parseParams ⟨url.cStrSchemeW, cStrHostW, url.cStrPathW, url.nPort, [], [], cStrFragmentW⟩
      (queryEncoded 0x3F url.cQueryStringsList ++ fragmentEncoded url.cStrFragmentW)
    Except.ok { url' with cStrPathW := normalizePath url'.cStrPathW url'.cStrSchemeW }) = _
  rw [hset]
  change (do
    let url' ← parseParams ⟨url.cStrSchemeW, url.cStrHostW, url.cStrPathW, url.nPort, [], [], []⟩
      (queryEncoded 0x3F url.cQueryStringsList ++ fragmentEncoded url.cStrFragmentW)
    Except.ok { url' with cStrPathW := normalizePath url'.cStrPathW url'.cStrSchemeW }) = _
  rw [parseParams_eq rfl h.query h.fragment]
  change Except.ok _ = Except.ok url
  dsimp only
  rw [h.path.normalized.2, ← h.userInfo]

/-! ### Hosts that are not read back -/

/-- A search for one character, in a text without zeros. -/
theorem findChar_cases {ch : Byte} (hch : ch ≠ 0) {l : List Byte} (hzero : 0 ∉ l) :
    (findChar [ch] [] l = none ∧ ch ∉ l) ∨
      ∃ pre suf, l = pre ++ ch :: suf ∧ findChar [ch] [] l = some pre.length ∧ ch ∉ pre := by
  by_cases hmem : ch ∈ l
  · obtain ⟨pre, suf, rfl, hpre⟩ := List.eq_append_cons_of_mem hmem
    refine Or.inr ⟨pre, suf, rfl, findChar_append_cons (fun c hc => ⟨?_, ?_, List.not_mem_nil⟩) hch
      List.mem_cons_self _, hpre⟩
    · rintro rfl
      exact hzero (List.mem_append_left _ hc)
    · intro hin
      rw [List.mem_singleton] at hin
      exact hpre (hin ▸ hc)
  · refine Or.inl ⟨findChar_eq_none fun c hc => ⟨?_, ?_, List.not_mem_nil⟩, hmem⟩
    · rintro rfl
      exact hzero hc
    · intro hin
      rw [List.mem_singleton] at hin
      exact hmem (hin ▸ hc)

/-- The host is what stands behind the user info and before the port. -/
structure SplitHost (cStrTempHostA szHostA : List Byte) (nPort : Option Nat) : Prop where
  noColon : 0x3A ∉ szHostA
  behindUser : ∃ behind, (behind = cStrTempHostA ∧ 0x40 ∉ cStrTempHostA ∨
      ∃ userInfo, cStrTempHostA = userInfo ++ 0x40 :: behind) ∧
    (szHostA = behind ∧ nPort = none ∨
      ∃ portA port, behind = szHostA ++ 0x3A :: portA ∧ parsePort 0 portA = .ok port ∧
        nPort = some port)

theorem splitPort_ok {behind userA szHostA userInfoA : List Byte} {nPort : Option Nat}
    (hzero : 0 ∉ behind)
    (h : (match findChar (ascii ":") [] behind with
      | some 0 => .error .eFail
      | none => .ok (behind, userA, none)
      | some nPos =>
        match parsePort 0 (behind.drop (nPos + 1)) with
        | .error hRes => .error hRes
        | .ok nPort => .ok (behind.take nPos, userA, some nPort)) =
      (.ok (szHostA, userInfoA, nPort) : Except HResult (List Byte × List Byte × Option Nat))) :
    0x3A ∉ szHostA ∧ (szHostA = behind ∧ nPort = none ∨
      ∃ portA port, behind = szHostA ++ 0x3A :: portA ∧ parsePort 0 portA = .ok port ∧
        nPort = some port) := by
  rcases findChar_cases (show (0x3A : Byte) ≠ 0 by decide) hzero with
    ⟨hfind, hmem⟩ | ⟨pre, suf, rfl, hfind, hnot⟩
  · rw [show ascii ":" = [0x3A] from rfl, hfind] at h
    obtain ⟨rfl, hrest⟩ := Prod.mk.inj (Except.ok.inj h)
    exact ⟨hmem, Or.inl ⟨rfl, (Prod.mk.inj hrest).2.symm⟩⟩
  · have hdrop : (pre ++ 0x3A :: suf).drop (pre.length + 1) = suf := drop_append_cons _ _ _
    have htake : (pre ++ 0x3A :: suf).take pre.length = pre := List.take_left
    rw [show ascii ":" = [0x3A] from rfl] at h
    cases hlen : pre.length with
    | zero =>
      simp only [hfind, hlen] at h
      cases h
    | succ n =>
      rw [hlen] at hdrop htake
      simp only [hfind, hlen, hdrop, htake] at h
      cases hparse : parsePort 0 suf with
      | error hRes =>
        rw [hparse] at h
        cases h
      | ok port =>
        rw [hparse] at h
        obtain ⟨rfl, hrest⟩ := Prod.mk.inj (Except.ok.inj h)
        exact ⟨hnot, Or.inr ⟨suf, port, rfl, hparse, (Prod.mk.inj hrest).2.symm⟩⟩

theorem splitHost_ok {cStrTempHostA szHostA userInfoA : List Byte} {nPort : Option Nat}
    (hzero : 0 ∉ cStrTempHostA)
    (h : splitHost cStrTempHostA = .ok (szHostA, userInfoA, nPort)) :
    SplitHost cStrTempHostA szHostA nPort := by
  rw [splitHost] at h
  split at h
  · rename_i hempty
    obtain rfl := eq_nil_of_isEmptyStr hzero hempty
    obtain ⟨rfl, hrest⟩ := Prod.mk.inj (Except.ok.inj h)
    exact ⟨List.not_mem_nil, [], Or.inl ⟨rfl, List.not_mem_nil⟩,
      Or.inl ⟨rfl, (Prod.mk.inj hrest).2.symm⟩⟩
  · rw [show ascii "@" = [0x40] from rfl] at h
    rcases findChar_cases (show (0x40 : Byte) ≠ 0 by decide) hzero with
      ⟨hfind, hmem⟩ | ⟨pre, suf, rfl, hfind, -⟩
    · rw [hfind] at h
      obtain ⟨hcolon, hsplit⟩ := splitPort_ok hzero h
      exact ⟨hcolon, cStrTempHostA, Or.inl ⟨rfl, hmem⟩, hsplit⟩
    · have hdrop : (pre ++ 0x40 :: suf).drop (pre.length + 1) = suf := drop_append_cons _ _ _
      cases hlen : pre.length with
      | zero =>
        simp only [hfind, hlen] at h
        cases h
      | succ n =>
        rw [hlen] at hdrop hfind
        simp only [hfind, Option.map_some, Option.getD_some, hdrop] at h
        have hzero' : 0 ∉ suf := fun hin =>
          hzero (List.mem_append_right _ (List.mem_cons_of_mem _ hin))
        obtain ⟨hcolon, hsplit⟩ := splitPort_ok hzero' h
        exact ⟨hcolon, suf, Or.inr ⟨pre, rfl⟩, hsplit⟩

theorem SplitHost.isInfix {cStrTempHostA szHostA : List Byte} {nPort : Option Nat}
    (h : SplitHost cStrTempHostA szHostA nPort) : szHostA <:+: cStrTempHostA := by
  obtain ⟨behind, hbehind, hhost⟩ := h.behindUser
  have hinfix : szHostA <:+: behind := by
    rcases hhost with ⟨rfl, -⟩ | ⟨portA, port, rfl, -⟩
    · exact List.infix_refl _
    · exact (List.prefix_append _ _).isInfix
  rcases hbehind with ⟨rfl, -⟩ | ⟨userInfo, rfl⟩
  · exact hinfix
  · exact hinfix.trans ((List.suffix_cons _ _).isInfix.trans (List.suffix_append _ _).isInfix)

theorem parsePath_host {e : UrlEnv} {parts : UrlParts} {url : Url}
    (h : parsePath e parts = .ok url) :
    ∃ szHostA userInfoA, splitHost parts.cStrTempHostA = .ok (szHostA, userInfoA, url.nPort) ∧
      setHost e szHostA = .ok url.cStrHostW := by
  obtain ⟨_, R, ⟨szHostA, userInfoA, nPort⟩, cStrHostW, _, url', -, -, hsplit, hhost, -, hparams,
    rfl⟩ := parsePath_iff.mp h
  obtain ⟨query, -, hparams⟩ := exists_of_bind_ok hparams
  obtain ⟨fragment, -, hparams⟩ := exists_of_bind_ok hparams
  obtain rfl := Except.ok.inj hparams
  exact ⟨szHostA, userInfoA, hsplit, hhost⟩

/-- What is written behind the host has no character that ends a host but the slash at
its beginning. -/
theorem restEncoded_spec {url : Url} (h : url.Stored) :
    (∃ r, restEncoded url = 0x2F :: r) ∧ ∀ ch ∈ restEncoded url, ch ≠ 0 ∧ ch ≠ 0x40 := by
  obtain ⟨r, hr⟩ := head_encoded_path h.path
  refine ⟨⟨_, by rw [restEncoded, hr]; rfl⟩, ?_⟩
  have henc : ∀ s, ∀ ch ∈ encoded [] s, ch ≠ 0 ∧ ch ≠ 0x40 := fun s ch hch => by
    obtain ⟨hzero, hsep⟩ := isEncoded_clear (isEncoded_slash (isEncoded_of_mem hch))
    exact ⟨hzero, fun hat => hsep (by rw [hat]; decide)⟩
  have hitem : ∀ item, ∀ ch ∈ itemEncoded item, ch ≠ 0 ∧ ch ≠ 0x40 := by
    intro item ch hch
    rw [itemEncoded, List.mem_append] at hch
    rcases hch with hch | hch
    · exact henc _ ch hch
    · split at hch
      · exact absurd hch List.not_mem_nil
      · rcases List.mem_cons.mp hch with rfl | hch
        · decide
        · exact henc _ ch hch
  have hquery : ∀ (items : List (List WChar × List WChar)) (sep : Byte), sep ≠ 0 ∧ sep ≠ 0x40 →
      ∀ ch ∈ queryEncoded sep items, ch ≠ 0 ∧ ch ≠ 0x40 := by
    intro items
    induction items with
    | nil => exact fun _ _ ch hch => absurd hch List.not_mem_nil
    | cons item items ih =>
      intro sep hsep ch hch
      rcases List.mem_cons.mp hch with rfl | hch
      · exact hsep
      · rcases List.mem_append.mp hch with hch | hch
        · exact hitem item ch hch
        · exact ih 0x26 (by decide) ch hch
  intro ch hch
  rw [restEncoded, List.mem_append, List.mem_append] at hch
  rcases hch with hch | hch | hch
  · obtain ⟨hzero, hsep⟩ := isEncoded_clear (isEncoded_of_mem hch)
    exact ⟨hzero, fun hat => hsep (by rw [hat]; decide)⟩
  · exact hquery _ 0x3F (by decide) ch hch
  · rw [fragmentEncoded] at hch
    split at hch
    · exact absurd hch List.not_mem_nil
    · rcases List.mem_cons.mp hch with rfl | hch
      · decide
      · exact henc _ ch hch

/-- **A host that is found again has no at sign.** -/
theorem at_not_mem {szHostA rest : List Byte} {nPort : Option Nat} {n : Nat}
    (hrest : 0x40 ∉ rest) (h : SplitHost ((szHostA ++ rest).take n) szHostA nPort) :
    0x40 ∉ szHostA := by
  intro hat
  obtain ⟨behind, ⟨rfl, hnot⟩ | ⟨userInfo, heq⟩, hhost⟩ := h.behindUser
  · exact hnot (h.isInfix.subset hat)
  · -- one of the at signs ended the user info
    have hcount : ((szHostA ++ rest).take n).count 0x40 ≤ szHostA.count 0x40 := by
      have hle := (List.take_sublist n (szHostA ++ rest)).count_le 0x40
      rwa [List.count_append, List.count_eq_zero_of_not_mem hrest, Nat.add_zero] at hle
    have hbehind : szHostA.count 0x40 ≤ behind.count 0x40 := by
      rcases hhost with ⟨rfl, -⟩ | ⟨portA, port, rfl, -⟩
      · exact Nat.le_refl _
      · exact (List.sublist_append_left _ _).count_le 0x40
    rw [heq, List.count_append, List.count_cons_self] at hcount
    omega

/-- **A host that is found again ends where it was written.** -/
theorem delimiter_not_mem {szHostA rest : List Byte} {nPort port : Option Nat}
    (hzero : 0 ∉ szHostA) (hport : ∀ n, port = some n → n ≤ 65535)
    (hat : 0x40 ∉ szHostA ++ (portEncoded port ++ 0x2F :: rest))
    (h : SplitHost ((szHostA ++ (portEncoded port ++ 0x2F :: rest)).take
      (hostEnd (szHostA ++ (portEncoded port ++ 0x2F :: rest)))) szHostA nPort) :
    ∀ ch ∈ szHostA, ch ∉ ascii "/\\?#" := by
  by_contra hcontra
  push Not at hcontra
  obtain ⟨ch, hch, hdelim⟩ := hcontra
  -- the first delimiter
  obtain ⟨c, hfirst⟩ : ∃ c, szHostA.find? (fun ch => (ascii "/\\?#").contains ch) = some c := by
    rw [← Option.isSome_iff_exists, List.find?_isSome]
    exact ⟨ch, hch, List.contains_iff_mem.mpr hdelim⟩
  obtain ⟨hc, pre, suf, hsplit, hpre⟩ := List.find?_eq_some_iff_append.mp hfirst
  have hclear : Clear (ascii "/\\") (ascii "?#") pre := by
    intro d hd
    have hnot : d ∉ ascii "/\\?#" := by
      have hd' := hpre d hd
      rwa [Bool.not_eq_true', ← Bool.not_eq_true, List.contains_iff_mem] at hd'
    refine ⟨?_, fun hin => hnot (List.mem_append_left (ascii "?#") hin),
      fun hin => hnot (List.mem_append_right (ascii "/\\") hin)⟩
    rintro rfl
    exact hzero (by rw [hsplit]; exact List.mem_append_left _ hd)
  generalize htext : szHostA ++ (portEncoded port ++ 0x2F :: rest) = text at hat h
  have hfind : findChar (ascii "/\\") (ascii "?#") text =
      (findChar (ascii "/\\") (ascii "?#") (c :: (suf ++ (portEncoded port ++ 0x2F :: rest)))).map
        (· + pre.length) := by
    rw [← htext, hsplit, List.append_assoc, List.cons_append, findChar_append hclear]
  have hlen := h.isInfix.length_le
  have hc' : c ∈ ascii "/\\" ∨ c ∈ ascii "?#" := List.mem_append.mp (List.contains_iff_mem.mp hc)
  rcases hc' with hslash | hquery
  · -- the host is cut before it
    have hc0 : c ≠ 0 := by
      rintro rfl
      exact absurd hslash (by decide)
    rw [findChar, if_neg (by simpa using hc0), if_pos (List.contains_iff_mem.mpr hslash),
      Option.map_some, Nat.zero_add] at hfind
    rw [hostEnd, hfind, Option.getD_some, List.length_take, hsplit, List.length_append,
      List.length_cons] at hlen
    omega
  · -- the whole text is read as the host
    have hc0 : c ≠ 0 := by
      rintro rfl
      exact absurd hquery (by decide)
    have hnot : ¬ (ascii "/\\").contains c = true := by
      rw [List.contains_iff_mem]
      intro hin
      have hboth : ∀ d : Byte, d ∈ ascii "/\\" → d ∉ ascii "?#" := by
        intro d hd
        rcases List.mem_cons.mp hd with rfl | hd
        · decide
        · rw [List.mem_singleton.mp hd]
          decide
      exact hboth c hin hquery
    rw [findChar, if_neg (by simpa using hc0), if_neg hnot,
      if_pos (List.contains_iff_mem.mpr hquery), Option.map_none] at hfind
    rw [hostEnd, hfind, Option.getD_none, List.take_length] at h
    obtain ⟨behind, ⟨rfl, -⟩ | ⟨userInfo, heq⟩, hhost⟩ := h.behindUser
    · rcases hhost with ⟨heq, -⟩ | ⟨portA, n, heq, hparse, -⟩
      · have hlen' := congrArg List.length (heq.trans htext.symm)
        simp at hlen'
      · rw [← htext, List.append_cancel_left_eq] at heq
        cases port with
        | none => exact absurd (List.cons.inj heq).1 (by decide)
        | some p =>
          obtain ⟨-, heq⟩ := List.cons.inj heq
          rw [← show decimal p ++ 0x2F :: rest = portA from heq, parsePort_decimal (hport p rfl), parsePort, if_neg (by decide), if_pos (by rfl)] at hparse
          cases hparse
    · exact hat (by rw [heq]; exact List.mem_append_right _ List.mem_cons_self)

/-- **The host of a URL that is read back** is one that can be. -/
theorem hostReadsBack_of_parsePath {url : Url} (h : url.Stored) {isLocalHost : List Byte → Bool}
    {szSchemeW : List WChar} {rest : List Byte}
    (hparse : parsePath (urlEnv isLocalHost) ⟨szSchemeW, (hostEncoded url ++ restEncoded url).take
      (hostEnd (hostEncoded url ++ restEncoded url)), rest⟩ = .ok url) : url.HostReadsBack := by
  obtain ⟨szHostA, userInfoA, hsplit, hset⟩ := parsePath_host hparse
  obtain ⟨⟨r, hr⟩, hchars⟩ := restEncoded_spec h
  rw [hr] at hchars
  dsimp only at hsplit
  rw [Url.HostReadsBack]
  by_cases hnil : url.cStrHostW = []
  · have htext : hostEncoded url ++ restEncoded url = 0x2F :: r := by
      rw [hostEncoded, if_pos hnil, hr]
      rfl
    rw [htext, hostEnd, findChar, if_neg (by decide), if_pos (by decide), Option.getD_some,
      List.take_zero] at hsplit
    rw [if_pos hnil]
    exact (Prod.mk.inj (Prod.mk.inj (Except.ok.inj hsplit)).2).2.symm
  · have hzeroHost : 0 ∉ url.cStrHostW.map UInt16.toUInt8 := fun hin => ne_zero_of_mem_host h hin rfl
    have htext : hostEncoded url ++ restEncoded url =
        url.cStrHostW.map UInt16.toUInt8 ++ (portEncoded url.nPort ++ 0x2F :: r) := by
      rw [hostEncoded, if_neg hnil, hr, List.append_assoc]
    have hzero : 0 ∉ url.cStrHostW.map UInt16.toUInt8 ++ (portEncoded url.nPort ++ 0x2F :: r) := by
      intro hin
      rcases List.mem_append.mp hin with hin | hin
      · exact hzeroHost hin
      · rcases List.mem_append.mp hin with hin | hin
        · exact (mem_portEncoded hin).1 rfl
        · exact (hchars 0 hin).1 rfl
    rw [htext] at hsplit
    have hspec := splitHost_ok (fun hin => hzero (List.mem_of_mem_take hin)) hsplit
    have hszStr : szStr szHostA = szHostA := szStr_of_ne_zero fun ch hch h0 => by
      refine hzero (List.mem_of_mem_take (hspec.isInfix.subset ?_))
      rwa [h0] at hch
    -- the host that was found is the one that was written
    rw [setHost, hszStr] at hset
    have hne : szHostA ≠ [] := by
      rintro rfl
      exact hnil (Except.ok.inj hset).symm
    rw [if_neg hne] at hset
    obtain ⟨hread, hhost⟩ := (setHostA_eq_ok hspec.noColon hne _).mp hset
    obtain rfl : szHostA = url.cStrHostW.map UInt16.toUInt8 :=
      map_toUInt16_inj.mp (by rw [map_host h, hhost])
    have hatBehind : 0x40 ∉ portEncoded url.nPort ++ 0x2F :: r := by
      intro hin
      rcases List.mem_append.mp hin with hin | hin
      · exact (mem_portEncoded hin).2 (by decide)
      · exact (hchars _ hin).2 rfl
    have hat := at_not_mem hatBehind hspec
    have hatText : 0x40 ∉ url.cStrHostW.map UInt16.toUInt8 ++ (portEncoded url.nPort ++ 0x2F :: r) := by
      intro hin
      rcases List.mem_append.mp hin with hin | hin
      · exact hat hin
      · rcases List.mem_append.mp hin with hin | hin
        · exact (mem_portEncoded hin).2 (by decide)
        · exact (hchars _ hin).2 rfl
    have hdelim := delimiter_not_mem hzeroHost (fun n hn => (h.port n hn).2) hatText hspec
    rw [if_neg hnil]
    refine ⟨fun ch hch hin => ?_, hread⟩
    rcases List.mem_append.mp (show ch ∈ ascii "/\\?#" ++ ascii "@:" from hin) with hin | hin
    · exact hdelim ch hch hin
    · rcases List.mem_cons.mp hin with rfl | hin
      · exact hat hch
      · rw [List.mem_singleton.mp hin] at hch
        exact hspec.noColon hch

/-! ### Mail addresses -/

/-- **A mail address is not written**, so the text is refused. -/
theorem parseFromString_mailTo {url : Url} (hmail : url.cStrSchemeW = wide "mailto")
    (hquery : ∀ item ∈ url.cQueryStringsList, IsItem item) (hfragment : IsKeptText url.cStrFragmentW)
    (isLocalHost : List Byte → Bool) :
    ∃ cStrDestA, url.toString addAll = .ok cStrDestA ∧
      parseFromString (urlEnv isLocalHost) cStrDestA = .error .eFail := by
  have hfront : frontText url addAll = .ok (ascii "mailto:") := by
    rw [frontText, hmail]
    rfl
  refine ⟨ascii "mailto:" ++ queryEncoded 0x3F url.cQueryStringsList ++
    fragmentEncoded url.cStrFragmentW, ?_, ?_⟩
  · rw [Url.toString, hfront]
    change (do
      let queryA ← queryText 0x3F url.cQueryStringsList
      let fragmentA ← fragmentText url.cStrFragmentW
      Except.ok (_ ++ queryA ++ fragmentA)) = _
    rw [queryText_eq hquery, fragmentText_eq hfragment]
    rfl
  · have hend : pathEnd (queryEncoded 0x3F url.cQueryStringsList ++
        fragmentEncoded url.cStrFragmentW) = 0 := by
      refine findChar_getD (l := []) (fun ch hch => absurd hch List.not_mem_nil) ?_
      refine (queryEncoded_cases 0x3F url.cQueryStringsList url.cStrFragmentW).imp_right ?_
      rintro ⟨ch, r, hr, rfl | rfl⟩
      · exact ⟨_, r, hr, by decide, by decide⟩
      · exact ⟨_, r, hr, by decide, by decide⟩
    have htext : ascii "mailto:" ++ queryEncoded 0x3F url.cQueryStringsList ++
        fragmentEncoded url.cStrFragmentW = ascii "mailto" ++ 0x3A ::
          (queryEncoded 0x3F url.cQueryStringsList ++ fragmentEncoded url.cStrFragmentW) := by
      rw [List.append_assoc]
      rfl
    rw [htext, parseFromString_scheme schemeText_mailTo, if_pos (by decide), parseMail]
    dsimp only
    rw [hend]
    rfl

/-! ### URLs of the setters -/

/-- What every call of a setter keeps. -/
structure Url.Invariant (url : Url) : Prop where
  lower : url.cStrSchemeW.map lowerW = url.cStrSchemeW
  schemeZero : 0 ∉ url.cStrSchemeW
  port : ∀ nPort, url.nPort = some nPort → 1 ≤ nPort ∧ nPort ≤ 65535
  names : ∀ item ∈ url.cQueryStringsList, item.1 ≠ []
  userInfo : url.cStrUserInfoW = []

theorem lowerW_lowerW (ch : WChar) : lowerW (lowerW ch) = lowerW ch := by
  by_cases h : (0x41 ≤ ch && ch ≤ 0x5A) = true
  · have hlow : lowerW ch = ch + 0x20 := if_pos h
    rw [Bool.and_eq_true, decide_eq_true_iff, decide_eq_true_iff, UInt16.le_iff_toNat_le,
      UInt16.le_iff_toNat_le] at h
    rw [hlow, lowerW, if_neg]
    rw [Bool.and_eq_true, decide_eq_true_iff, decide_eq_true_iff, UInt16.le_iff_toNat_le,
      UInt16.le_iff_toNat_le, UInt16.toNat_add]
    simp only [UInt16.reduceToNat] at h ⊢
    omega
  · have hsame : lowerW ch = ch := if_neg h
    rw [hsame, hsame]

theorem lowerW_ne_zero {ch : WChar} (h : ch ≠ 0) : lowerW ch ≠ 0 := by
  rw [lowerW]
  split
  · rename_i hupper
    rw [Bool.and_eq_true, decide_eq_true_iff, decide_eq_true_iff, UInt16.le_iff_toNat_le,
      UInt16.le_iff_toNat_le] at hupper
    intro h0
    have hnat := congrArg UInt16.toNat h0
    rw [UInt16.toNat_add] at hnat
    simp only [UInt16.reduceToNat] at hupper hnat
    omega
  · exact h

/-- A scheme that a setter stores. -/
theorem lower_stored {s : List WChar} (h : 0 ∉ s) :
    (s.map lowerW).map lowerW = s.map lowerW ∧ 0 ∉ s.map lowerW := by
  refine ⟨?_, fun hin => ?_⟩
  · rw [List.map_map]
    exact List.map_congr_left fun ch _ => lowerW_lowerW ch
  · obtain ⟨ch, hch, h0⟩ := List.mem_map.mp hin
    exact lowerW_ne_zero (fun hz => h (hz ▸ hch)) h0

theorem zero_not_mem_szStr (cStr : List WChar) : 0 ∉ szStr cStr := by
  obtain ⟨t, -, h, -⟩ := exists_szStr_append cStr
  exact h

theorem setSchemeW_stored {szSchemeW v : List WChar} (h : setSchemeW szSchemeW = .ok v) :
    v.map lowerW = v ∧ 0 ∉ v := by
  have hzero := zero_not_mem_szStr szSchemeW
  rw [setSchemeW] at h
  split at h
  · obtain rfl := Except.ok.inj h
    exact ⟨rfl, List.not_mem_nil⟩
  · rename_i chW sW heq
    rw [heq] at hzero
    split at h
    · obtain rfl := Except.ok.inj h
      exact lower_stored hzero
    · cases h

theorem setScheme_stored {szSchemeA : List Byte} {v : List WChar} (h : setScheme szSchemeA = .ok v) :
    v.map lowerW = v ∧ 0 ∉ v := by
  have hzero : ∀ chW ∈ (szStr szSchemeA).map UInt8.toUInt16, chW ≠ 0 := by
    intro chW hin h0
    obtain ⟨ch, hch, rfl⟩ := List.mem_map.mp hin
    obtain ⟨t, -, hnot, -⟩ := exists_szStr_append szSchemeA
    exact hnot ((show ch = 0 from toUInt16_inj.mp h0) ▸ hch)
  have hwide : setSchemeW ((szStr szSchemeA).map UInt8.toUInt16) = setScheme szSchemeA := by
    rw [setSchemeW, szStr_of_ne_zero hzero, setScheme]
    rfl
  exact setSchemeW_stored (hwide.trans h)

theorem setPort_stored {n : Int} {v : Option Nat} (h : setPort n = .ok v) :
    ∀ nPort, v = some nPort → 1 ≤ nPort ∧ nPort ≤ 65535 := by
  rw [setPort] at h
  split at h
  · obtain rfl := Except.ok.inj h
    exact fun _ hv => by cases hv
  · split at h
    · cases h
    · obtain rfl := Except.ok.inj h
      intro nPort hv
      obtain rfl := Option.some.inj hv
      omega

theorem addQueryString_stored {szNameA szValueA : List Byte} {v : List WChar × List WChar}
    (h : addQueryString szNameA szValueA = .ok v) : v.1 ≠ [] := by
  rw [addQueryString] at h
  split at h
  · cases h
  · obtain ⟨name, -, h⟩ := exists_of_bind_ok h
    obtain ⟨value, -, h⟩ := exists_of_bind_ok h
    split at h
    · cases h
    · rename_i hne
      obtain rfl := Except.ok.inj h
      exact hne

/-- **A setter keeps the invariant.** -/
theorem Url.Invariant.set {url url' : Url} (hinv : url.Invariant) (s : Setter)
    (h : url.set s = .ok url') : url'.Invariant := by
  have hadd : ∀ v : List WChar × List WChar, v.1 ≠ [] →
      ∀ item ∈ url.cQueryStringsList ++ [v], item.1 ≠ [] := by
    intro v hv item hitem
    rcases List.mem_append.mp hitem with hitem | hitem
    · exact hinv.names item hitem
    · rw [List.mem_singleton.mp hitem]
      exact hv
  cases s with
  | scheme s =>
    obtain ⟨v, hv, rfl⟩ := exists_of_map_ok h
    exact { hinv with lower := (setScheme_stored hv).1, schemeZero := (setScheme_stored hv).2 }
  | schemeW s =>
    obtain ⟨v, hv, rfl⟩ := exists_of_map_ok h
    exact { hinv with lower := (setSchemeW_stored hv).1, schemeZero := (setSchemeW_stored hv).2 }
  | host s =>
    obtain ⟨v, -, rfl⟩ := exists_of_map_ok h
    exact { hinv with }
  | hostW s =>
    obtain ⟨v, -, rfl⟩ := exists_of_map_ok h
    exact { hinv with }
  | port n =>
    obtain ⟨v, hv, rfl⟩ := exists_of_map_ok h
    exact { hinv with port := setPort_stored hv }
  | path s =>
    obtain ⟨v, -, rfl⟩ := exists_of_map_ok h
    exact { hinv with }
  | pathW s =>
    obtain rfl := Except.ok.inj h
    exact { hinv with }
  | shrinkPath =>
    obtain ⟨v, -, rfl⟩ := exists_of_map_ok h
    exact { hinv with }
  | resetQueryStrings =>
    obtain rfl := Except.ok.inj h
    exact { hinv with names := fun _ hitem => absurd hitem List.not_mem_nil }
  | addQueryString name value =>
    obtain ⟨v, hv, rfl⟩ := exists_of_map_ok h
    exact { hinv with names := hadd v (addQueryString_stored hv) }
  | addQueryStringW name value =>
    rw [Url.set] at h
    split at h
    · cases h
    · rename_i hne
      obtain rfl := Except.ok.inj h
      exact { hinv with names := hadd (name, value) hne }
  | removeQueryString nIndex =>
    rw [Url.set] at h
    split at h
    · cases h
    · obtain rfl := Except.ok.inj h
      exact { hinv with names := fun item hitem => hinv.names item (List.mem_of_mem_eraseIdx hitem) }
  | fragment s =>
    obtain ⟨v, -, rfl⟩ := exists_of_map_ok h
    exact { hinv with }
  | fragmentW s =>
    obtain rfl := Except.ok.inj h
    exact { hinv with }
  | userInfo s =>
    obtain ⟨v, -, rfl⟩ := exists_of_map_ok h
    exact { hinv with }
  | userInfoW s =>
    rw [Url.set] at h
    split at h
    · obtain rfl := Except.ok.inj h
      exact { hinv with userInfo := rfl }
    · obtain rfl := Except.ok.inj h
      exact { hinv with }

/-- **Every URL of the setters** meets it. -/
theorem invariant_of_built {url : Url} (h : url.Built) : url.Invariant := by
  induction h with
  | new =>
    exact ⟨rfl, List.not_mem_nil, fun _ hp => (nomatch hp),
      fun _ hitem => absurd hitem List.not_mem_nil, rfl⟩
  | set s _ h ih => exact ih.set s h

/-- A scheme with a code of the table is the one in the table. -/
theorem scheme_mem {s : List WChar} (hlower : s.map lowerW = s) (hzero : 0 ∉ s)
    (hnone : scheme2Enum s ≠ .none) (hunknown : scheme2Enum s ≠ .unknown) :
    (s, scheme2Enum s) ∈ validSchemes := by
  have htable : (validSchemes.all fun e => (szStr e.1).map lowerW == e.1) = true := by decide
  have hszStr : szStr s = s := szStr_of_ne_zero fun ch hch h0 => hzero (h0 ▸ hch)
  rw [scheme2Enum] at hnone hunknown ⊢
  split at hnone
  · exact absurd rfl hnone
  · rename_i hempty
    rw [if_neg hempty] at hunknown ⊢
    split at hunknown
    · rename_i e hfind
      have hcmp := List.find?_some hfind
      have hmem := List.mem_of_find?_eq_some hfind
      have he := beq_iff_eq.mp (List.all_eq_true.mp htable e hmem)
      rw [strCompareW, beq_iff_eq] at hcmp
      change (szStr s).map lowerW = (szStr e.1).map lowerW at hcmp
      rw [hszStr, hlower, he] at hcmp
      exact hcmp ▸ hmem
    · exact absurd rfl hunknown

/-! ### The round trip -/

/-- The URLs that are printed: their components are texts that survive UTF-8, the host is
ASCII, and the path is an absolute one and already reduced. -/
structure Url.IsText (url : Url) : Prop where
  scheme : scheme2Enum url.cStrSchemeW ∈
    [Scheme.http, .https, .ftp, .webSocket, .secureWebSocket, .mailTo]
  slash : charAt url.cStrPathW 0 = slashW
  reduced : reducePath url.cStrPathW url.cStrSchemeW = .ok url.cStrPathW
  ascii : ∀ ch ∈ url.cStrHostW, ch < 0x80
  host : SurvivesUtf8 url.cStrHostW
  path : SurvivesUtf8 url.cStrPathW
  query : ∀ item ∈ url.cQueryStringsList, SurvivesUtf8 item.1 ∧ SurvivesUtf8 item.2
  userInfo : SurvivesUtf8 url.cStrUserInfoW
  fragment : SurvivesUtf8 url.cStrFragmentW

/-- The text of the URL is read as the URL. -/
def Url.RoundTrips (isLocalHost : List Byte → Bool) (url : Url) : Prop :=
  ∃ cStrDestA, url.toString addAll = .ok cStrDestA ∧
    parseFromString (urlEnv isLocalHost) cStrDestA = .ok url

theorem isItem_of_text {url : Url} (hinv : url.Invariant) (htext : url.IsText) :
    ∀ item ∈ url.cQueryStringsList, IsItem item := fun item hitem =>
  ⟨hinv.names item hitem, isKeptText_of_survives (htext.query item hitem).1,
    isKeptText_of_survives (htext.query item hitem).2⟩

/-- A URL of the setters with a host scheme. -/
theorem stored_of_text {url : Url} (hinv : url.Invariant) (htext : url.IsText)
    (hscheme : canBeFilename url.cStrSchemeW = false) : url.Stored where
  path := ⟨hscheme, htext.slash, isKeptText_of_survives htext.path, htext.reduced⟩
  host := isKeptText_of_survives htext.host
  ascii := htext.ascii
  port := hinv.port
  query := isItem_of_text hinv htext
  fragment := isKeptText_of_survives htext.fragment
  userInfo := hinv.userInfo

/-- The scheme of a text is that of a mail address, or one with a host. -/
theorem scheme_cases {url : Url} (hinv : url.Invariant) (htext : url.IsText) :
    (url.cStrSchemeW = wide "mailto" ∧ scheme2Enum url.cStrSchemeW = .mailTo) ∨
      ∃ szSchemeA, HostScheme szSchemeA ∧ url.cStrSchemeW = szSchemeA.map UInt8.toUInt16 := by
  have hcode := htext.scheme
  have hmem := scheme_mem hinv.lower hinv.schemeZero (fun h => by rw [h] at hcode; revert hcode; decide)
    (fun h => by rw [h] at hcode; revert hcode; decide)
  generalize scheme2Enum url.cStrSchemeW = code at hcode hmem
  have hhost : ∀ szSchemeA ∈ hostSchemes, url.cStrSchemeW = szSchemeA.map UInt8.toUInt16 →
      ∃ szSchemeA, HostScheme szSchemeA ∧ url.cStrSchemeW = szSchemeA.map UInt8.toUInt16 :=
    fun szSchemeA hA heq => ⟨szSchemeA, hostScheme_of_mem hA, heq⟩
  simp only [validSchemes, List.mem_cons, Prod.mk.injEq, List.not_mem_nil, or_false] at hmem
  rcases hmem with ⟨h, hc⟩ | ⟨h, hc⟩ | ⟨h, hc⟩ | ⟨h, hc⟩ | ⟨h, hc⟩ | ⟨h, hc⟩ | ⟨h, hc⟩ | ⟨h, hc⟩ |
    ⟨h, hc⟩ | ⟨h, hc⟩ | ⟨h, hc⟩
  · exact Or.inl ⟨h, hc⟩
  · exact absurd (hc ▸ hcode) (by decide)
  · exact Or.inr (hhost (ascii "http") (by simp [hostSchemes]) h)
  · exact Or.inr (hhost (ascii "https") (by simp [hostSchemes]) h)
  · exact Or.inr (hhost (ascii "ftp") (by simp [hostSchemes]) h)
  · exact absurd (hc ▸ hcode) (by decide)
  · exact absurd (hc ▸ hcode) (by decide)
  · exact absurd (hc ▸ hcode) (by decide)
  · exact absurd (hc ▸ hcode) (by decide)
  · exact Or.inr (hhost (ascii "ws") (by simp [hostSchemes]) h)
  · exact Or.inr (hhost (ascii "wss") (by simp [hostSchemes]) h)

theorem HostScheme.not_mailTo {szSchemeA : List Byte} (h : HostScheme szSchemeA) :
    scheme2Enum (szSchemeA.map UInt8.toUInt16) ≠ .mailTo ∧
      canBeFilename (szSchemeA.map UInt8.toUInt16) = false :=
  have hfacts := serverScheme_facts h.code
  ⟨hfacts.2.1, hfacts.2.2.2⟩

/-- **A URL is read back exactly when** it is no mail address, and its host is one that
the narrow `SetHost` takes, without the characters that end or cut it; and without a
host, it has no port. -/
theorem urlRoundTrip_iff (isLocalHost : List Byte → Bool) {url : Url} (hbuilt : url.Built)
    (htext : url.IsText) :
    url.RoundTrips isLocalHost ↔
      scheme2Enum url.cStrSchemeW ≠ .mailTo ∧ url.HostReadsBack := by
  have hinv := invariant_of_built hbuilt
  rcases scheme_cases hinv htext with ⟨hmail, hcode⟩ | ⟨szSchemeA, hscheme, heq⟩
  · obtain ⟨cStrDestA, htoString, hparse⟩ := parseFromString_mailTo hmail
      (isItem_of_text hinv htext) (isKeptText_of_survives htext.fragment) isLocalHost
    refine iff_of_false ?_ fun h => h.1 hcode
    rintro ⟨cStrDestA', htoString', hparse'⟩
    rw [htoString] at htoString'
    obtain rfl := Except.ok.inj htoString'
    rw [hparse] at hparse'
    cases hparse'
  · obtain ⟨hnot, hfn⟩ := hscheme.not_mailTo
    rw [← heq] at hnot hfn
    have hstored := stored_of_text hinv htext hfn
    have htoString := toString_host hstored hscheme heq
    constructor
    · rintro ⟨cStrDestA, htoString', hparse⟩
      rw [htoString] at htoString'
      obtain rfl := Except.ok.inj htoString'
      rw [parseFromString_host hscheme] at hparse
      exact ⟨hnot, hostReadsBack_of_parsePath hstored hparse⟩
    · rintro ⟨-, hhost⟩
      exact ⟨_, htoString, parseFromString_toString hstored hscheme heq hhost isLocalHost⟩

/-- `http://example.com:8080/a%20b?k=v%26&x#f` -/
def exampleUrl : Url :=
  ⟨wide "http", wide "example.com", wide "/a b", some 8080,
    [(wide "k", wide "v&"), (wide "x", [])], [], wide "f"⟩

theorem exampleUrl_built : exampleUrl.Built := by
  have hscheme : (⟨wide "http", [], [], none, [], [], []⟩ : Url).Built :=
    .set (.scheme (ascii "HTTP")) .new (by decide)
  have hhost : (⟨wide "http", wide "example.com", [], none, [], [], []⟩ : Url).Built :=
    .set (.host (ascii "example.com")) hscheme (by decide +kernel)
  have hport : (⟨wide "http", wide "example.com", [], some 8080, [], [], []⟩ : Url).Built :=
    .set (.port 8080) hhost (by decide)
  have hpath : (⟨wide "http", wide "example.com", wide "/a b", some 8080, [], [], []⟩ : Url).Built :=
    .set (.path (ascii "/a+b")) hport (by decide)
  have hitem : (⟨wide "http", wide "example.com", wide "/a b", some 8080,
      [(wide "k", wide "v&")], [], []⟩ : Url).Built :=
    .set (.addQueryString (ascii "k") (ascii "v%26")) hpath (by decide)
  have hitems : (⟨wide "http", wide "example.com", wide "/a b", some 8080,
      [(wide "k", wide "v&"), (wide "x", [])], [], []⟩ : Url).Built :=
    .set (.addQueryStringW (wide "x") []) hitem (by decide)
  exact .set (.fragmentW (wide "f")) hitems (by decide)

theorem exampleUrl_isText : exampleUrl.IsText where
  scheme := by decide
  slash := by decide
  reduced := by decide
  ascii := by simp [exampleUrl, wide]
  host := ⟨ascii "example.com", by decide⟩
  path := ⟨ascii "/a b", by decide⟩
  query := by
    intro item hitem
    simp only [exampleUrl, List.mem_cons, List.not_mem_nil, or_false] at hitem
    rcases hitem with rfl | rfl
    · exact ⟨⟨ascii "k", by decide⟩, ⟨ascii "v&", by decide⟩⟩
    · exact ⟨⟨ascii "x", by decide⟩, ⟨[], by decide⟩⟩
  userInfo := ⟨[], by decide⟩
  fragment := ⟨ascii "f", by decide⟩

theorem urlRoundTrip_example : exampleUrl.RoundTrips (fun _ => false) := by
  have hhost : exampleUrl.HostReadsBack := by
    have hall : ((exampleUrl.cStrHostW.map UInt16.toUInt8).all
        fun ch => !hostDelimiters.contains ch) = true := by decide
    rw [Url.HostReadsBack, if_neg (by decide)]
    refine ⟨fun ch hch hin => ?_, Or.inr ⟨ascii "example.com", by decide +kernel⟩⟩
    have hnot := List.all_eq_true.mp hall ch hch
    rw [List.contains_iff_mem.mpr hin] at hnot
    cases hnot
  exact (urlRoundTrip_iff _ exampleUrl_built exampleUrl_isText).mpr ⟨by decide, hhost⟩

/-- A mail address, whose path is lost, and the number of a machine, whose colons are
taken for that of a port. -/
theorem urlRoundTrip_lost :
    (∃ url : Url, url.Built ∧ url.IsText ∧ url.cStrPathW = wide "/joe@example.com" ∧
      url.toString addAll = .ok (ascii "mailto:") ∧ ¬ url.RoundTrips (fun _ => false)) ∧
    ∃ url : Url, url.Built ∧ url.IsText ∧ url.cStrHostW = wide "[::1]" ∧
      url.toString addAll = .ok (ascii "http://[::1]/") ∧ ¬ url.RoundTrips (fun _ => false) := by
  have hlost : ∀ (url : Url) (cStrDestA : List Byte), url.toString addAll = .ok cStrDestA →
      parseFromString (urlEnv fun _ => false) cStrDestA = .error .eFail →
      ¬ url.RoundTrips (fun _ => false) := by
    rintro url cStrDestA htoString hparse ⟨cStrDestA', htoString', hparse'⟩
    rw [htoString] at htoString'
    obtain rfl := Except.ok.inj htoString'
    rw [hparse] at hparse'
    cases hparse'
  have hnil : SurvivesUtf8 [] := ⟨[], by decide⟩
  constructor
  · refine ⟨⟨wide "mailto", [], wide "/joe@example.com", none, [], [], []⟩, ?_, ?_, rfl, ?_, ?_⟩
    · have hscheme : (⟨wide "mailto", [], [], none, [], [], []⟩ : Url).Built :=
        .set (.scheme (ascii "mailto")) .new (by decide)
      exact .set (.path (ascii "/joe@example.com")) hscheme (by decide)
    · exact ⟨by decide, by decide, by decide, fun _ h => (nomatch h), hnil,
        ⟨ascii "/joe@example.com", by decide⟩, fun _ h => (nomatch h), hnil, hnil⟩
    · decide
    · exact hlost _ (ascii "mailto:") (by decide) (by decide)
  · refine ⟨⟨wide "http", wide "[::1]", wide "/", none, [], [], []⟩, ?_, ?_, rfl, ?_, ?_⟩
    · have hscheme : (⟨wide "http", [], [], none, [], [], []⟩ : Url).Built :=
        .set (.scheme (ascii "http")) .new (by decide)
      have hhost : (⟨wide "http", wide "[::1]", [], none, [], [], []⟩ : Url).Built :=
        .set (.hostW (wide "::1")) hscheme (by decide +kernel)
      exact .set (.path (ascii "/")) hhost (by decide)
    · exact ⟨by decide, by decide, by decide, by simp [wide], ⟨ascii "[::1]", by decide⟩,
        ⟨ascii "/", by decide⟩, fun _ h => (nomatch h), hnil, hnil⟩
    · decide
    · exact hlost _ (ascii "http://[::1]/") (by decide) (by decide)

end MxLib.Http
