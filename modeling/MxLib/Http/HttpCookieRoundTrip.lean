import MxLib.Http.HttpCookieRead

/-!
# Cookies that come back

A cookie whose text is parsed again.  The name must be the one the parser finds: up to the
first equals sign, and behind the name of the header where the cookie begins with it.
-/

namespace MxLib.Http.HttpCookie

open MxLib.Library

/-! ### The round trip -/

/-- A value that is not empty, has no blank in front and no quote. -/
def IsPlainValue (v : List Byte) : Prop :=
  ∃ ch tail, v = ch :: tail ∧ isBlank ch = false ∧ ch ≠ chQuote

/-- The two cookies are the same to a caller. -/
structure SameCookie (c c' : FullCookie) : Prop where
  name : c'.cStrNameA = c.cStrNameA
  value : c'.cStrValueA = c.cStrValueA
  path : c'.cStrPathA = c.cStrPathA
  domain : c'.cStrDomainA = c.cStrDomainA
  expiresSet : c'.bExpiresSet = c.bExpiresSet
  expireDate : c'.getExpireDate = c.getExpireDate
  secure : c'.bIsSecure = c.bIsSecure
  httpOnly : c'.bHttpOnly = c.bHttpOnly
  sameSite : c'.nSameSite = c.nSameSite

/-- The text with the attributes is parsed, and gives the cookie. -/
def CookieRoundTrip (parseDate : List Byte → Except HResult DateTime)
    (expireAfter : UInt64 → Except HResult DateTime) (cPastDt : DateTime) (c : FullCookie) : Prop :=
  ∃ text c', c.toString cPastDt true = .ok text ∧
    parseFromResponseHeader parseDate expireAfter text = (.sOk, c') ∧ SameCookie c c'

/-- The name has no equals sign, and does not begin like the header of a cookie. -/
def IsPlainName (szNameA : List Byte) : Prop :=
  chEquals ∉ szNameA ∧ strNCompareA szNameA (ascii "Set-Cookie:") 11 true = false ∧
    strNCompareA szNameA (ascii "Set-Cookie2:") 12 true = false

theorem strNCompareA_name {szNameA P : List Byte} (hname : ∀ ch ∈ szNameA, ch ≠ 0)
    (hP : szStr P = P) (hequals : chEquals ∉ P.map lowerA) (rest : List Byte) :
    strNCompareA (szNameA ++ chEquals :: rest) P P.length true =
      strNCompareA szNameA P P.length true := by
  have htext : szStr (szNameA ++ chEquals :: rest) = szNameA ++ chEquals :: szStr rest := by
    rw [szStr, List.takeWhile_append_of_pos fun ch hch => bne_iff_ne.mpr (hname ch hch),
      List.takeWhile_cons, if_pos (by decide)]
    rfl
  simp only [strNCompareA, htext, szStr_of_ne_zero hname, hP, List.take_length, if_true]
  by_cases hlen : P.length ≤ szNameA.length
  · rw [List.take_append_of_le_length hlen]
  · -- the equals sign is compared with a character of the prefix
    have hleft : chEquals ∈ (szNameA ++ chEquals :: szStr rest).take P.length := by
      rw [List.take_append, List.take_of_length_le (by omega)]
      obtain ⟨n, hn⟩ : ∃ n, P.length - szNameA.length = n + 1 := ⟨P.length - szNameA.length - 1, by omega⟩
      rw [hn, List.take_succ_cons]
      exact List.mem_append_right _ List.mem_cons_self
    have hne : ((szNameA ++ chEquals :: szStr rest).take P.length).map lowerA ≠ P.map lowerA := by
      intro heq
      exact hequals (heq ▸ List.mem_map_of_mem (f := lowerA) hleft)
    have hne' : (szNameA.take P.length).map lowerA ≠ P.map lowerA := by
      intro heq
      have hlen' := congrArg List.length heq
      rw [List.length_map, List.length_map, List.length_take] at hlen'
      omega
    rw [beq_eq_false_iff_ne.mpr hne, beq_eq_false_iff_ne.mpr hne']

theorem length_of_strNCompareA {s P : List Byte} (hP : szStr P = P)
    (h : strNCompareA s P P.length true = true) : P.length ≤ s.length := by
  simp only [strNCompareA, if_true, hP, List.take_length, beq_iff_eq] at h
  have hlen := congrArg List.length h
  rw [List.length_map, List.length_map, List.length_take] at hlen
  have hle : (szStr s).length ≤ s.length := (List.takeWhile_sublist _).length_le
  omega

/-- The name of the header is only skipped where the name of the cookie begins with it. -/
theorem skipHeaderName_eq {szNameA : List Byte} (hname : ∀ ch ∈ szNameA, ch ≠ 0)
    (rest : List Byte) :
    (skipHeaderName (szNameA ++ chEquals :: rest) = szNameA ++ chEquals :: rest ∧
        strNCompareA szNameA (ascii "Set-Cookie:") 11 true = false ∧
        strNCompareA szNameA (ascii "Set-Cookie2:") 12 true = false) ∨
      ∃ k, 0 < k ∧ k ≤ szNameA.length ∧
        skipHeaderName (szNameA ++ chEquals :: rest) = szNameA.drop k ++ chEquals :: rest := by
  have h11 : strNCompareA (szNameA ++ chEquals :: rest) (ascii "Set-Cookie:") 11 true =
      strNCompareA szNameA (ascii "Set-Cookie:") 11 true :=
    strNCompareA_name hname (P := ascii "Set-Cookie:") rfl (by decide) rest
  have h12 : strNCompareA (szNameA ++ chEquals :: rest) (ascii "Set-Cookie2:") 12 true =
      strNCompareA szNameA (ascii "Set-Cookie2:") 12 true :=
    strNCompareA_name hname (P := ascii "Set-Cookie2:") rfl (by decide) rest
  have hlen : (szNameA ++ chEquals :: rest).length ≥ szNameA.length := by
    rw [List.length_append]
    omega
  rw [skipHeaderName, h11, h12]
  by_cases hp : strNCompareA szNameA (ascii "Set-Cookie:") 11 true = true
  · have hle : 11 ≤ szNameA.length :=
      length_of_strNCompareA (P := ascii "Set-Cookie:") rfl hp
    refine Or.inr ⟨11, by omega, hle, ?_⟩
    rw [if_pos (by rw [hp, Bool.and_true, decide_eq_true_eq]; omega),
      List.drop_append_of_le_length hle]
  rw [Bool.not_eq_true] at hp
  by_cases hp2 : strNCompareA szNameA (ascii "Set-Cookie2:") 12 true = true
  · have hle : 12 ≤ szNameA.length :=
      length_of_strNCompareA (P := ascii "Set-Cookie2:") rfl hp2
    refine Or.inr ⟨12, by omega, hle, ?_⟩
    rw [if_neg (by rw [hp, Bool.and_false]; decide),
      if_pos (by rw [hp2, Bool.and_true, decide_eq_true_eq]; omega),
      List.drop_append_of_le_length hle]
  · rw [Bool.not_eq_true] at hp2
    refine Or.inl ⟨?_, hp, hp2⟩
    rw [if_neg (by rw [hp, Bool.and_false]; decide), if_neg (by rw [hp2, Bool.and_false]; decide)]

theorem not_isBlank_of_lt {ch : Byte} (h : 32 < ch) : isBlank ch = false := by
  by_contra hblank
  simp only [isBlank, Bool.not_eq_false, Bool.or_eq_true, beq_iff_eq] at hblank
  rcases hblank with rfl | rfl
  · exact absurd h (by decide)
  · exact absurd h (by decide)

theorem skipSpaces_name {s : List Byte} (h : ∀ ch ∈ s, 32 < ch) (rest : List Byte) :
    skipSpaces (s ++ chEquals :: rest) = s ++ chEquals :: rest := by
  cases s with
  | nil => rfl
  | cons ch s => exact skipSpaces_cons (not_isBlank_of_lt (h ch List.mem_cons_self)) _

theorem length_takeWhile_pairName (s rest : List Byte) :
    ((s ++ chEquals :: rest).takeWhile isPairName).length ≤ s.length := by
  induction s with
  | nil => exact Nat.le_refl 0
  | cons ch s ih =>
    rw [List.cons_append, List.takeWhile_cons]
    split
    · rw [List.length_cons, List.length_cons]
      omega
    · exact Nat.zero_le _

section RoundTrip

variable (parseDate : List Byte → Except HResult DateTime)
  (expireAfter : UInt64 → Except HResult DateTime)

/-- What comes back has the name of the cookie. -/
def KeepsName (c : FullCookie) (r : Except HResult FullCookie) : Prop :=
  ∀ c', r = .ok c' → c'.cStrNameA = c.cStrNameA

theorem KeepsName.ok {c c' : FullCookie} (h : c'.cStrNameA = c.cStrNameA) :
    KeepsName c (.ok c') := by
  intro d hd
  rw [← Except.ok.inj hd, h]

theorem KeepsName.error (c : FullCookie) (hRes : HResult) : KeepsName c (.error hRes) := by
  intro d hd
  cases hd

theorem KeepsName.ite {c : FullCookie} {a b : Except HResult FullCookie} {p : Prop} [Decidable p]
    (ha : KeepsName c a) (hb : KeepsName c b) : KeepsName c (if p then a else b) := by
  split
  · exact ha
  · exact hb

theorem KeepsName.date (c : FullCookie) (r : Except HResult DateTime) :
    KeepsName c (r.map fun cDt => c.setExpireDate (some cDt)) := by
  cases r with
  | error hRes => exact .error c hRes
  | ok cDt => exact .ok rfl

/-- No attribute changes the name. -/
theorem keepsName_addAttribute (c : FullCookie) (szNameA v : List Byte) :
    KeepsName c (c.addAttribute parseDate expireAfter szNameA v) := by
  have hpath : KeepsName c (c.setPath v) := by
    rw [setPath_eq]
    exact .ite (.ok rfl) (.error c _)
  have hdomain : KeepsName c (c.setDomain v) := by
    rw [setDomain_eq]
    exact .ite (.ok rfl) (.error c _)
  refine .ite (.ok rfl) (.ite (.ok rfl) (.ite (.ok rfl) (.ite ?_ (.ite (.date c _) (.ite hpath
    (.ite hdomain (.ite (.ite (.ok rfl) (.ite (.ok rfl) (.ite (.ok rfl) (.error c _))))
      (.error c _))))))))
  cases parseMaxAge v with
  | error hRes => exact .error c hRes
  | ok nMaxAge => exact .date c _

theorem exec_name (dflt : HResult × FullCookie) (s : AttributeScan) :
    (Loop.exec (attributeTurn parseDate expireAfter) (fun s => s.sA.length) dflt s).2.cStrNameA =
      s.cookie.cStrNameA := by
  obtain ⟨t, hreach, hleave⟩ := Loop.exists_reach_exec
    (attributeTurn_measure parseDate expireAfter) dflt s
  have hkeep : t.cookie.cStrNameA = s.cookie.cStrNameA := by
    refine Loop.reach_induct (fun t => t.cookie.cStrNameA = s.cookie.cStrNameA) ?_ rfl hreach
    intro t t' ht hturn
    rw [attributeTurn] at hturn
    split at hturn
    · cases hturn
    split at hturn
    · cases hturn
    split at hturn
    · cases hturn
    next c hadd =>
      obtain rfl := Sum.inl.inj hturn
      exact (keepsName_addAttribute parseDate expireAfter _ _ _ _ hadd).trans ht
  rw [← hkeep]
  rw [attributeTurn] at hleave
  split at hleave
  · rw [← Sum.inr.inj hleave]
  split at hleave
  · rw [← Sum.inr.inj hleave]
  split at hleave
  · rw [← Sum.inr.inj hleave]
  · cases hleave

/-- **The name of a cookie that was read.** -/
theorem name_of_parse {text : List Byte} {c' : FullCookie}
    (h : parseFromResponseHeader parseDate expireAfter text = (.sOk, c')) :
    c'.cStrNameA =
      szStr ((skipSpaces (skipSpaces (skipHeaderName text))).takeWhile isPairName) := by
  rw [parseFromResponseHeader] at h
  rcases getPairA_cases false (skipSpaces (skipHeaderName text)) with herr | ⟨p, hpair, hp⟩
  · rw [herr] at h
    cases (Prod.mk.inj h).1
  rw [hpair] at h
  simp only at h
  split at h
  next hRes hset =>
    rw [FullCookie.setName] at hset
    split at hset
    · cases hset
    · obtain rfl := Except.error.inj hset
      cases (Prod.mk.inj h).1
  next c hset =>
    obtain ⟨rfl, -⟩ := setName_eq_ok hset
    split at h
    next hRes hset' =>
      rw [FullCookie.setValue] at hset'
      split at hset'
      · cases hset'
      · obtain rfl := Except.error.inj hset'
        cases (Prod.mk.inj h).1
    next c hset' =>
      obtain ⟨rfl, -⟩ := setValue_eq_ok hset'
      rw [← hp, ← (Prod.mk.inj h).2]
      exact exec_name parseDate expireAfter _ _

/-- A cookie that comes back has a plain name. -/
theorem isPlainName_of_parse {c c' : FullCookie} (hc : c.Stored) {rest : List Byte}
    (h : parseFromResponseHeader parseDate expireAfter (c.cStrNameA ++ chEquals :: rest) = (.sOk, c'))
    (hsame : c'.cStrNameA = c.cStrNameA) : IsPlainName c.cStrNameA := by
  have hread := name_of_parse parseDate expireAfter h
  rw [hsame] at hread
  have hequals : chEquals ∉ c.cStrNameA := by
    intro hmem
    rw [hread, szStr] at hmem
    have hin := (List.takeWhile_sublist _).subset hmem
    exact absurd (List.mem_takeWhile_imp hin) (by decide)
  rcases skipHeaderName_eq hc.name_ne_zero rest with ⟨-, hp, hp2⟩ | ⟨k, hk, hle, hskip⟩
  · exact ⟨hequals, hp, hp2⟩
  · -- the name that was read is shorter
    have hchars : ∀ ch ∈ c.cStrNameA.drop k, 32 < ch :=
      fun ch hch => (hc.name ch (List.mem_of_mem_drop hch)).2.2
    rw [hskip, skipSpaces_name hchars, skipSpaces_name hchars] at hread
    have hlen : c.cStrNameA.length ≤ (c.cStrNameA.drop k).length := by
      refine Nat.le_trans ?_ (length_takeWhile_pairName (c.cStrNameA.drop k) rest)
      exact (congrArg List.length hread).le.trans (List.takeWhile_sublist _).length_le
    rw [List.length_drop] at hlen
    omega

/-- The cookie with the first pair only. -/
def pairCookie (c : FullCookie) : FullCookie :=
  { FullCookie.clear with cStrNameA := c.cStrNameA, cStrValueA := c.cStrValueA }

/-- With a plain name the attributes are reached. -/
theorem parse_text {c : FullCookie} (hc : c.Stored) (hname : c.cStrNameA ≠ [])
    (hplain : IsPlainName c.cStrNameA) (hvalue : IsPlainValue c.cStrValueA) (dates : List Attribute) :
    ∃ dflt, parseFromResponseHeader parseDate expireAfter (c.text dates) =
      Loop.exec (attributeTurn parseDate expireAfter) (fun s => s.sA.length) dflt
        ⟨pairCookie c, (attributesText (c.attributes dates)).drop 1⟩ := by
  obtain ⟨hequals, hp, hp2⟩ := hplain
  obtain ⟨ch, v, hv, hblank, hquote⟩ := hvalue
  have hskip : skipHeaderName (c.text dates) = c.text dates := by
    rcases skipHeaderName_eq hc.name_ne_zero (c.cStrValueA ++ attributesText (c.attributes dates)) with
      ⟨hskip, -⟩ | ⟨k, hk, hle, hskip⟩
    · exact hskip
    · -- the prefix is not there
      have h11 := strNCompareA_name hc.name_ne_zero (P := ascii "Set-Cookie:") rfl (by decide)
        (c.cStrValueA ++ attributesText (c.attributes dates))
      have h12 := strNCompareA_name hc.name_ne_zero (P := ascii "Set-Cookie2:") rfl (by decide)
        (c.cStrValueA ++ attributesText (c.attributes dates))
      rw [FullCookie.text, skipHeaderName, if_neg, if_neg]
      · rw [show (12 : Nat) = (ascii "Set-Cookie2:").length from rfl, h12,
          show (ascii "Set-Cookie2:").length = 12 from rfl, hp2, Bool.and_false]
        decide
      · rw [show strNCompareA (c.cStrNameA ++ chEquals :: (c.cStrValueA ++
          attributesText (c.attributes dates))) (ascii "Set-Cookie:") 11 true = false from
            h11.trans hp, Bool.and_false]
        decide
  have hchars : ∀ ch ∈ c.cStrNameA, 32 < ch := fun ch hch => (hc.name ch hch).2.2
  have hstart : skipSpaces (skipSpaces (skipHeaderName (c.text dates))) =
      c.cStrNameA ++ chEquals :: (ch :: v ++ attributesText (c.attributes dates)) := by
    rw [hskip, FullCookie.text, hv, skipSpaces_name hchars, skipSpaces_name hchars]
  have hkey : c.cStrNameA.all isPairName = true := by
    rw [List.all_eq_true]
    intro x hx
    rw [isPairName, Bool.and_eq_true, bne_iff_ne, bne_iff_ne]
    exact ⟨fun h => hequals (h ▸ hx), (hc.name x hx).1⟩
  have hpair := getPairA_value false c.cStrNameA hstart hname hkey hblank (.inr hquote)
    fun x hx => (hc.value x (hv ▸ hx)).1
  rw [← hv] at hpair
  refine ⟨(.eFail, pairCookie c), ?_⟩
  simp only [parseFromResponseHeader, hpair, setName_of hc.name, setValue_of hc.value]
  rfl

/-! ### The attributes of a stored cookie -/

theorem applyAll_append (l l' : List Attribute) (c : FullCookie) :
    applyAll (l ++ l') c = (applyAll l c).bind (applyAll l') := by
  induction l generalizing c with
  | nil => rfl
  | cons a l ih =>
    rw [List.cons_append, applyAll, applyAll]
    cases a.apply c with
    | none => rfl
    | some c' => exact ih c'

theorem applyAll_none {l : List Attribute} {a : Attribute} (hmem : a ∈ l)
    (ha : ∀ c, a.apply c = none) (c : FullCookie) : applyAll l c = none := by
  obtain ⟨pre, post, rfl⟩ := List.append_of_mem hmem
  rw [applyAll_append]
  cases applyAll pre c with
  | none => rfl
  | some c' => rw [Option.bind_some, applyAll, ha, Option.bind_none]

theorem stored_attributes {c : FullCookie} (hc : c.Stored) {dates : List Attribute}
    (hdates : ∀ a ∈ dates, a.Stored) : ∀ a ∈ c.attributes dates, a.Stored := by
  intro a ha
  simp only [FullCookie.attributes, List.mem_append] at ha
  rcases ha with ((((ha | ha) | ha) | ha) | ha) | ha
  · split at ha
    · exact absurd ha List.not_mem_nil
    next hne =>
      rw [List.mem_singleton.mp ha]
      exact ⟨hne, hc.path⟩
  · split at ha
    · exact absurd ha List.not_mem_nil
    next hne =>
      rw [List.mem_singleton.mp ha]
      exact ⟨hne, hc.domain⟩
  · exact hdates a ha
  · split at ha
    · rw [List.mem_singleton.mp ha]
      trivial
    · exact absurd ha List.not_mem_nil
  · split at ha
    · rw [List.mem_singleton.mp ha]
      trivial
    · exact absurd ha List.not_mem_nil
  · cases hmode : c.nSameSite with
    | none =>
      rw [hmode] at ha
      exact absurd ha List.not_mem_nil
    | lax =>
      rw [hmode] at ha
      rw [List.mem_singleton.mp ha]
      exact List.mem_cons_self
    | strict =>
      rw [hmode] at ha
      rw [List.mem_singleton.mp ha]
      exact List.mem_cons_of_mem _ List.mem_cons_self

/-- The cookie with what the attributes give back. -/
def readCookie (c : FullCookie) : FullCookie :=
  { pairCookie c with
    cStrDomainA := c.cStrDomainA
    cStrPathA := c.cStrPathA
    bIsSecure := c.bIsSecure
    bHttpOnly := c.bHttpOnly }

/-- What the attributes do, where none of them is refused. -/
theorem applyAll_attributes {c : FullCookie} (hmode : c.nSameSite = .none) :
    applyAll (c.attributes []) (pairCookie c) = some (readCookie c) := by
  rw [FullCookie.attributes, hmode]
  by_cases hpath : c.cStrPathA = [] <;> by_cases hdomain : c.cStrDomainA = [] <;>
    cases hsecure : c.bIsSecure <;> cases hhttp : c.bHttpOnly <;>
    simp [hpath, hdomain, hsecure, hhttp, applyAll, Attribute.apply, readCookie, pairCookie,
      FullCookie.clear]

/-- **A cookie comes back from its text exactly when** it has no expiration date and no
SameSite mode, and its name is plain. -/
theorem cookieRoundTrip_iff (cPastDt : DateTime) {c : FullCookie} (hc : Built c)
    (hname : c.cStrNameA ≠ []) (hvalue : IsPlainValue c.cStrValueA) :
    CookieRoundTrip parseDate expireAfter cPastDt c ↔
      c.bExpiresSet = false ∧ c.nSameSite = .none ∧ IsPlainName c.cStrNameA := by
  have hst := hc.stored
  have hvalue' : c.cStrValueA ≠ [] := by
    obtain ⟨ch, v, hv, -⟩ := hvalue
    rw [hv]
    exact List.cons_ne_nil _ _
  have hto := toString_eq hst hname hvalue' cPastDt
  constructor
  · rintro ⟨text, c', htext, hparse, hsame⟩
    -- the text is the one of a list of attributes, with the date in it
    obtain ⟨dates, rfl, hdates, hset⟩ : ∃ dates, text = c.text dates ∧ (∀ a ∈ dates, a.Stored) ∧
        (c.bExpiresSet = true → ∃ s, .date s ∈ dates) := by
      rw [hto] at htext
      cases hexp : c.bExpiresSet with
      | false =>
        rw [hexp] at htext
        exact ⟨[], (Except.ok.inj htext).symm, fun _ h => absurd h List.not_mem_nil,
          fun h => nomatch h⟩
      | true =>
        rw [hexp, if_pos rfl] at htext
        obtain ⟨cStrA, hformat, rfl⟩ := exists_of_map_ok htext
        obtain ⟨s, rfl, hs⟩ := isDateText_of_formatText hformat
        refine ⟨[.date s], ?_, ?_, fun _ => ⟨s, List.mem_cons_self⟩⟩
        · rw [text_eq hst]
          have hdate : attributesText [.date s] = ascii "; " ++ s := List.append_nil _
          rw [hdate]
        · intro a ha
          rw [List.mem_singleton.mp ha]
          exact hs
    have hplain := isPlainName_of_parse parseDate expireAfter hst hparse hsame.name
    obtain ⟨dflt, hrun⟩ := parse_text parseDate expireAfter hst hname hplain hvalue dates
    have hexec := exec_attributeTurn parseDate expireAfter dflt (c.attributes dates) (pairCookie c)
      (stored_attributes hst hdates)
    rw [← hrun, hparse] at hexec
    have hread : applyAll (c.attributes dates) (pairCookie c) ≠ none := by
      intro hnone
      rw [hnone] at hexec
      cases hexec
    refine ⟨?_, ?_, hplain⟩
    · by_contra hexp
      obtain ⟨s, hs⟩ := hset (by simpa using hexp)
      refine hread (applyAll_none (a := .date s) ?_ (fun _ => rfl) _)
      simp [FullCookie.attributes, hs]
    · cases hmode : c.nSameSite with
      | none => rfl
      | lax =>
        refine absurd (applyAll_none (a := .sameSite (ascii "Lax")) ?_ (fun _ => rfl) _) hread
        simp [FullCookie.attributes, hmode]
      | strict =>
        refine absurd (applyAll_none (a := .sameSite (ascii "Strict")) ?_ (fun _ => rfl) _) hread
        simp [FullCookie.attributes, hmode]
  · rintro ⟨hexp, hmode, hplain⟩
    rw [hexp] at hto
    obtain ⟨dflt, hrun⟩ := parse_text parseDate expireAfter hst hname hplain hvalue []
    have hexec := exec_attributeTurn parseDate expireAfter dflt (c.attributes []) (pairCookie c)
      (stored_attributes hst fun _ h => absurd h List.not_mem_nil)
    rw [applyAll_attributes hmode] at hexec
    refine ⟨_, _, hto, hrun.trans hexec, rfl, rfl, rfl, rfl, ?_, ?_, rfl, rfl, ?_⟩
    · rw [hexp]
      rfl
    · rw [FullCookie.getExpireDate, FullCookie.getExpireDate, hexp]
      rfl
    · rw [hmode]
      rfl

end RoundTrip

theorem cookieRoundTrip_session :
    CookieRoundTrip (fun _ => .error .mxInvalidData) (fun _ => .error .eFail) ⟨0, 0⟩
      ⟨⟨ascii "id", ascii "a b, \"c\"", false, ⟨0, 0⟩⟩, ascii "example.com", ascii "/x", true, true,
        .none⟩ := by
  have hname : FullCookie.clear.setName (ascii "id") =
      .ok ⟨⟨ascii "id", [], false, ⟨0, 0⟩⟩, [], [], false, false, .none⟩ := by decide
  have hvalue : FullCookie.setValue ⟨⟨ascii "id", [], false, ⟨0, 0⟩⟩, [], [], false, false, .none⟩
      (ascii "a b, \"c\"") = .ok ⟨⟨ascii "id", ascii "a b, \"c\"", false, ⟨0, 0⟩⟩, [], [], false,
        false, .none⟩ := by decide
  have hpath : FullCookie.setPath ⟨⟨ascii "id", ascii "a b, \"c\"", false, ⟨0, 0⟩⟩, [], [], false,
      false, .none⟩ (ascii "/x") = .ok ⟨⟨ascii "id", ascii "a b, \"c\"", false, ⟨0, 0⟩⟩, [],
        ascii "/x", false, false, .none⟩ := by decide
  have hdomain : FullCookie.setDomain ⟨⟨ascii "id", ascii "a b, \"c\"", false, ⟨0, 0⟩⟩, [],
      ascii "/x", false, false, .none⟩ (ascii "example.com") = .ok ⟨⟨ascii "id", ascii "a b, \"c\"",
        false, ⟨0, 0⟩⟩, ascii "example.com", ascii "/x", false, false, .none⟩ := by decide
  have hbuilt := ((((Built.clear.name hname).value hvalue).path hpath).domain hdomain).secureFlag true
  exact (cookieRoundTrip_iff _ _ ⟨0, 0⟩ (hbuilt.httpOnlyFlag true) (by decide)
    ⟨0x61, ascii " b, \"c\"", by decide, by decide, by decide⟩).mpr
      ⟨rfl, rfl, by decide, by decide, by decide⟩

/-- A SameSite mode or an expiration date makes the text one that is refused. -/
theorem cookieRoundTrip_refused :
    (FullCookie.toString ⟨0, 0⟩ ⟨⟨ascii "a", ascii "1", false, ⟨0, 0⟩⟩, [], [], false, false, .lax⟩
        true = .ok (ascii "a=1; eSameSite::=Lax") ∧
      ¬ CookieRoundTrip (fun _ => .error .mxInvalidData) (fun _ => .error .eFail) ⟨0, 0⟩
        ⟨⟨ascii "a", ascii "1", false, ⟨0, 0⟩⟩, [], [], false, false, .lax⟩) ∧
    (FullCookie.toString ⟨0, 0⟩ ⟨⟨ascii "a", ascii "1", true, ⟨637134336600000000, 0⟩⟩, [], [], false,
        false, .none⟩ true = .ok (ascii "a=1; Wed, 01-01-2020 00:01:00 GMT") ∧
      ¬ CookieRoundTrip (fun _ => .error .mxInvalidData) (fun _ => .error .eFail) ⟨0, 0⟩
        ⟨⟨ascii "a", ascii "1", true, ⟨637134336600000000, 0⟩⟩, [], [], false, false, .none⟩) := by
  have hmode : FullCookie.toString ⟨0, 0⟩ ⟨⟨ascii "a", ascii "1", false, ⟨0, 0⟩⟩, [], [], false, false,
      .lax⟩ true = .ok (ascii "a=1; eSameSite::=Lax") := by decide
  have hdate : FullCookie.toString ⟨0, 0⟩ ⟨⟨ascii "a", ascii "1", true, ⟨637134336600000000, 0⟩⟩, [],
      [], false, false, .none⟩ true = .ok (ascii "a=1; Wed, 01-01-2020 00:01:00 GMT") := by
    decide
  have hread : ∀ text ∈ [ascii "a=1; eSameSite::=Lax", ascii "a=1; Wed, 01-01-2020 00:01:00 GMT"],
      (parseFromResponseHeader (fun _ => .error .mxInvalidData) (fun _ => .error .eFail) text).1 =
        .mxInvalidData := by decide
  refine ⟨⟨hmode, ?_⟩, hdate, ?_⟩
  · rintro ⟨text, c', htext, hparse, -⟩
    obtain rfl := Except.ok.inj (hmode.symm.trans htext)
    have hres := hread _ List.mem_cons_self
    rw [hparse] at hres
    cases hres
  · rintro ⟨text, c', htext, hparse, -⟩
    obtain rfl := Except.ok.inj (hdate.symm.trans htext)
    have hres := hread _ (List.mem_cons_of_mem _ List.mem_cons_self)
    rw [hparse] at hres
    cases hres

end MxLib.Http.HttpCookie
