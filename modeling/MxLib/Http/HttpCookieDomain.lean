import MxLib.Http.HttpCookieText

/-!
# The domain of a cookie

`doesDomainMatch` is `CHttpCookie::DoesDomainMatch` for narrow strings.  It looks for the host at
the end of the domain, where the rule for cookies looks for the domain at the end of the host.
-/

namespace MxLib.Http.HttpCookie

def chDot : Byte := 0x2E

/-- `DoesDomainMatch(szDomainToMatchA)` -/
def FullCookie.doesDomainMatch (c : FullCookie) (szDomainToMatchA : List Byte) : HResult :=
  if isEmptyStr szDomainToMatchA then .eInvalidArg
  else if isEmptyStr c.cStrDomainA then .sOk
  else
    let szDomainA := szStr c.cStrDomainA
    let szDomainToMatchA :=
      if charAt szDomainToMatchA 0 == chDot && charAt szDomainA 0 != chDot then
        szDomainToMatchA.drop 1
      else szDomainToMatchA
    let nToMatchLen := (szStr szDomainToMatchA).length
    let nLength := szDomainA.length
    if nToMatchLen > nLength then .sFalse
    else if strCompareA szDomainToMatchA (szDomainA.drop (nLength - nToMatchLen)) false then .sOk
    else .sFalse

/-! ### The rule -/

/-- The domain, without a dot at its front. -/
def bareDomain (domain : List Byte) : List Byte :=
  if domain.head? = some chDot then domain.tail else domain

/-- The host is the domain, or ends with a dot and the domain. -/
def DomainMatches (domain host : List Byte) : Prop :=
  host = bareDomain domain ∨ chDot :: bareDomain domain <:+ host

/-- A text that can be the name of a host. -/
structure IsHostText (host : List Byte) : Prop where
  ne_nil : host ≠ []
  ne_zero : ∀ ch ∈ host, ch ≠ 0
  head_ne : host.head? ≠ some chDot

/-- A host that does not begin with a dot stands at the end of a domain behind that dot. -/
theorem suffix_bareDomain {domain host : List Byte} (hhost : IsHostText host) :
    host <:+ domain ↔ host <:+ bareDomain domain := by
  rw [bareDomain]
  split
  · rename_i hdot
    cases domain with
    | nil => cases hdot
    | cons ch domain =>
      obtain rfl : ch = chDot := Option.some.inj hdot
      rw [List.tail_cons, List.suffix_cons_iff, or_iff_right]
      rintro rfl
      exact hhost.head_ne rfl
  · rfl

/-- What the source decides: the host stands at the end of the domain. -/
theorem doesDomainMatch_eq_sOk {c : FullCookie} (hc : Built c) (hdomain : c.cStrDomainA ≠ [])
    {host : List Byte} (hhost : IsHostText host) :
    c.doesDomainMatch host = .sOk ↔ host <:+ bareDomain c.cStrDomainA := by
  have hzero : ∀ ch ∈ c.cStrDomainA, ch ≠ 0 := fun ch hch =>
    isAttributeChar_ne_zero (hc.stored.domain ch hch)
  have hdot : (charAt host 0 == chDot) = false := by
    obtain ⟨ch, host, rfl⟩ := List.exists_cons_of_ne_nil hhost.ne_nil
    rw [charAt_cons_zero, beq_eq_false_iff_ne]
    rintro rfl
    exact hhost.head_ne rfl
  rw [← suffix_bareDomain hhost, List.suffix_iff_eq_drop, FullCookie.doesDomainMatch,
    isEmptyStr_of_ne_zero hhost.ne_zero hhost.ne_nil, isEmptyStr_of_ne_zero hzero hdomain, hdot]
  dsimp only
  rw [Bool.false_and, if_neg Bool.false_ne_true, if_neg Bool.false_ne_true, if_neg Bool.false_ne_true,
    szStr_of_ne_zero hzero, szStr_of_ne_zero hhost.ne_zero]
  split
  · rename_i hlong
    refine iff_of_false (by decide) fun heq => ?_
    have hlen := congrArg List.length heq
    rw [List.length_drop] at hlen
    omega
  · have htail : ∀ ch ∈ c.cStrDomainA.drop (c.cStrDomainA.length - host.length), ch ≠ 0 :=
      fun ch hch => hzero ch (List.mem_of_mem_drop hch)
    rw [strCompareA, szStr_of_ne_zero hhost.ne_zero, szStr_of_ne_zero htail]
    simp

/-- **When a host is matched by the rule**: unless it is a name below the domain, or a shorter
end of it. -/
theorem doesDomainMatch_iff {c : FullCookie} (hc : Built c) (hdomain : c.cStrDomainA ≠ [])
    {host : List Byte} (hhost : IsHostText host) :
    (c.doesDomainMatch host = .sOk ↔ DomainMatches c.cStrDomainA host) ↔
      ¬ chDot :: bareDomain c.cStrDomainA <:+ host ∧
        ¬ (host <:+ bareDomain c.cStrDomainA ∧ host ≠ bareDomain c.cStrDomainA) := by
  rw [doesDomainMatch_eq_sOk hc hdomain hhost, DomainMatches]
  have hlonger : chDot :: bareDomain c.cStrDomainA <:+ host → ¬ host <:+ bareDomain c.cStrDomainA := by
    intro hbelow hend
    have hlen := hbelow.length_le
    rw [List.length_cons] at hlen
    have hlen' := hend.length_le
    omega
  constructor
  · intro hmatch
    refine ⟨fun hbelow => hlonger hbelow (hmatch.mpr (Or.inr hbelow)), fun hshort => ?_⟩
    rcases hmatch.mp hshort.1 with heq | hbelow
    · exact hshort.2 heq
    · exact hlonger hbelow hshort.1
  · rintro ⟨hbelow, hshort⟩
    rw [or_iff_left hbelow]
    constructor
    · intro hend
      by_contra hne
      exact hshort ⟨hend, hne⟩
    · intro heq
      exact heq ▸ List.suffix_rfl

/-- The cookies that are kept for `example.com`. -/
theorem built_example : Built { FullCookie.clear with cStrDomainA := ascii ".example.com" } :=
  @Built.domain _ _ (ascii ".example.com") .clear (by decide)

theorem isHostText_of {host : List Byte} (h : host ≠ [] ∧ (∀ ch ∈ host, ch ≠ 0) ∧
    host.head? ≠ some chDot) : IsHostText host :=
  ⟨h.1, h.2.1, h.2.2⟩

theorem doesDomainMatch_example :
    FullCookie.doesDomainMatch { FullCookie.clear with cStrDomainA := ascii ".example.com" }
        (ascii "example.com") = .sOk ↔
      DomainMatches (ascii ".example.com") (ascii "example.com") :=
  (doesDomainMatch_iff built_example (by decide +kernel) (isHostText_of (by decide +kernel))).mpr
    (by decide +kernel)

/-- A name below the domain is not matched, and a shorter end of it is. -/
theorem doesDomainMatch_com : ¬ ∀ (c : FullCookie) (host : List Byte), Built c →
    c.cStrDomainA ≠ [] → IsHostText host →
    (c.doesDomainMatch host = .sOk ↔ DomainMatches c.cStrDomainA host) := by
  intro h
  have hcom := h _ (ascii "com") built_example (by decide)
    (isHostText_of (by decide +kernel))
  have hmatches : ¬ DomainMatches (ascii ".example.com") (ascii "com") := by
    rw [DomainMatches]
    decide
  exact hmatches (hcom.mp (by decide))

end MxLib.Http.HttpCookie
