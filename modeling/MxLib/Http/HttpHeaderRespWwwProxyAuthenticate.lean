import MxLib.Http.HeaderParamList

/-!
# WWW-Authenticate and Proxy-Authenticate

`parse` is `CHttpHeaderRespWwwProxyAuthenticateCommon::Parse` and `build` is `Build`.

Behind the scheme and its blanks `Parse` steps over one character, as the other headers
do for the semicolon in front of their parameters.  Here that character is the first one
of the first name (`parse_challenge`), so a challenge is read faithfully, and what
`Build` writes is read back, only if there are no parameters (`challenge_iff`).
-/

namespace MxLib.Http

open MxLib.Library

/-- `CHttpHeaderRespWwwProxyAuthenticateCommon` -/
structure Challenge where
  cStrSchemeA : List Byte
  aParamsList : ParamsList
deriving DecidableEq

/-- The constructor. -/
def Challenge.create : Challenge := ⟨[], []⟩

/-- `SetScheme` -/
def Challenge.setScheme (h : Challenge) (szSchemeA : List Byte) : Except HResult Challenge :=
  if szSchemeA = [] then .error .mxInvalidData
  else if (getToken szSchemeA).2 ≠ [] then .error .mxInvalidData
  else .ok { h with cStrSchemeA := szSchemeA }

/-- What may stand between two parameters. -/
def isChallengeSeparator (ch : Byte) : Bool := ch == chSemicolon || ch == chComma

/-- `Parse`, with at most `fuel` turns of each loop. -/
def Challenge.parse (fuel : Nat) (h : Challenge) (szValueA : List Byte) :
    Option (HResult × Challenge) :=
  let szStartA := skipSpaces szValueA
  let szValueA := skipUntil szWordEnds szStartA
  let szSchemeA := szStartA.take (szStartA.length - szValueA.length)
  if szSchemeA = [] then some (.mxInvalidData, h)
  else
    match h.setScheme szSchemeA with
    | .error hRes => some (hRes, h)
    | .ok h =>
      match skipSpaces szValueA with
      | [] => some (.sOk, h)
      | _ :: rest =>
        (Loop.run (paramListTurn isChallengeSeparator fuel) fuel ⟨h.aParamsList, rest⟩).join.map
          fun r => (r.atEnd.1, { h with aParamsList := r.atEnd.2 })

/-- A parameter as `Build` writes it. -/
def buildChallengeParam (p : List Byte × List WChar) : List Byte :=
  ascii " " ++ szStr p.1 ++ ascii "=" ++ szStr (buildQuotedStringW (szStr p.2) true)

/-- `Build` -/
def Challenge.build (h : Challenge) : List Byte :=
  if isEmptyStr h.cStrSchemeA then []
  else szStr h.cStrSchemeA ++ h.aParamsList.flatMap buildChallengeParam

/-! ### What is parsed -/

/-- The name of a scheme. -/
structure AuthScheme extends Token where
  notEmpty : text ≠ []

/-- The challenge with a list of parameters behind a blank. -/
def challengeText (scheme : AuthScheme) (l : List ParamText) : List Byte :=
  scheme.text ++ chSpace :: paramsText chComma l

theorem setScheme_token (h : Challenge) (scheme : AuthScheme) :
    h.setScheme scheme.text = .ok { h with cStrSchemeA := scheme.text } := by
  rw [Challenge.setScheme, if_neg scheme.notEmpty, getToken_self scheme.isToken]
  rfl

def AuthScheme.word (scheme : AuthScheme) : Word where
  text := scheme.text
  notEmpty := scheme.notEmpty
  isWord := all_isWordChar scheme.isToken

/-- **The scheme is read**, and one character behind it and its blanks is not. -/
theorem parse_scheme (fuel : Nat) (h : Challenge) (scheme : AuthScheme) (rest : List Byte)
    (hrest : rest = [] ∨ szWordEnds.contains (charAt rest 0) = true) :
    h.parse fuel (scheme.text ++ rest) =
      match skipSpaces rest with
      | [] => some (.sOk, { h with cStrSchemeA := scheme.text })
      | _ :: rest =>
        (Loop.run (paramListTurn isChallengeSeparator fuel) fuel ⟨h.aParamsList, rest⟩).join.map
          fun r => (r.atEnd.1, ⟨scheme.text, r.atEnd.2⟩) := by
  have hstart : skipSpaces (scheme.text ++ rest) = scheme.text ++ rest :=
    skipSpaces_word scheme.word rest
  obtain ⟨huntil, htake⟩ : skipUntil szWordEnds (scheme.text ++ rest) = rest ∧
      (scheme.text ++ rest).take ((scheme.text ++ rest).length - rest.length) = scheme.text :=
    skipUntil_word scheme.word hrest
  simp only [Challenge.parse, hstart, huntil, htake, setScheme_token]
  rw [if_neg scheme.notEmpty]

/-- A scheme on its own. -/
theorem parse_schemeOnly (fuel : Nat) (scheme : AuthScheme) :
    Challenge.parse fuel .create scheme.text = some (.sOk, ⟨scheme.text, []⟩) := by
  have hparse := parse_scheme fuel .create scheme [] (Or.inl rfl)
  rwa [List.append_nil] at hparse

/-- The name without its first character, if something is left of it. -/
def ParamName.tail (name : ParamName) (hne : name.text.tail ≠ []) : ParamName where
  text := name.text.tail
  isToken := by
    rw [List.all_eq_true]
    intro ch hch
    exact List.all_eq_true.mp name.isToken ch (List.mem_of_mem_tail hch)
  notEmpty := hne
  notExtended := by
    have hlast := name.notExtended
    obtain ⟨ch, tail, htext⟩ := List.exists_cons_of_ne_nil name.notEmpty
    rw [htext, List.tail_cons] at hne ⊢
    obtain ⟨ch', tail', rfl⟩ := List.exists_cons_of_ne_nil hne
    rwa [htext, List.getLast?_cons_cons] at hlast

/-- A parameter without a name ends the loop. -/
theorem run_noName (fuel n : Nat) (aParamsList : ParamsList) (rest : List Byte) :
    Loop.run (paramListTurn isChallengeSeparator fuel) (n + 1) ⟨aParamsList, chEquals :: rest⟩ =
      some (some ⟨.mxInvalidData, aParamsList, chEquals :: rest⟩) := by
  have htoken : getToken (chEquals :: rest) = ([], chEquals :: rest) := rfl
  refine Loop.run_succ_inr ?_ n
  simp only [paramListTurn, skipSpaces_cons (show isBlank chEquals = false by decide),
    getParamNameAndValue, htoken]
  rfl

/-- **What is parsed of a challenge with parameters**: all of it but the first character
of the first name.  A name of one character is lost, and the challenge refused. -/
theorem parse_challenge {fuel : Nat} (scheme : AuthScheme) (p : ParamText) (l : List ParamText)
    (hfuel : (challengeText scheme (p :: l)).length < fuel) :
    Challenge.parse fuel .create (challengeText scheme (p :: l)) =
      some (if p.name.text.tail = [] then (.mxInvalidData, ⟨scheme.text, []⟩)
        else (.sOk, ⟨scheme.text, (p.name.text.tail, p.entry.2) :: l.map ParamText.entry⟩)) := by
  obtain ⟨ch, tail, hname⟩ := List.exists_cons_of_ne_nil p.name.notEmpty
  let more := p.value.text ++ (p.after.text ++ moreParams chComma [] l)
  have htext : paramsText chComma (p :: l) =
      p.before.text ++ ((ch :: tail) ++ chEquals :: more) := by
    rw [← hname]
    rfl
  have hstart : skipSpaces (paramsText chComma (p :: l)) = ch :: (tail ++ chEquals :: more) := by
    rw [htext, skipSpaces_blanks, ← hname, skipSpaces_token p.name.isToken p.name.notEmpty, hname]
    rfl
  rw [challengeText, List.length_append, List.length_cons, htext, List.length_append,
    List.length_append, List.length_cons, List.length_cons] at hfuel
  have hblank : skipSpaces (chSpace :: paramsText chComma (p :: l)) =
      ch :: (tail ++ chEquals :: more) := hstart
  rw [challengeText, parse_scheme fuel .create scheme _ (Or.inr rfl), hblank]
  obtain ⟨n, rfl⟩ := Nat.exists_eq_succ_of_ne_zero (Nat.ne_of_gt (Nat.zero_lt_of_lt hfuel))
  by_cases htail : p.name.text.tail = []
  · have hrun := run_noName (n + 1) n [] more
    rw [if_pos htail]
    rw [hname, List.tail_cons] at htail
    simp only [Challenge.create, htail, List.nil_append, hrun]
    rfl
  · let p' : ParamText := ⟨.none, p.name.tail htail, p.value, p.after⟩
    have hp' : paramsText chComma (p' :: l) = tail ++ chEquals :: more := by
      have hshort : paramsText chComma (p' :: l) = p.name.text.tail ++ chEquals :: more := rfl
      rw [hshort, hname, List.tail_cons]
    have hlen : (paramsText chComma (p' :: l)).length < n + 1 := by
      rw [hp', List.length_append, List.length_cons]
      omega
    have hcount := length_le_paramsText chComma (p' :: l)
    have hrun := run_paramList isChallengeSeparator chComma rfl rfl rfl (p' :: l)
      (n + 1) [] (by omega) hlen
    rw [hp'] at hrun
    simp only [Challenge.create, hrun, if_neg htail]
    rfl

/-! ### The challenges that are kept -/

/-- `Parse` succeeds and records the scheme and the parameters. -/
def ParsesChallenge (scheme : AuthScheme) (l : List ParamText) : Prop :=
  ∃ n, ∀ fuel ≥ n, Challenge.parse fuel .create (challengeText scheme l) =
    some (.sOk, ⟨scheme.text, l.map ParamText.entry⟩)

/-- What `Build` writes is read back. -/
def ChallengeRoundTrip (h : Challenge) : Prop :=
  ∃ n, ∀ fuel ≥ n, Challenge.parse fuel .create h.build = some (.sOk, h)

theorem cons_ne_tail {ch : Byte} {tail : List Byte} : ch :: tail ≠ tail := by
  intro h
  exact Nat.succ_ne_self _ (congrArg List.length h)

theorem parsesChallenge_iff (scheme : AuthScheme) (l : List ParamText) :
    ParsesChallenge scheme l ↔ l = [] := by
  constructor
  · rintro ⟨n, hparse⟩
    cases l with
    | nil => rfl
    | cons p l =>
      exfalso
      have hrun := hparse (n + (challengeText scheme (p :: l)).length + 1) (by omega)
      rw [parse_challenge scheme p l (by omega), Option.some.injEq] at hrun
      obtain ⟨ch, tail, hname⟩ := List.exists_cons_of_ne_nil p.name.notEmpty
      split at hrun
      · cases (Prod.mk.inj hrun).1
      · have hlist := congrArg Challenge.aParamsList (Prod.mk.inj hrun).2
        have hfirst := congrArg Prod.fst (List.cons.inj hlist).1
        have hsame : p.name.text.tail = p.name.text := hfirst
        rw [hname, List.tail_cons] at hsame
        exact cons_ne_tail hsame.symm
  · rintro rfl
    refine ⟨0, fun fuel _ => ?_⟩
    rw [challengeText, parse_scheme fuel .create scheme _ (Or.inr rfl)]
    rfl

theorem build_text (scheme : AuthScheme) (aParamsList : ParamsList) :
    Challenge.build ⟨scheme.text, aParamsList⟩ =
      scheme.text ++ aParamsList.flatMap buildChallengeParam := by
  have hzero : ∀ ch ∈ scheme.text, ch ≠ 0 :=
    fun ch hch => isTokenChar_ne_zero (List.all_eq_true.mp scheme.isToken ch hch)
  rw [Challenge.build, isEmptyStr_of_ne_zero hzero scheme.notEmpty, szStr_of_ne_zero hzero]
  rfl

/-- **The first name is read without its first character**, whatever is behind it. -/
theorem parse_firstName {fuel : Nat} {scheme : AuthScheme} {name : ParamName} {more : List Byte}
    {h : Challenge} (hparse : Challenge.parse fuel .create
      (scheme.text ++ chSpace :: (name.text ++ chEquals :: more)) = some (.sOk, h)) :
    ∃ szValueW l, h.aParamsList = (name.text.tail, szValueW) :: l := by
  obtain ⟨ch, tail, hname⟩ := List.exists_cons_of_ne_nil name.notEmpty
  have hstart : skipSpaces (chSpace :: (name.text ++ chEquals :: more)) =
      ch :: (tail ++ chEquals :: more) := by
    have hskip := skipSpaces_token name.isToken name.notEmpty (chEquals :: more)
    rw [hname] at hskip ⊢
    exact hskip
  rw [parse_scheme fuel .create scheme _ (Or.inr rfl), hstart] at hparse
  obtain ⟨r, hrun, hr⟩ := Option.map_eq_some_iff.mp hparse
  have hloop := Option.join_eq_some_iff.mp hrun
  have hok := failed_of_atEnd (Prod.mk.inj hr).1
  have hlist : h.aParamsList = r.aParamsList := by
    rw [← (Prod.mk.inj hr).2, atEnd_snd]
  obtain ⟨n, hn⟩ : ∃ n, fuel = n + 1 := by
    cases fuel with
    | zero => cases hloop
    | succ n => exact ⟨n, rfl⟩
  by_cases htail : name.text.tail = []
  · rw [hname, List.tail_cons] at htail
    rw [htail, List.nil_append, hn, run_noName] at hloop
    cases hloop
    cases hok
  · have hskip := skipSpaces_token (name.tail htail).isToken htail (chEquals :: more)
    have htext : (name.tail htail).text ++ chEquals :: more = tail ++ chEquals :: more := by
      have hshort : (name.tail htail).text = name.text.tail := rfl
      rw [hshort, hname, List.tail_cons]
    have htakes : ∀ aParamsList sA,
        TakesParam fuel ⟨[], tail ++ chEquals :: more⟩ aParamsList sA →
        ∃ szValueW, aParamsList = [(name.text.tail, szValueW)] := by
      rintro aParamsList sA ⟨p, hget, -, hadd, -⟩
      rw [← htext, hskip] at hget
      rw [cStrTokenA_of_name hget, szStr_token (name.tail htail).isToken] at hadd
      exact ⟨_, hadd⟩
    rcases run_paramList_ok isChallengeSeparator hloop hok with
      ⟨hend, -⟩ | ⟨aParamsList, sA, hparam, -, hrest⟩
    · rw [← htext, hskip] at hend
      exact absurd hend (by simp)
    · obtain ⟨szValueW, rfl⟩ := htakes aParamsList sA hparam
      rcases hrest with ⟨-, hend⟩ | ⟨m, -, hgo⟩
      · exact ⟨szValueW, [], hlist.trans hend⟩
      · obtain ⟨l, hl⟩ := run_paramList_isPrefix isChallengeSeparator m hgo hok
        exact ⟨szValueW, l, by rw [hlist, ← hl]; rfl⟩

theorem challengeRoundTrip_iff (scheme : AuthScheme) (l : List ParamText) :
    ChallengeRoundTrip ⟨scheme.text, l.map ParamText.entry⟩ ↔ l = [] := by
  constructor
  · rintro ⟨n, hparse⟩
    cases l with
    | nil => rfl
    | cons p l =>
      exfalso
      have hrun := hparse n (Nat.le_refl n)
      obtain ⟨ch, tail, hname⟩ := List.exists_cons_of_ne_nil p.name.notEmpty
      have htext : buildChallengeParam p.entry = chSpace :: (p.name.text ++ chEquals ::
          szStr (buildQuotedStringW (szStr p.entry.2) true)) := by
        have hself : szStr p.entry.1 = p.name.text := szStr_token p.name.isToken
        rw [buildChallengeParam, hself, List.append_assoc, List.append_assoc]
        rfl
      rw [build_text, List.map_cons, List.flatMap_cons, htext, List.cons_append, List.append_assoc,
        List.cons_append] at hrun
      obtain ⟨szValueW, l', hfirst⟩ := parse_firstName hrun
      have hsame : p.name.text = p.name.text.tail := congrArg Prod.fst (List.cons.inj hfirst).1
      rw [hname, List.tail_cons] at hsame
      exact cons_ne_tail hsame
  · rintro rfl
    refine ⟨0, fun fuel _ => ?_⟩
    rw [build_text, List.map_nil, List.flatMap_nil, List.append_nil]
    exact parse_schemeOnly fuel scheme

/-- **A challenge is read faithfully, and read back from what `Build` writes, exactly when
it has no parameters.** -/
theorem challenge_iff (scheme : AuthScheme) (l : List ParamText) :
    (ParsesChallenge scheme l ↔ l = []) ∧
      (ChallengeRoundTrip ⟨scheme.text, l.map ParamText.entry⟩ ↔ l = []) :=
  ⟨parsesChallenge_iff scheme l, challengeRoundTrip_iff scheme l⟩

def basicScheme : AuthScheme where
  text := ascii "Basic"
  isToken := by decide
  notEmpty := by decide

/-- The parameter `realm=x`. -/
def realmParam : ParamText where
  before := .none
  name :=
    { text := ascii "realm", isToken := by decide, notEmpty := by decide, notExtended := by decide }
  value := .token ⟨ascii "x", by decide⟩ (by decide)
  after := .none

/-- The realm is recorded under the name `ealm`. -/
theorem challenge_realm : challengeText basicScheme [realmParam] = ascii "Basic realm=x" ∧
    Challenge.build ⟨ascii "Basic", [(ascii "realm", wide "x")]⟩ = ascii "Basic realm=x" ∧
    Challenge.parse 20 .create (ascii "Basic realm=x") =
      some (.sOk, ⟨ascii "Basic", [(ascii "ealm", wide "x")]⟩) ∧
    ¬ ParsesChallenge basicScheme [realmParam] ∧
    ¬ ChallengeRoundTrip ⟨ascii "Basic", [(ascii "realm", wide "x")]⟩ := by
  refine ⟨by decide, by decide, by decide, ?_, ?_⟩
  · rw [parsesChallenge_iff]
    exact List.cons_ne_nil _ _
  · intro hkept
    have hnil := (challengeRoundTrip_iff basicScheme [realmParam]).mp hkept
    exact List.cons_ne_nil _ _ hnil

end MxLib.Http
