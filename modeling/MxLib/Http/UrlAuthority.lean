import Mathlib.Data.Bool.AllAny
import MxLib.Http.UrlAgree
import MxLib.Http.UrlFragment
import MxLib.Http.UrlSetters

/-!
# The authority of a URL

`ParseFromString` looks for the end of the authority, for the user info in front of an `@` and
for a port behind a colon.  The user info is stored as the fragment, the first colon of an
address in brackets is taken for the one before the port, and a query or a fragment that
comes right behind the authority is taken for a part of the host.

`readsAuthority_iff` says that there is nothing else, for both versions.
-/

namespace MxLib.Http

open HostResolver

/-! ### Authorities -/

def isDnsChar (chW : WChar) : Bool :=
  isAlphaW chW || (0x30 ≤ chW && chW ≤ 0x39) || chW == 0x2D || chW == 0x5F || chW == dotW

/-- The name of a host: labels of letters, digits, hyphens and underscores. -/
structure IsDnsName (szHostW : List WChar) : Prop where
  chars : ∀ chW ∈ szHostW, isDnsChar chW = true
  ne_nil : szHostW ≠ []
  first : szHostW.head? ≠ some dotW
  last : szHostW.getLast? ≠ some dotW
  labels : ∀ a b, szHostW ≠ a ++ dotW :: dotW :: b

/-- The value of digits behind those with the value `n`. -/
def digitsFrom : Nat → List WChar → Nat
  | n, [] => n
  | n, chW :: digits => digitsFrom (n * 10 + (chW.toNat - 0x30)) digits

def digitsValue (digits : List WChar) : Nat := digitsFrom 0 digits

/-- Four numbers of a byte, with dots between them. -/
structure IsDottedIPv4 (szHostW : List WChar) : Prop extends IsDnsName szHostW where
  digits : ∀ chW ∈ szHostW, 0x30 ≤ chW ∧ chW ≤ 0x39 ∨ chW = dotW
  four : (szHostW.splitOn dotW).length = 4
  bytes : ∀ block ∈ szHostW.splitOn dotW, digitsValue block ≤ 255

/-- An IPv6 address in brackets. -/
structure IsBracketedIPv6 (szHostW : List WChar) : Prop where
  brackets : szHostW = 0x5B :: (szHostW.drop 1).dropLast ++ [0x5D]
  chars : ∀ chW ∈ (szHostW.drop 1).dropLast, (hexaDigit chW).isSome = true ∨ chW = 0x3A ∨ chW = dotW
  valid : isValidIPV6 false (szHostW.drop 1).dropLast (szHostW.drop 1).dropLast.length = true

inductive IsHost (szHostW : List WChar) : Prop
  | name (h : IsDnsName szHostW)
  | ipv4 (h : IsDottedIPv4 szHostW)
  | ipv6 (h : IsBracketedIPv6 szHostW)

/-- Digits of a port, or nothing. -/
def IsPort (szPortW : List WChar) : Prop :=
  szPortW = [] ∨ (∀ chW ∈ szPortW, 0x30 ≤ chW ∧ chW ≤ 0x39) ∧
    1 ≤ digitsValue szPortW ∧ digitsValue szPortW ≤ 65535

def IsUserInfo (szUserInfoW : List WChar) : Prop :=
  ∀ chW ∈ szUserInfoW, chW ≠ 0 ∧ chW ∉ wide "@/?#:%"

def portTextW (szPortW : List WChar) : List WChar := if szPortW = [] then [] else 0x3A :: szPortW

def authorityW (szUserInfoW szHostW szPortW : List WChar) : List WChar :=
  (if szUserInfoW = [] then [] else szUserInfoW ++ [0x40]) ++ (szHostW ++ portTextW szPortW)

/-- What `GetPort` is to give. -/
def portOf (szPortW : List WChar) : Option Nat :=
  if szPortW = [] then none else some (digitsValue szPortW)

/-! ### Ports -/

theorem le_digitsFrom (n : Nat) (digits : List WChar) : n ≤ digitsFrom n digits := by
  induction digits generalizing n with
  | nil => exact Nat.le_refl n
  | cons chW digits ih =>
    have hstep : n ≤ n * 10 + (chW.toNat - 0x30) := by omega
    exact Nat.le_trans hstep (ih _)

/-- **Digits are read**, unless they are too large on the way. -/
theorem parsePortW_digitsFrom {digits : List WChar} (hdigits : ∀ chW ∈ digits, 0x30 ≤ chW ∧ chW ≤ 0x39)
    (n : Nat) (hpos : 1 ≤ digitsFrom n digits) (hle : digitsFrom n digits ≤ 65535) :
    parsePortW n digits = .ok (digitsFrom n digits) := by
  induction digits generalizing n with
  | nil => exact if_neg (Nat.not_lt.mpr hpos)
  | cons chW digits ih =>
    obtain ⟨⟨hlo, hhi⟩, hdigits⟩ := List.forall_mem_cons.mp hdigits
    have hstep : n * 10 + (chW.toNat - 0x30) ≤ 65535 := Nat.le_trans (le_digitsFrom _ digits) hle
    rw [parsePortW, if_pos (by simp [hlo, hhi]), if_neg (Nat.not_lt.mpr hstep)]
    exact ih hdigits _ hpos hle

theorem parsePortW_digitsValue {szPortW : List WChar} (h : IsPort szPortW) (hne : szPortW ≠ []) :
    parsePortW 0 szPortW = .ok (digitsValue szPortW) := by
  obtain ⟨hdigits, hpos, hle⟩ := h.resolve_left hne
  exact parsePortW_digitsFrom hdigits 0 hpos hle

/-- A port that is read has nothing but digits. -/
theorem digits_of_parsePortW {sW : List WChar} (hzero : 0 ∉ sW) {n m : Nat}
    (h : parsePortW n sW = .ok m) : ∀ chW ∈ sW, 0x30 ≤ chW ∧ chW ≤ 0x39 := by
  induction sW generalizing n with
  | nil => exact List.forall_mem_nil _
  | cons chW sW ih =>
    have hch : (chW != 0) = true := bne_iff_ne.mpr fun h0 => hzero (h0 ▸ List.mem_cons_self)
    rw [parsePortW] at h
    split at h
    · next hdigit =>
      rw [Bool.and_eq_true, decide_eq_true_iff, decide_eq_true_iff] at hdigit
      split at h
      · cases h
      · exact List.forall_mem_cons.mpr ⟨hdigit, ih (fun h0 => hzero (List.mem_cons_of_mem _ h0)) h⟩
    · rw [hch, Bool.true_or, if_pos rfl] at h
      cases h

/-! ### Hosts -/

/-- Characters that do not stand in a host. -/
def notInHost : List WChar := 0 :: wide "/\\?#@%+"

theorem IsDnsName.not_mem {szHostW : List WChar} (h : IsDnsName szHostW) {chW : WChar}
    (hch : chW ∈ notInHost ++ wide ":[]") : chW ∉ szHostW := by
  intro hin
  have hall : ∀ chW ∈ notInHost ++ wide ":[]", isDnsChar chW = false := List.all_iff_forall_prop.mp (by decide)
  have hdns := h.chars chW hin
  rw [hall chW hch] at hdns
  cases hdns

/-- The first colon of an address in brackets stands in front of a bracket. -/
theorem IsBracketedIPv6.split {szHostW : List WChar} (h : IsBracketedIPv6 szHostW) :
    ∃ a b, szHostW = a ++ 0x3A :: b ∧ 0x3A ∉ a ∧ 0x5D ∈ b := by
  have hcolon : 0x3A ∈ (szHostW.drop 1).dropLast := colon_mem_of_isValidIPV6 h.valid
  obtain ⟨a, b, hsplit, ha⟩ := List.eq_append_cons_of_mem hcolon
  refine ⟨0x5B :: a, b ++ [0x5D], ?_, ?_, List.mem_append_right _ List.mem_cons_self⟩
  · rw [h.brackets, hsplit]
    simp
  · intro hin
    rcases List.mem_cons.mp hin with heq | hin
    · cases heq
    · exact ha hin

theorem IsBracketedIPv6.not_mem {szHostW : List WChar} (h : IsBracketedIPv6 szHostW) {chW : WChar}
    (hch : chW ∈ notInHost) : chW ∉ szHostW := by
  intro hin
  have hall : ∀ chW ∈ notInHost, (hexaDigit chW).isSome = false ∧ chW ≠ 0x3A ∧ chW ≠ dotW ∧
      chW ≠ 0x5B ∧ chW ≠ 0x5D := List.all_iff_forall_prop.mp (by decide)
  obtain ⟨hdigit, hcolon, hdot, hopen, hclose⟩ := hall chW hch
  rw [h.brackets, List.cons_append, List.mem_cons, List.mem_append, List.mem_singleton] at hin
  rcases hin with heq | hin | heq
  · exact hopen heq
  · rcases h.chars chW hin with hin | hin | hin
    · rw [hdigit] at hin
      cases hin
    · exact hcolon hin
    · exact hdot hin
  · exact hclose heq

theorem IsHost.cases {szHostW : List WChar} (h : IsHost szHostW) :
    IsDnsName szHostW ∨ IsBracketedIPv6 szHostW := by
  cases h with
  | name h => exact Or.inl h
  | ipv4 h => exact Or.inl h.toIsDnsName
  | ipv6 h => exact Or.inr h

theorem IsHost.not_mem {szHostW : List WChar} (h : IsHost szHostW) {chW : WChar}
    (hch : chW ∈ notInHost) : chW ∉ szHostW := by
  rcases h.cases with h | h
  · exact h.not_mem (List.mem_append_left _ hch)
  · exact h.not_mem hch

theorem IsHost.ne_nil {szHostW : List WChar} (h : IsHost szHostW) : szHostW ≠ [] := by
  rcases h.cases with h | h
  · exact h.ne_nil
  · rw [h.brackets]
    exact List.cons_ne_nil _ _

theorem mem_portTextW {szPortW : List WChar} (h : IsPort szPortW) {chW : WChar}
    (hch : chW ∈ portTextW szPortW) : chW = 0x3A ∨ 0x30 ≤ chW ∧ chW ≤ 0x39 := by
  rw [portTextW] at hch
  split at hch
  · cases hch
  · next hne =>
    rcases List.mem_cons.mp hch with heq | hin
    · exact Or.inl heq
    · exact Or.inr ((h.resolve_left hne).1 chW hin)

theorem not_mem_portTextW {szPortW : List WChar} (h : IsPort szPortW) {chW : WChar}
    (hch : chW ∈ notInHost) : chW ∉ portTextW szPortW := by
  intro hin
  have hall : ∀ chW ∈ notInHost, ¬ (chW = 0x3A ∨ 0x30 ≤ chW ∧ chW ≤ 0x39) := List.all_iff_forall_prop.mp (by decide)
  exact hall chW hch (mem_portTextW h hin)

/-! ### The authority alone -/

/-- **A name and a port are read.** -/
theorem readsHost_name {szHostW szPortW : List WChar} (hhost : IsDnsName szHostW)
    (hport : IsPort szPortW) : ReadsHost (szHostW ++ portTextW szPortW) (szHostW, [], portOf szPortW) := by
  have hat : 0x40 ∉ szHostW ++ portTextW szPortW := by
    rw [List.mem_append, not_or]
    exact ⟨hhost.not_mem (by decide), not_mem_portTextW hport (by decide)⟩
  have hcolon : 0x3A ∉ szHostW := hhost.not_mem (by decide)
  refine .host hat ?_
  rw [portTextW, portOf]
  split
  · rw [List.append_nil]
    exact .host hcolon
  · next hne => exact .port hcolon hhost.ne_nil (parsePortW_digitsValue hport hne)

/-- **The port behind an address in brackets is looked for inside of them.** -/
theorem not_readsPort_brackets {szHostW sW : List WChar} (hhost : IsBracketedIPv6 szHostW)
    (hzero : 0 ∉ szHostW ++ sW) {h : List WChar} {nPort : Option Nat} :
    ¬ ReadsPort (szHostW ++ sW) h nPort := by
  intro hreads
  obtain ⟨a, b, hsplit, ha, hb⟩ := hhost.split
  generalize htext : szHostW ++ sW = text at hreads hzero
  cases hreads with
  | host hnot =>
    rw [← htext, hsplit] at hnot
    exact hnot (List.mem_append_left _ (List.mem_append_right _ List.mem_cons_self))
  | port hh _ hport =>
    rw [hsplit, List.append_assoc, List.cons_append] at htext
    obtain ⟨-, rfl⟩ := append_cons_inj htext ha hh
    have hdigits := digits_of_parsePortW
      (fun h0 => hzero (List.mem_append_right _ (List.mem_cons_of_mem _ h0))) hport
    have hbracket := hdigits 0x5D (List.mem_append_left _ hb)
    exact absurd hbracket (by decide)

/-! ### A query or a fragment behind the authority -/

/-- **What comes right behind the authority belongs to the host.**  If the host is read all the
same, it is behind an `@` there, and what is in front of it is the user info. -/
theorem readsHost_behind {szHostW szPortW tail : List WChar} (hhost : IsHost szHostW)
    (hport : IsPort szPortW) (hzero : 0 ∉ tail)
    (htail : ∃ ch r, tail = ch :: r ∧ ch ∈ wide "?#")
    {x : List WChar × List WChar × Option Nat}
    (h : ReadsHost (szHostW ++ (portTextW szPortW ++ tail)) x) (hx : x.1 = szHostW) :
    ∃ a r, tail = a ++ 0x40 :: r ∧ x.2.1 = szHostW ++ (portTextW szPortW ++ a) ∧
      ∀ chW ∈ r, chW ∈ szHostW ∨ chW = 0x3A ∨ 0x30 ≤ chW ∧ chW ≤ 0x39 := by
  obtain ⟨ch, t, rfl, hch⟩ := htail
  have hzeroT : 0 ∉ szHostW ++ (portTextW szPortW ++ ch :: t) := by
    rw [List.mem_append, List.mem_append, not_or, not_or]
    exact ⟨hhost.not_mem (by decide), not_mem_portTextW hport (by decide), hzero⟩
  generalize htext : szHostW ++ (portTextW szPortW ++ ch :: t) = text at h hzeroT
  cases h with
  | host hat hreads =>
    cases hreads with
    | host hcolon =>
      dsimp only at hx
      subst hx
      exact absurd (congrArg List.length htext) (by simp)
    | port hcolon hne hparse =>
      dsimp only at hx
      subst hx
      have hbehind := List.append_cancel_left htext
      have hstart : ch ≠ 0x3A ∧ ¬ (0x30 ≤ ch ∧ ch ≤ 0x39) := by
        have hall : ∀ ch ∈ wide "?#", ch ≠ 0x3A ∧ ¬ (0x30 ≤ ch ∧ ch ≤ 0x39) := List.all_iff_forall_prop.mp (by decide)
        exact hall ch hch
      rw [portTextW] at hbehind
      split at hbehind
      · exact absurd (List.cons.inj hbehind).1 hstart.1
      · obtain ⟨-, rfl⟩ := List.cons.inj hbehind
        have hdigits := digits_of_parsePortW
          (fun h0 => hzeroT (List.mem_append_right _ (List.mem_cons_of_mem _ h0))) hparse
        exact absurd (hdigits ch (List.mem_append_right _ List.mem_cons_self)) hstart.2
  | user hat hne hreads =>
    rename_i u r szHostW' nPort
    dsimp only at hx
    subst hx
    have hin : 0x40 ∈ ch :: t := by
      have hin : 0x40 ∈ szHostW' ++ (portTextW szPortW ++ ch :: t) := by
        rw [htext]
        exact List.mem_append_right _ List.mem_cons_self
      rcases List.mem_append.mp hin with hin | hin
      · exact absurd hin (hhost.not_mem (by decide))
      · exact (List.mem_append.mp hin).resolve_left (not_mem_portTextW hport (by decide))
    obtain ⟨a, r', htail, ha⟩ := List.eq_append_cons_of_mem hin
    have hfront : 0x40 ∉ szHostW' ++ (portTextW szPortW ++ a) := by
      rw [List.mem_append, List.mem_append, not_or, not_or]
      exact ⟨hhost.not_mem (by decide), not_mem_portTextW hport (by decide), ha⟩
    rw [htail, ← List.append_assoc, ← List.append_assoc, List.append_assoc szHostW'] at htext
    obtain ⟨rfl, rfl⟩ := append_cons_inj htext hfront hat
    refine ⟨a, r', htail, rfl, ?_⟩
    cases hreads with
    | host => exact fun chW hin => Or.inl hin
    | port hcolon hne' hparse =>
      intro chW hin
      rcases List.mem_append.mp hin with hin | hin
      · exact Or.inl hin
      · rcases List.mem_cons.mp hin with heq | hin
        · exact Or.inr (Or.inl heq)
        · refine Or.inr (Or.inr (digits_of_parsePortW (fun h0 => ?_) hparse chW hin))
          exact hzeroT (List.mem_append_right _ (List.mem_cons_of_mem _
            (List.mem_append_right _ (List.mem_cons_of_mem _ h0))))

/-! ### Wide URLs of a server -/

/-- Where the host of a wide URL ends. -/
def hostEndW (szUrlW : List WChar) : Nat :=
  (findCharW (wide "/\\") (wide "?#") szUrlW).getD szUrlW.length

theorem skipUrlPrefixW_of_head {ch : WChar} (hlower : ch ≠ 0x75) (hupper : ch ≠ 0x55) (fuel : Nat)
    (rest : List WChar) : skipUrlPrefixW fuel (ch :: rest) = ch :: rest := by
  cases fuel with
  | zero => rfl
  | succ fuel =>
    have hcompare : strNCompareW (ch :: rest) (wide "URL:") 1 true = false := by
      rw [← Bool.not_eq_true, strNCompareW_url]
      simp [hlower, hupper]
    rw [skipUrlPrefixW, hcompare, Bool.and_false, if_neg Bool.false_ne_true]

theorem clearW_widen {szToFindA szStopCharA l : List Byte} (h : Clear szToFindA szStopCharA l) :
    ClearW (widen szToFindA) (widen szStopCharA) (widen l) := by
  intro ch hch
  obtain ⟨c, hc, rfl⟩ := List.mem_map.mp hch
  obtain ⟨hzero, hfind, hstop⟩ := h c hc
  exact ⟨mt toUInt16_eq_zero.mp hzero, mt mem_widen.mp hfind, mt mem_widen.mp hstop⟩

/-- **A wide URL of a server is split at the end of its host.** -/
theorem parseFromStringW_http {szSchemeA : List Byte}
    (h : szSchemeA.map lowerA = ascii "http" ∨ szSchemeA.map lowerA = ascii "https")
    (isLocalHost : List WChar → Bool) (szUrlW behind : List WChar) :
    parseFromStringW isLocalHost (widen szSchemeA ++ wide "://" ++ szUrlW) behind =
      parsePathW ⟨widePath (szSchemeA.map lowerA), szUrlW.take (hostEndW szUrlW),
        szUrlW.drop (hostEndW szUrlW)⟩ behind := by
  obtain ⟨hset, hclear⟩ := setScheme_http h
  obtain ⟨⟨ch, r, hcons, hzero, hhead⟩, hcode⟩ := httpScheme_facts h
  generalize widePath (szSchemeA.map lowerA) = szSchemeW at hset hcode
  obtain ⟨hmail, -, hnotFile, -⟩ := serverScheme_facts hcode
  have hfile : (scheme2Enum szSchemeW == Scheme.file) = false := beq_eq_false_iff_ne.mpr hnotFile
  have htext : widen szSchemeA ++ wide "://" ++ szUrlW =
      widen szSchemeA ++ 0x3A :: 0x2F :: 0x2F :: szUrlW := by
    rw [List.append_assoc]
    rfl
  have hskip : ∀ fuel, skipUrlPrefixW fuel (widen szSchemeA ++ 0x3A :: 0x2F :: 0x2F :: szUrlW) =
      widen szSchemeA ++ 0x3A :: 0x2F :: 0x2F :: szUrlW := by
    intro fuel
    have hu : lowerA 0x75 = 0x75 ∧ lowerA 0x55 = 0x75 := by decide
    have hlower : ch.toUInt16 ≠ 0x75 := fun heq =>
      hhead (by rw [show ch = 0x75 from toUInt16_inj.mp heq]; exact hu.1)
    have hupper : ch.toUInt16 ≠ 0x55 := fun heq =>
      hhead (by rw [show ch = 0x55 from toUInt16_inj.mp heq]; exact hu.2)
    rw [hcons]
    exact skipUrlPrefixW_of_head hlower hupper fuel _
  have hfind : findCharW (wide ":") (wide "@?#/\\") (widen szSchemeA ++ 0x3A :: 0x2F :: 0x2F :: szUrlW) =
      some (widen szSchemeA).length :=
    findCharW_append_cons (clearW_widen hclear) (by decide) (by decide) _
  have htake : (widen szSchemeA ++ 0x3A :: 0x2F :: 0x2F :: szUrlW).take (widen szSchemeA).length =
      widen szSchemeA := List.take_left
  have hdrop : (widen szSchemeA ++ 0x3A :: 0x2F :: 0x2F :: szUrlW).drop ((widen szSchemeA).length + 1) =
      0x2F :: 0x2F :: szUrlW := drop_append_cons _ _ _
  have hhost : splitHostPartW isLocalHost szSchemeW (0x2F :: 0x2F :: szUrlW) =
      ⟨szSchemeW, szUrlW.take (hostEndW szUrlW), szUrlW.drop (hostEndW szUrlW)⟩ := by
    have hslashes : ((0x2F :: 0x2F :: szUrlW).length ≥ 2 && isSlashW (charAt (0x2F :: 0x2F :: szUrlW) 0) &&
        isSlashW (charAt (0x2F :: 0x2F :: szUrlW) 1)) = true := by
      simp [isSlashW, slashW]
    rw [splitHostPartW, if_pos hslashes, hfile, if_neg Bool.false_ne_true]
    rfl
  have hsplit : splitUrlW isLocalHost (widen szSchemeA ++ 0x3A :: 0x2F :: 0x2F :: szUrlW) =
      .ok ⟨szSchemeW, szUrlW.take (hostEndW szUrlW), szUrlW.drop (hostEndW szUrlW)⟩ := by
    have hpos : (widen szSchemeA).length = r.length + 1 := by
      rw [hcons, length_widen]
      rfl
    rw [hpos] at hfind htake hdrop
    simp [splitUrlW, hfind, htake, hdrop, setSchemeW_widen, hset, hmail, hhost]
  have hne : widen szSchemeA ++ 0x3A :: 0x2F :: 0x2F :: szUrlW ≠ [] :=
    List.append_ne_nil_of_right_ne_nil _ (List.cons_ne_nil _ _)
  rw [htext, parseFromStringW, hskip, if_neg hne, hsplit]
  exact if_neg (by rw [hmail]; exact Bool.false_ne_true)

/-! ### Where the authority ends -/

/-- What stands behind an authority. -/
structure IsBehind (rest : List WChar) : Prop where
  zero : 0 ∉ rest
  start : rest = [] ∨ ∃ ch r, rest = ch :: r ∧ ch ∈ wide "/\\?#"

/-- A path, or nothing, stands behind the authority. -/
def StartsPath (rest : List WChar) : Prop := rest = [] ∨ ∃ ch r, rest = ch :: r ∧ ch ∈ wide "/\\"

theorem IsBehind.cases {rest : List WChar} (h : IsBehind rest) (hpath : ¬ StartsPath rest) :
    ∃ ch r, rest = ch :: r ∧ ch ∈ wide "?#" := by
  obtain ⟨ch, r, rfl, hch⟩ := h.start.resolve_left fun hnil => hpath (Or.inl hnil)
  refine ⟨ch, r, rfl, ?_⟩
  have hor : ∀ ch ∈ wide "/\\?#", ch ∈ wide "/\\" ∨ ch ∈ wide "?#" := List.all_iff_forall_prop.mp (by decide)
  exact (hor ch hch).resolve_left fun hslash => hpath (Or.inr ⟨ch, r, rfl, hslash⟩)

theorem clearW_authority {szHostW szPortW : List WChar} (hhost : IsHost szHostW)
    (hport : IsPort szPortW) : ClearW (wide "/\\") (wide "?#") (szHostW ++ portTextW szPortW) := by
  have hout : ∀ c ∈ notInHost, c ∉ szHostW ++ portTextW szPortW := by
    intro c hc
    rw [List.mem_append, not_or]
    exact ⟨hhost.not_mem hc, not_mem_portTextW hport hc⟩
  have hfind : ∀ c ∈ wide "/\\", c ∈ notInHost := List.all_iff_forall_prop.mp (by decide)
  have hstop : ∀ c ∈ wide "?#", c ∈ notInHost := List.all_iff_forall_prop.mp (by decide)
  intro ch hch
  exact ⟨fun h0 => hout 0 List.mem_cons_self (h0 ▸ hch), fun hin => hout ch (hfind ch hin) hch,
    fun hin => hout ch (hstop ch hin) hch⟩

/-- **A path ends the authority**, and a query or a fragment does not. -/
theorem hostEndW_authority {szHostW szPortW rest : List WChar} (hhost : IsHost szHostW)
    (hport : IsPort szPortW) :
    (StartsPath rest → hostEndW (szHostW ++ portTextW szPortW ++ rest) =
      (szHostW ++ portTextW szPortW).length) ∧
    ((∃ ch r, rest = ch :: r ∧ ch ∈ wide "?#") → hostEndW (szHostW ++ portTextW szPortW ++ rest) =
      (szHostW ++ portTextW szPortW ++ rest).length) := by
  have happ := findCharW_append (clearW_authority hhost hport) rest
  rw [hostEndW, happ]
  constructor
  · rintro (rfl | ⟨ch, r, rfl, hch⟩)
    · rw [List.append_nil]
      rfl
    · have hzero : (ch == 0) = false := by
        have hall : ∀ ch ∈ wide "/\\", (ch == 0) = false := List.all_iff_forall_prop.mp (by decide)
        exact hall ch hch
      rw [findCharW, hzero, if_neg Bool.false_ne_true, if_pos (List.contains_iff_mem.mpr hch),
        Option.map_some, Option.getD_some, Nat.zero_add]
  · rintro ⟨ch, r, rfl, hch⟩
    have hstop : (ch == 0) = false ∧ (wide "/\\").contains ch = false ∧ (wide "?#").contains ch = true := by
      have hall : ∀ ch ∈ wide "?#", (ch == 0) = false ∧ (wide "/\\").contains ch = false ∧
          (wide "?#").contains ch = true := List.all_iff_forall_prop.mp (by decide)
      exact hall ch hch
    rw [findCharW, hstop.1, hstop.2.1, hstop.2.2, if_neg Bool.false_ne_true,
      if_neg Bool.false_ne_true, if_pos rfl]
    rfl

/-! ### What the parser makes of the parts -/

/-- The port that `GetPort` is to give. -/
def portNumber (szPortW : List WChar) : Int := if szPortW = [] then -1 else digitsValue szPortW

/-- The URL is parsed, and the host, the port, the user info and the fragment are its own. -/
def ReadsAuthority (parsed : Except HResult Url) (fragment : Except HResult (List WChar))
    (szUserInfoW szHostW szPortW : List WChar) : Prop :=
  ∃ url, parsed = .ok url ∧ url.getHost = szHostW ∧ url.getPort = portNumber szPortW ∧
    url.getUserInfo = szUserInfoW ∧ fragment = .ok url.cStrFragmentW

theorem getPort_of_nPort {url : Url} {szPortW : List WChar} (h : url.nPort = portOf szPortW) :
    url.getPort = portNumber szPortW := by
  rw [Url.getPort, h, portOf, portNumber]
  by_cases hnil : szPortW = []
  · rw [if_pos hnil, if_pos hnil]
  · rw [if_neg hnil, if_neg hnil]

/-- **Only the name of a host is read**, where the authority stands alone. -/
theorem ReadsHost.isDnsName {szHostW szPortW : List WChar} (hhost : IsHost szHostW)
    (hport : IsPort szPortW) {x : List WChar × List WChar × Option Nat}
    (h : ReadsHost (szHostW ++ portTextW szPortW) x) : IsDnsName szHostW := by
  rcases hhost.cases with hname | hbrackets
  · exact hname
  · have hout : ∀ c ∈ notInHost, c ∉ szHostW ++ portTextW szPortW := by
      intro c hc
      rw [List.mem_append, not_or]
      exact ⟨hhost.not_mem hc, not_mem_portTextW hport hc⟩
    have hzero := hout 0 List.mem_cons_self
    have hat := hout 0x40 (by decide)
    generalize htext : szHostW ++ portTextW szPortW = text at h hat hzero
    cases h with
    | host _ hreads =>
      subst htext
      exact absurd hreads (not_readsPort_brackets hbrackets hzero)
    | user => exact absurd (List.mem_append_right _ List.mem_cons_self) hat

theorem IsDnsName.isCheckedStart {szHostW : List WChar} (h : IsDnsName szHostW) :
    IsCheckedStart szHostW := by
  refine ⟨fun _ => ?_, h.first, h.last⟩
  obtain ⟨ch, tail, rfl⟩ := List.exists_cons_of_ne_nil h.ne_nil
  have hall : ∀ ch ∈ wide ":/?#[]@!$&'()*+,;=\"", isDnsChar ch = false := List.all_iff_forall_prop.mp (by decide)
  rw [charAt_cons_zero, ← Bool.not_eq_true, isReservedW, List.contains_iff_mem]
  intro hin
  have hdns := h.chars ch List.mem_cons_self
  rw [hall ch hin] at hdns
  cases hdns

/-! ### The fragment is another one -/

theorem fragmentTextW_append {a f : List WChar} (ha : 0x23 ∉ a) :
    fragmentTextW (a ++ 0x23 :: f) = f := by
  have hpass : ∀ ch ∈ a, (ch != 0x23) = true := fun ch hch =>
    bne_iff_ne.mpr fun heq => ha (heq ▸ hch)
  rw [fragmentTextW, List.dropWhile_append_of_pos hpass]
  rfl

theorem fragmentTextW_nil {rest : List WChar} (h : 0x23 ∉ rest) : fragmentTextW rest = [] := by
  rw [fragmentTextW]
  rcases dropWhile_eq_nil_or_cons (fun ch : WChar => ch != 0x23) rest with hnil | ⟨ch, t, hcons, hch⟩
  · rw [hnil]
    rfl
  · have hin : ch ∈ rest := (List.dropWhile_sublist _).subset (hcons ▸ List.mem_cons_self)
    have hch23 : ch = 0x23 := by simpa using hch
    exact absurd (hch23 ▸ hin) h

/-- The text in front of an `@` is not the fragment, which goes on behind it. -/
theorem fragmentTextW_ne {front a r : List WChar} (hfront : front ≠ []) (hr : 0x23 ∉ r) :
    fragmentTextW (a ++ 0x40 :: r) ≠ front ++ a := by
  by_cases ha : 0x23 ∈ a
  · obtain ⟨b, f, rfl, hb⟩ := List.eq_append_cons_of_mem ha
    rw [List.append_assoc, List.cons_append, fragmentTextW_append hb]
    intro heq
    have hcount := congrArg (List.count 0x23) heq
    have hr' : r.count 0x23 = 0 := List.count_eq_zero.mpr hr
    simp [List.count_append, hr'] at hcount
    omega
  · have hnone : 0x23 ∉ a ++ 0x40 :: r := by
      rw [List.mem_append, List.mem_cons, not_or, not_or]
      exact ⟨ha, by decide, hr⟩
    rw [fragmentTextW_nil hnone]
    exact fun heq => hfront (List.append_eq_nil_iff.mp heq.symm).1

/-! ### Wide URLs -/

/-- The path of a wide URL is reduced. -/
def WideRest (szSchemeW rest : List WChar) : Prop :=
  ∃ R, reducePath (setPathW (pathTextW (rest.take (pathEndW rest))) szSchemeW) szSchemeW = .ok R

/-- The wide `SetHost` stores what was split off. -/
theorem ReadsHost.setHostW {sW : List WChar} (hzero : 0 ∉ sW)
    {x : List WChar × List WChar × Option Nat} (h : ReadsHost sW x) {cStrHostW : List WChar}
    (hset : setHostW (szStr x.1) = .ok cStrHostW) : cStrHostW = x.1 ∧ szStr cStrHostW = x.1 := by
  have hszStr : szStr x.1 = x.1 := szStr_of_ne_zero fun ch hch h0 => hzero (h0 ▸ h.facts.2.1 ch hch)
  rw [hszStr] at hset
  have heq : cStrHostW = x.1 := by
    by_cases hnil : x.1 = []
    · rw [hnil, Http.setHostW, if_pos rfl] at hset
      rw [hnil]
      exact (Except.ok.inj hset).symm
    · exact ((setHostW_eq_ok h.facts.1 hnil cStrHostW).mp hset).2
  exact ⟨heq, heq ▸ hszStr⟩

section Wide

variable {szSchemeA : List Byte} {szUserInfoW szHostW szPortW rest : List WChar}
  (hscheme : szSchemeA.map lowerA = ascii "http" ∨ szSchemeA.map lowerA = ascii "https")
  (hhost : IsHost szHostW) (hport : IsPort szPortW) (hrest : IsBehind rest)
include hscheme hhost hport hrest

/-- **What the wide version reads of an authority.** -/
theorem readsAuthorityW_iff (isLocalHost : List WChar → Bool) (behind : List WChar) :
    ReadsAuthority (parseFromStringW isLocalHost (widen szSchemeA ++ wide "://" ++
        (authorityW szUserInfoW szHostW szPortW ++ rest)) behind)
      (.ok (fragmentTextW rest)) szUserInfoW szHostW szPortW ↔
      szUserInfoW = [] ∧ IsDnsName szHostW ∧ StartsPath rest ∧
        WideRest (widePath (szSchemeA.map lowerA)) rest := by
  rw [parseFromStringW_http hscheme]
  have hauthority : authorityW [] szHostW szPortW = szHostW ++ portTextW szPortW := rfl
  have hzero : 0 ∉ szHostW ++ portTextW szPortW := fun h0 =>
    (clearW_authority hhost hport 0 h0).1 rfl
  have hne : szHostW ++ portTextW szPortW ≠ [] := List.append_ne_nil_of_left_ne_nil hhost.ne_nil _
  obtain ⟨hend, hend'⟩ := @hostEndW_authority _ _ rest hhost hport
  constructor
  · rintro ⟨url, hparse, hurlHost, -, hurlUser, hfragment⟩
    obtain ⟨R, x, cStrHostW, hreduce, hsplit, hset, hurl⟩ := parsePathW_iff.mp hparse
    have hstored : url.cStrHostW = cStrHostW := congrArg Url.cStrHostW hurl
    have huserNil : url.cStrUserInfoW = [] := congrArg Url.cStrUserInfoW hurl
    have hstoredFragment := congrArg Url.cStrFragmentW hurl
    have huser : szUserInfoW = [] := by
      rw [← hurlUser, Url.getUserInfo, huserNil]
      rfl
    subst huser
    rw [hauthority] at hreduce hsplit hstoredFragment
    dsimp only at hreduce hsplit hstoredFragment
    by_cases hstart : StartsPath rest
    · rw [hend hstart, List.take_left] at hsplit
      rw [hend hstart, List.drop_left] at hreduce
      exact ⟨rfl, ((splitHostW_iff hzero hne x).mp hsplit).isDnsName hhost hport, hstart, R, hreduce⟩
    · exfalso
      have hbehind := hrest.cases hstart
      rw [hend' hbehind, List.take_length] at hsplit
      rw [hend' hbehind, List.drop_length] at hstoredFragment
      have hzeroT : 0 ∉ szHostW ++ portTextW szPortW ++ rest := by
        rw [List.mem_append, not_or]
        exact ⟨hzero, hrest.zero⟩
      have hreads := (splitHostW_iff hzeroT (List.append_ne_nil_of_left_ne_nil hne _) x).mp hsplit
      have hx : x.1 = szHostW := by
        rw [← hurlHost, Url.getHost, hstored]
        exact (hreads.setHostW hzeroT hset).2.symm
      rw [List.append_assoc] at hreads
      obtain ⟨a, r, rfl, huserText, hr⟩ := readsHost_behind hhost hport hrest.zero hbehind hreads hx
      have hhash : 0x23 ∉ r := by
        intro hin
        rcases hr 0x23 hin with hin | hin | hin
        · exact hhost.not_mem (by decide) hin
        · cases hin
        · exact absurd hin (by decide)
      have hraw : url.cStrFragmentW = x.2.1 := hstoredFragment
      refine @fragmentTextW_ne (szHostW ++ portTextW szPortW) a r hne hhash ?_
      rw [List.append_assoc, ← huserText, ← hraw]
      exact Except.ok.inj hfragment
  · rintro ⟨rfl, hname, hstart, R, hreduce⟩
    have hsplit := (splitHostW_iff hzero hne _).mpr (readsHost_name hname hport)
    have hcolon : 0x3A ∉ szHostW := hname.not_mem (by decide)
    have hszStr : szStr szHostW = szHostW := szStr_of_ne_zero fun ch hch h0 =>
      hzero (h0 ▸ List.mem_append_left _ hch)
    have hset : setHostW szHostW = .ok szHostW :=
      (setHostW_eq_ok hcolon hname.ne_nil _).mpr ⟨Or.inr hname.isCheckedStart, rfl⟩
    have hfragment := @parseParamsW_fragment ⟨widePath (szSchemeA.map lowerA), szHostW,
      prependSlash (widePath (szSchemeA.map lowerA)) R, portOf szPortW, [], [], []⟩ rest hrest.zero
      rfl behind
    rw [hauthority, hend hstart, List.take_left, List.drop_left]
    have hset' : setHostW (szStr szHostW) = .ok szHostW := by rw [hszStr, hset]
    exact ⟨_, parsePathW_iff.mpr ⟨R, _, szHostW, hreduce, hsplit, hset', rfl⟩, hszStr,
      getPort_of_nPort rfl, rfl, congrArg Except.ok hfragment.symm⟩

end Wide

/-! ### Narrow URLs -/

def portTextA (szPortA : List Byte) : List Byte := if szPortA = [] then [] else 0x3A :: szPortA

def authorityA (szUserInfoA szHostA szPortA : List Byte) : List Byte :=
  (if szUserInfoA = [] then [] else szUserInfoA ++ [0x40]) ++ (szHostA ++ portTextA szPortA)

theorem widen_portTextA (szPortA : List Byte) : widen (portTextA szPortA) = portTextW (widen szPortA) := by
  rw [portTextA, portTextW]
  by_cases hnil : szPortA = []
  · rw [if_pos hnil, if_pos (widen_eq_nil.mpr hnil)]
    rfl
  · rw [if_neg hnil, if_neg (mt widen_eq_nil.mp hnil)]
    rfl

theorem hostEndW_widen (szUrlA : List Byte) : hostEndW (widen szUrlA) = hostEnd szUrlA := by
  rw [hostEndW, hostEnd, length_widen]
  exact congrArg (Option.getD · szUrlA.length) (findCharW_widen (ascii "/\\") (ascii "?#") szUrlA)

/-- The path of a narrow URL is decoded and reduced, and so are its parameters and its fragment. -/
structure NarrowRest (szSchemeW : List WChar) (rest : List Byte) : Prop where
  path : ∃ cStrPathW R, setPath (pathText (rest.take (pathEnd rest))) szSchemeW = .ok cStrPathW ∧
    reducePath cStrPathW szSchemeW = .ok R
  params : ∃ url, parseParams .reset (rest.drop (pathEnd rest)) = .ok url

theorem parseParams_kept {url url' : Url} {rest : List Byte} (h : parseParams url rest = .ok url') :
    url'.cStrHostW = url.cStrHostW ∧ url'.nPort = url.nPort ∧ url'.cStrUserInfoW = url.cStrUserInfoW ∧
      (rest = [] → url'.cStrFragmentW = url.cStrFragmentW) := by
  obtain ⟨⟨query, r⟩, hquery, h⟩ := exists_of_bind_ok h
  obtain ⟨fragment, hfragment, h⟩ := exists_of_bind_ok h
  obtain rfl := Except.ok.inj h
  refine ⟨rfl, rfl, rfl, ?_⟩
  rintro rfl
  obtain rfl : r = [] := (congrArg Prod.snd (Except.ok.inj hquery)).symm
  exact (Except.ok.inj hfragment).symm

/-- The text in front of an `@` is not decoded to what the fragment is decoded to. -/
theorem fragmentTextA_ne {front a r : List Byte} {ch : Byte} (hch : ch = 0x3F ∨ ch = 0x23)
    (hr : IsPlainAscii r) (hhash : 0x23 ∉ r) {w : List WChar}
    (huser : decodeText (front ++ ch :: a) = .ok w) :
    decodeText (fragmentTextA (ch :: a ++ 0x40 :: r)) ≠ .ok w := by
  intro hfragment
  have hOutside : ∀ c : Byte, c = 0x23 ∨ c = 0x3F ∨ c = 0x40 → IsOutside c := by
    rintro c (rfl | rfl | rfl)
    · exact ⟨by decide, by decide, by decide, by decide, by decide, by decide⟩
    · exact ⟨by decide, by decide, by decide, by decide, by decide, by decide⟩
    · exact ⟨by decide, by decide, by decide, by decide, by decide, by decide⟩
  have hpass : ∀ b : List Byte, 0x23 ∉ b → ∀ c ∈ b, (c != 0x23) = true := fun b hb c hc =>
    bne_iff_ne.mpr fun heq => hb (heq ▸ hc)
  by_cases hin : 0x23 ∈ ch :: a
  · obtain ⟨b, f, hsplit, hb⟩ := List.eq_append_cons_of_mem hin
    have htext : fragmentTextA (ch :: a ++ 0x40 :: r) = f ++ 0x40 :: r := by
      rw [hsplit, List.append_assoc, List.cons_append, fragmentTextA,
        List.dropWhile_append_of_pos (hpass b hb)]
      rfl
    rw [htext] at hfragment
    rw [hsplit, ← List.append_assoc] at huser
    obtain ⟨u, v, hu, hv, rfl⟩ := decodeText_split (hOutside 0x40 (by decide)) hfragment
    obtain ⟨u', v', -, hv', heq⟩ := decodeText_split (hOutside 0x23 (by decide)) huser
    obtain rfl := Except.ok.inj (hu.symm.trans hv')
    obtain rfl := Except.ok.inj ((decodeText_plain hr).symm.trans hv)
    have hcount := congrArg (List.count (0x23 : WChar)) heq
    have hnone : (widen r).count 0x23 = 0 :=
      List.count_eq_zero.mpr (mt (@mem_widen r 0x23).mp hhash)
    have hat : ((0x40 : Byte).toUInt16 == 0x23) = false := by decide
    have hnumber : ((0x23 : Byte).toUInt16 == 0x23) = true := by decide
    rw [List.count_append, List.count_append, List.count_cons, List.count_cons, hnone, hat, hnumber,
      if_neg Bool.false_ne_true, if_pos rfl] at hcount
    omega
  · have hall : 0x23 ∉ ch :: a ++ 0x40 :: r := by
      rw [List.mem_append, List.mem_cons (a := 0x23) (b := 0x40), not_or, not_or]
      exact ⟨hin, by decide, hhash⟩
    have htext : fragmentTextA (ch :: a ++ 0x40 :: r) = [] := by
      rw [fragmentTextA, ← List.append_nil (ch :: a ++ 0x40 :: r),
        List.dropWhile_append_of_pos (hpass _ hall)]
      rfl
    rw [htext] at hfragment
    obtain rfl := Except.ok.inj (show decodeText [] = .ok w from hfragment)
    obtain ⟨u, v, -, -, heq⟩ := decodeText_split (hOutside ch (by tauto)) huser
    exact absurd heq.symm (by simp)

/-- Letters, digits and colons are plain. -/
theorem isPlainAscii_of_mem {r : List Byte} (hname : ∀ chW ∈ widen r,
    isDnsChar chW = true ∨ chW = 0x3A ∨ 0x30 ≤ chW ∧ chW ≤ 0x39) : IsPlainAscii r := by
  have hall : ∀ ch : Byte, (!(isDnsChar ch.toUInt16 || ch.toUInt16 == 0x3A ||
      (decide (0x30 ≤ ch.toUInt16) && decide (ch.toUInt16 ≤ 0x39))) || isPlainAscii ch) = true :=
    forall_byte (by decide)
  intro ch hch
  have hfact := hall ch
  have hor : (isDnsChar ch.toUInt16 || ch.toUInt16 == 0x3A ||
      (decide (0x30 ≤ ch.toUInt16) && decide (ch.toUInt16 ≤ 0x39))) = true := by
    simpa [or_assoc] using hname ch.toUInt16 (mem_widen.mpr hch)
  rw [hor, Bool.not_true, Bool.false_or] at hfact
  exact hfact

/-- The narrow `SetHost` stores what was split off. -/
theorem ReadsHost.setHost {sA : List Byte} (hzero : 0 ∉ sA) {x : List Byte × List Byte × Option Nat}
    (h : ReadsHost (widen sA) (widen x.1, widen x.2.1, x.2.2)) {isLocalHost : List Byte → Bool}
    {cStrHostW : List WChar} (hset : setHost (urlEnv isLocalHost) x.1 = .ok cStrHostW) :
    szStr cStrHostW = widen x.1 ∧ (x.1 ≠ [] → IsReadHost x.1) := by
  have hne : ∀ ch ∈ x.1, ch ≠ 0 := by
    rintro ch hch rfl
    exact hzero (mem_widen.mp (h.facts.2.1 _ (mem_widen.mpr hch)))
  have hszStr : szStr x.1 = x.1 := szStr_of_ne_zero hne
  have hszStrW : szStr (widen x.1) = widen x.1 := by rw [szStr_widen, hszStr]
  rw [Http.setHost, hszStr] at hset
  by_cases hnil : x.1 = []
  · rw [if_pos hnil] at hset
    obtain rfl := Except.ok.inj hset
    rw [hnil]
    exact ⟨rfl, fun h => absurd rfl h⟩
  · have hcolon : 0x3A ∉ x.1 := fun hin => h.facts.1 (@mem_widen x.1 0x3A |>.mpr hin)
    rw [if_neg hnil] at hset
    obtain ⟨hread, rfl⟩ := (setHostA_eq_ok hcolon hnil cStrHostW).mp hset
    exact ⟨hszStrW, fun _ => hread⟩

section Narrow

variable {szSchemeA szUserInfoA szHostA szPortA rest : List Byte}

theorem widen_authority (szHostA szPortA : List Byte) :
    widen (szHostA ++ portTextA szPortA) = widen szHostA ++ portTextW (widen szPortA) := by
  rw [widen_append, widen_portTextA]

theorem zero_not_mem_authority (hhost : IsHost (widen szHostA)) (hport : IsPort (widen szPortA)) :
    0 ∉ szHostA ++ portTextA szPortA := by
  intro h0
  refine (clearW_authority hhost hport 0 ?_).1 rfl
  rw [← widen_authority]
  exact @mem_widen _ 0 |>.mpr h0

theorem hostEnd_authority (hhost : IsHost (widen szHostA)) (hport : IsPort (widen szPortA)) :
    (StartsPath (widen rest) → hostEnd (szHostA ++ portTextA szPortA ++ rest) =
      (szHostA ++ portTextA szPortA).length) ∧
    ((∃ ch r, widen rest = ch :: r ∧ ch ∈ wide "?#") →
      hostEnd (szHostA ++ portTextA szPortA ++ rest) =
        (szHostA ++ portTextA szPortA ++ rest).length) := by
  have hend := @hostEndW_authority _ _ (widen rest) hhost hport
  rwa [← widen_authority, ← widen_append, hostEndW_widen, length_widen, length_widen] at hend

/-- **A query or a fragment behind the authority is not the fragment that is read**, if the host is. -/
theorem fragmentTextA_behind (hhost : IsHost (widen szHostA)) (hport : IsPort (widen szPortA))
    (hzeroRest : 0 ∉ rest) (hbehind : ∃ ch r, widen rest = ch :: r ∧ ch ∈ wide "?#")
    {x : List Byte × List Byte × Option Nat}
    (hreads : ReadsHost (widen (szHostA ++ portTextA szPortA ++ rest))
      (widen x.1, widen x.2.1, x.2.2))
    (hx : x.1 = szHostA) {cStrFragmentW : List WChar}
    (huserInfo : setUserInfo x.2.1 = .ok cStrFragmentW) :
    decodeText (fragmentTextA rest) ≠ .ok cStrFragmentW := by
  have hzeroW : 0 ∉ widen rest := mt (@mem_widen rest 0).mp hzeroRest
  have hxW : widen x.1 = widen szHostA := congrArg widen hx
  rw [widen_append, widen_authority, List.append_assoc] at hreads
  obtain ⟨aW, rW, htail, huserText, hr⟩ := readsHost_behind hhost hport hzeroW hbehind hreads hxW
  obtain ⟨a, t, hrestA, rfl, ht⟩ := List.map_eq_append_iff.mp htail
  obtain ⟨c, r, rfl, hc, rfl⟩ := List.map_eq_cons_iff.mp ht
  obtain rfl : c = 0x40 := toUInt16_inj.mp hc
  -- the host has no colon, so that it is a name
  have hname : IsDnsName (widen szHostA) := by
    rcases hhost.cases with hname | hbrackets
    · exact hname
    · obtain ⟨b, b', hsplit', -, -⟩ := hbrackets.split
      have hcolon := hreads.facts.1
      rw [hxW, hsplit'] at hcolon
      exact absurd (List.mem_append_right _ List.mem_cons_self) hcolon
  have hplain : IsPlainAscii r :=
    isPlainAscii_of_mem fun chW hin => (hr chW hin).imp_left (hname.chars chW)
  have hhash : 0x23 ∉ r := by
    intro hin
    rcases hr 0x23 (@mem_widen r 0x23 |>.mpr hin) with hin | hin | hin
    · exact hhost.not_mem (by decide) hin
    · cases hin
    · exact absurd hin (by decide)
  have huserA : x.2.1 = szHostA ++ portTextA szPortA ++ a := by
    refine widen_inj.mp (huserText.trans ?_)
    rw [widen_append, widen_authority, List.append_assoc]
    rfl
  obtain ⟨ch, a, rfl, hch⟩ : ∃ ch a', a = ch :: a' ∧ (ch = 0x3F ∨ ch = 0x23) := by
    obtain ⟨chW, tW, hcons, hchW⟩ := hbehind
    rw [htail] at hcons
    cases a with
    | nil =>
      obtain ⟨rfl, -⟩ := List.cons.inj hcons
      exact absurd hchW (by decide)
    | cons ch a =>
      refine ⟨ch, a, rfl, ?_⟩
      obtain ⟨rfl, -⟩ := List.cons.inj hcons
      exact (List.mem_cons.mp hchW).imp (@toUInt16_inj ch 0x3F).mp fun hin =>
        (@toUInt16_inj ch 0x23).mp (List.mem_singleton.mp hin)
  have hne : szHostA ≠ [] := mt widen_eq_nil.mpr hhost.ne_nil
  have hne' : szHostA ++ portTextA szPortA ≠ [] := List.append_ne_nil_of_left_ne_nil hne _
  have hdecoded : decodeText (szHostA ++ portTextA szPortA ++ ch :: a) = .ok cStrFragmentW := by
    rw [setUserInfo, huserA, if_neg (List.append_ne_nil_of_left_ne_nil hne' _)] at huserInfo
    exact huserInfo
  rw [hrestA]
  exact fragmentTextA_ne hch hplain hhash hdecoded

variable (hscheme : szSchemeA.map lowerA = ascii "http" ∨ szSchemeA.map lowerA = ascii "https")
  (hhost : IsHost (widen szHostA)) (hport : IsPort (widen szPortA)) (hrest : IsBehind (widen rest))
include hscheme hhost hport hrest

/-- **What the narrow version reads of an authority.** -/
theorem readsAuthorityA_iff (isLocalHost : List Byte → Bool) :
    ReadsAuthority (parseFromString (urlEnv isLocalHost) (szSchemeA ++ ascii "://" ++
        (authorityA szUserInfoA szHostA szPortA ++ rest)))
      (decodeText (fragmentTextA rest)) (widen szUserInfoA) (widen szHostA) (widen szPortA) ↔
      szUserInfoA = [] ∧ IsDnsName (widen szHostA) ∧ IsReadHost szHostA ∧ StartsPath (widen rest) ∧
        NarrowRest (widePath (szSchemeA.map lowerA)) rest := by
  rw [parseFromString_http hscheme]
  have hauthority : authorityA [] szHostA szPortA = szHostA ++ portTextA szPortA := rfl
  have hzeroRest : 0 ∉ rest := fun h0 => hrest.zero (@mem_widen rest 0 |>.mpr h0)
  have hzero := zero_not_mem_authority hhost hport
  have hne : szHostA ≠ [] := mt widen_eq_nil.mpr hhost.ne_nil
  have hne' : szHostA ++ portTextA szPortA ≠ [] := List.append_ne_nil_of_left_ne_nil hne _
  obtain ⟨hend, hend'⟩ := @hostEnd_authority _ _ rest hhost hport
  constructor
  · rintro ⟨url, hparse, hurlHost, -, hurlUser, hfragment⟩
    obtain ⟨cStrPathW, R, x, cStrHostW, cStrFragmentW, url', hpath, hreduce, hsplit, hset, huserInfo,
      hparams, rfl⟩ := parsePath_iff.mp hparse
    obtain ⟨hstored, -, huserNil, hkept⟩ := parseParams_kept hparams
    have huser : szUserInfoA = [] := by
      rw [Url.getUserInfo, huserNil] at hurlUser
      exact widen_eq_nil.mp hurlUser.symm
    subst huser
    rw [hauthority] at hpath hsplit hparams hkept
    dsimp only at hpath hsplit hparams hkept hfragment
    have hstoredHost : szStr cStrHostW = widen szHostA := by
      rw [← hurlHost, Url.getHost, hstored]
    by_cases hstart : StartsPath (widen rest)
    · rw [hend hstart, List.take_left] at hsplit
      rw [hend hstart, List.drop_left] at hpath hparams
      have hreads := (splitHost_iff hzero hne' x).mp hsplit
      obtain ⟨hszStr, hread⟩ := hreads.setHost hzero hset
      have hx : x.1 = szHostA := widen_inj.mp (hszStr.symm.trans hstoredHost)
      rw [widen_authority] at hreads
      exact ⟨rfl, hreads.isDnsName hhost hport, hx ▸ hread (hx ▸ hne), hstart,
        ⟨_, _, hpath, hreduce⟩, parseParams_any hparams _⟩
    · exfalso
      have hbehind := hrest.cases hstart
      rw [hend' hbehind, List.take_length] at hsplit
      rw [hend' hbehind, List.drop_length] at hkept
      have hzeroT : 0 ∉ szHostA ++ portTextA szPortA ++ rest := by
        rw [List.mem_append, not_or]
        exact ⟨hzero, hzeroRest⟩
      have hreads := (splitHost_iff hzeroT (List.append_ne_nil_of_left_ne_nil hne' _) x).mp hsplit
      have hx : widen x.1 = widen szHostA := (hreads.setHost hzeroT hset).1.symm.trans hstoredHost
      have hkeptFragment : url'.cStrFragmentW = cStrFragmentW := hkept List.drop_nil
      rw [hkeptFragment] at hfragment
      exact fragmentTextA_behind hhost hport hzeroRest hbehind hreads (widen_inj.mp hx) huserInfo
        hfragment
  · rintro ⟨rfl, hname, hread, hstart, ⟨cStrPathW, R, hpath, hreduce⟩, url, hparams⟩
    have hsplit : splitHost (szHostA ++ portTextA szPortA) = .ok (szHostA, [], portOf (widen szPortA)) := by
      rw [splitHost_iff hzero hne', widen_authority]
      exact readsHost_name hname hport
    have hcolon : 0x3A ∉ szHostA := fun hin =>
      hname.not_mem (by decide) (@mem_widen szHostA 0x3A |>.mpr hin)
    have hszStr : szStr szHostA = szHostA := szStr_of_ne_zero fun ch hch h0 =>
      hzero (h0 ▸ List.mem_append_left _ hch)
    have hset : setHost (urlEnv isLocalHost) szHostA = .ok (widen szHostA) := by
      rw [setHost, hszStr, if_neg hne]
      exact (setHostA_eq_ok hcolon hne _).mpr ⟨hread, rfl⟩
    obtain ⟨url', hparams'⟩ := parseParams_any hparams ⟨widePath (szSchemeA.map lowerA), widen szHostA,
      prependSlash (widePath (szSchemeA.map lowerA)) R, portOf (widen szPortA), [], [], []⟩
    obtain ⟨hstored, hnPort, huserNil, -⟩ := parseParams_kept hparams'
    have hfragment := parseParams_fragment hzeroRest rfl hparams'
    rw [hauthority, hend hstart, List.take_left, List.drop_left]
    refine ⟨_, parsePath_iff.mpr ⟨cStrPathW, R, _, widen szHostA, [], url', hpath, hreduce, hsplit, hset,
      rfl, hparams', rfl⟩, ?_, getPort_of_nPort hnPort, ?_, hfragment⟩
    · rw [Url.getHost, hstored, szStr_widen, hszStr]
    · rw [Url.getUserInfo, huserNil]
      rfl

end Narrow

/-! ### The authority of a URL -/

/-- **An authority is read** exactly where it has no user info and no address in brackets, where
`SetHost` takes its name, and where a path or nothing stands behind it that is accepted too. -/
theorem readsAuthority_iff {szSchemeA : List Byte}
    (hscheme : szSchemeA.map lowerA = ascii "http" ∨ szSchemeA.map lowerA = ascii "https") :
    (∀ (isLocalHost : List Byte → Bool) (szUserInfoA szHostA szPortA rest : List Byte),
      IsHost (widen szHostA) → IsPort (widen szPortA) → IsBehind (widen rest) →
      (ReadsAuthority (parseFromString (urlEnv isLocalHost) (szSchemeA ++ ascii "://" ++
          (authorityA szUserInfoA szHostA szPortA ++ rest)))
        (decodeText (fragmentTextA rest)) (widen szUserInfoA) (widen szHostA) (widen szPortA) ↔
        szUserInfoA = [] ∧ IsDnsName (widen szHostA) ∧ IsReadHost szHostA ∧ StartsPath (widen rest) ∧
          NarrowRest (widePath (szSchemeA.map lowerA)) rest)) ∧
    ∀ (isLocalHost : List WChar → Bool) (szUserInfoW szHostW szPortW rest behind : List WChar),
      IsHost szHostW → IsPort szPortW → IsBehind rest →
      (ReadsAuthority (parseFromStringW isLocalHost (widen szSchemeA ++ wide "://" ++
          (authorityW szUserInfoW szHostW szPortW ++ rest)) behind)
        (.ok (fragmentTextW rest)) szUserInfoW szHostW szPortW ↔
        szUserInfoW = [] ∧ IsDnsName szHostW ∧ StartsPath rest ∧
          WideRest (widePath (szSchemeA.map lowerA)) rest) := by
  constructor
  · intro isLocalHost szUserInfoA szHostA szPortA rest hhost hport hrest
    exact readsAuthorityA_iff hscheme hhost hport hrest isLocalHost
  · intro isLocalHost szUserInfoW szHostW szPortW rest behind hhost hport hrest
    exact readsAuthorityW_iff hscheme hhost hport hrest isLocalHost behind

/-- A name with a port. -/
theorem readsAuthority_name :
    ReadsAuthority (parseFromString (urlEnv fun _ => false) (ascii "HTTP" ++ ascii "://" ++
        (authorityA [] (ascii "w.x") (ascii "80") ++ ascii "/a#f")))
      (decodeText (ascii "f")) [] (wide "w.x") (wide "80") ∧
    ReadsAuthority (parseFromStringW (fun _ => false) (wide "HTTP" ++ wide "://" ++
        (authorityW [] (wide "w.x") (wide "80") ++ wide "/a#f")) [0])
      (.ok (wide "f")) [] (wide "w.x") (wide "80") := by
  have hscheme : (ascii "HTTP").map lowerA = ascii "http" ∨ (ascii "HTTP").map lowerA = ascii "https" :=
    Or.inl (by decide)
  have hname : IsDnsName (wide "w.x") := by
    refine ⟨List.all_iff_forall_prop.mp (by decide), by decide, by decide, by decide, ?_⟩
    rw [← no_labels_iff]
    decide
  have hport : IsPort (wide "80") := Or.inr ⟨List.all_iff_forall_prop.mp (by decide), by decide, by decide⟩
  have hrest : IsBehind (wide "/a#f") := ⟨by decide, Or.inr ⟨0x2F, wide "a#f", rfl, by decide⟩⟩
  have hstart : StartsPath (wide "/a#f") := Or.inr ⟨0x2F, wide "a#f", rfl, by decide⟩
  have hread : IsReadHost (ascii "w.x") := by
    have hchecked : IsCheckedName (wide "w.x") :=
      ⟨List.all_iff_forall_prop.mp (by decide), hname.first, hname.last, hname.labels⟩
    have htext : hostText (ascii "w.x") = wide "w.x" := by decide
    refine Or.inr ⟨ascii "w.x", by decide, ?_⟩
    rw [isValidHostAddress_eq, htext]
    exact (validHostAddress_iff hname.ne_nil).mpr (Or.inr hchecked)
  have hnarrow : NarrowRest (widePath ((ascii "HTTP").map lowerA)) (ascii "/a#f") :=
    ⟨⟨wide "/a", wide "/a", by decide, by decide⟩,
      ⟨⟨[], [], [], none, [], [], wide "f"⟩, by decide⟩⟩
  have hwide : WideRest (widePath ((ascii "HTTP").map lowerA)) (wide "/a#f") :=
    ⟨wide "/a", by decide⟩
  exact ⟨((readsAuthority_iff hscheme).1 _ [] (ascii "w.x") (ascii "80") (ascii "/a#f") (.name hname)
      hport hrest).mpr ⟨rfl, hname, hread, hstart, hnarrow⟩,
    ((readsAuthority_iff hscheme).2 _ [] (wide "w.x") (wide "80") (wide "/a#f") [0] (.name hname)
      hport hrest).mpr ⟨rfl, hname, hstart, hwide⟩⟩

/-- The name of a user becomes the fragment. -/
theorem not_readsAuthority : ¬ ∀ szUserInfoA szHostA szPortA rest : List Byte,
    IsUserInfo (widen szUserInfoA) → IsHost (widen szHostA) → IsPort (widen szPortA) →
    IsBehind (widen rest) →
    ReadsAuthority (parseFromString (urlEnv fun _ => false) (ascii "http" ++ ascii "://" ++
        (authorityA szUserInfoA szHostA szPortA ++ rest)))
      (decodeText (fragmentTextA rest)) (widen szUserInfoA) (widen szHostA) (widen szPortA) := by
  intro hall
  have hname : IsDnsName (wide "h") := by
    refine ⟨List.all_iff_forall_prop.mp (by decide), by decide, by decide, by decide, ?_⟩
    rw [← no_labels_iff]
    decide
  have huser : IsUserInfo (wide "u") := by
    unfold IsUserInfo
    exact List.all_iff_forall_prop.mp (by decide)
  obtain ⟨url, hparse, -, -, hurlUser, -⟩ := hall (ascii "u") (ascii "h") [] (ascii "/") huser
    (.name hname) (Or.inl rfl) ⟨by decide, Or.inr ⟨0x2F, [], rfl, by decide⟩⟩
  have hurl : parseFromString (urlEnv fun _ => false) (ascii "http" ++ ascii "://" ++
      (authorityA (ascii "u") (ascii "h") [] ++ ascii "/")) =
        .ok ⟨wide "http", wide "h", wide "/", none, [], [], wide "u"⟩ := by decide +kernel
  rw [hurl] at hparse
  obtain rfl := Except.ok.inj hparse
  exact absurd hurlUser (by decide)

end MxLib.Http
