import MxLib.Http.UrlWiden

/-!
# The host of a URL

`splitHostW` looks for the first `@` of an authority, and for the first colon behind it.
`ReadsHost` says which texts are split to what, and `splitHostW_iff` that nothing else is.
-/

namespace MxLib.Http

/-! ### Characters that are looked for -/

def ClearW (szToFindW szStopCharW l : List WChar) : Prop :=
  ∀ ch ∈ l, ch ≠ 0 ∧ ch ∉ szToFindW ∧ ch ∉ szStopCharW

theorem findCharW_append {szToFindW szStopCharW l : List WChar} (h : ClearW szToFindW szStopCharW l)
    (r : List WChar) : findCharW szToFindW szStopCharW (l ++ r) =
      (findCharW szToFindW szStopCharW r).map (· + l.length) := by
  induction l with
  | nil => simp
  | cons ch l ih =>
    obtain ⟨⟨hzero, hfind, hstop⟩, hl⟩ := List.forall_mem_cons.mp h
    rw [List.cons_append, findCharW, if_neg (by simpa using hzero),
      if_neg (by simpa [List.contains_iff_mem] using hfind),
      if_neg (by simpa [List.contains_iff_mem] using hstop), ih hl, Option.map_map]
    rfl

theorem findCharW_eq_none {szToFindW szStopCharW l : List WChar}
    (h : ClearW szToFindW szStopCharW l) : findCharW szToFindW szStopCharW l = none := by
  have happ := findCharW_append h []
  rwa [List.append_nil, findCharW, Option.map_none] at happ

theorem findCharW_append_cons {szToFindW szStopCharW l : List WChar}
    (h : ClearW szToFindW szStopCharW l) {ch : WChar} (hzero : ch ≠ 0) (hch : ch ∈ szToFindW)
    (r : List WChar) : findCharW szToFindW szStopCharW (l ++ ch :: r) = some l.length := by
  rw [findCharW_append h, findCharW, if_neg (by simpa using hzero),
    if_pos (List.contains_iff_mem.mpr hch), Option.map_some, Nat.zero_add]

theorem clearW_single {ch : WChar} {l : List WChar} (hzero : 0 ∉ l) (h : ch ∉ l) :
    ClearW [ch] [] l := by
  intro c hc
  refine ⟨fun h0 => hzero (h0 ▸ hc), fun hin => h ?_, List.not_mem_nil⟩
  rwa [← List.mem_singleton.mp hin]

/-- A text is split at one first place of a character. -/
theorem append_cons_inj {ch : WChar} {a a' b b' : List WChar} (h : a ++ ch :: b = a' ++ ch :: b')
    (ha : ch ∉ a) (ha' : ch ∉ a') : a = a' ∧ b = b' := by
  induction a generalizing a' with
  | nil =>
    cases a' with
    | nil => exact ⟨rfl, (List.cons.inj h).2⟩
    | cons c a' => exact absurd ((List.cons.inj h).1 ▸ List.mem_cons_self) ha'
  | cons c a ih =>
    cases a' with
    | nil => exact absurd ((List.cons.inj h).1 ▸ List.mem_cons_self) ha
    | cons c' a' =>
      obtain ⟨rfl, htail⟩ := List.cons.inj h
      obtain ⟨rfl, rfl⟩ := ih htail (fun hin => ha (List.mem_cons_of_mem _ hin))
        fun hin => ha' (List.mem_cons_of_mem _ hin)
      exact ⟨rfl, rfl⟩

/-! ### What an authority is split to -/

/-- A host, and a port behind the first colon. -/
inductive ReadsPort : List WChar → List WChar → Option Nat → Prop
  | host {szHostW : List WChar} : 0x3A ∉ szHostW → ReadsPort szHostW szHostW none
  | port {szHostW szPortW : List WChar} {nPort : Nat} : 0x3A ∉ szHostW → szHostW ≠ [] →
      parsePortW 0 szPortW = .ok nPort → ReadsPort (szHostW ++ 0x3A :: szPortW) szHostW (some nPort)

/-- A user info in front of the first `@`, and what stands behind it. -/
inductive ReadsHost : List WChar → List WChar × List WChar × Option Nat → Prop
  | host {sW szHostW : List WChar} {nPort : Option Nat} : 0x40 ∉ sW → ReadsPort sW szHostW nPort →
      ReadsHost sW (szHostW, [], nPort)
  | user {szUserInfoW sW szHostW : List WChar} {nPort : Option Nat} : 0x40 ∉ szUserInfoW →
      szUserInfoW ≠ [] → ReadsPort sW szHostW nPort →
      ReadsHost (szUserInfoW ++ 0x40 :: sW) (szHostW, szUserInfoW, nPort)

theorem ReadsPort.facts {sW szHostW : List WChar} {nPort : Option Nat} (h : ReadsPort sW szHostW nPort) :
    0x3A ∉ szHostW ∧ ∀ ch ∈ szHostW, ch ∈ sW := by
  cases h with
  | host hcolon => exact ⟨hcolon, fun _ hin => hin⟩
  | port hcolon => exact ⟨hcolon, fun _ hin => List.mem_append_left _ hin⟩

/-- There is no colon in the host, and no character that was not in the authority. -/
theorem ReadsHost.facts {sW : List WChar} {x : List WChar × List WChar × Option Nat}
    (h : ReadsHost sW x) : 0x3A ∉ x.1 ∧ (∀ ch ∈ x.1, ch ∈ sW) ∧ ∀ ch ∈ x.2.1, ch ∈ sW := by
  cases h with
  | host _ hport => exact ⟨hport.facts.1, hport.facts.2, nofun⟩
  | user _ _ hport =>
    refine ⟨hport.facts.1, fun ch hin => ?_, fun ch hin => List.mem_append_left _ hin⟩
    exact List.mem_append_right _ (List.mem_cons_of_mem _ (hport.facts.2 ch hin))

/-- The second half of `splitHostW`. -/
def splitPortW (sW : List WChar) : Except HResult (List WChar × Option Nat) :=
  match findCharW (wide ":") [] sW with
  | some 0 => .error .eFail
  | none => .ok (sW, none)
  | some nPos =>
    match parsePortW 0 (sW.drop (nPos + 1)) with
    | .error hRes => .error hRes
    | .ok nPort => .ok (sW.take nPos, some nPort)

theorem splitPortW_iff {sW : List WChar} (hzero : 0 ∉ sW) (x : List WChar × Option Nat) :
    splitPortW sW = .ok x ↔ ReadsPort sW x.1 x.2 := by
  by_cases hcolon : 0x3A ∈ sW
  · obtain ⟨h, p, rfl, hh⟩ := List.eq_append_cons_of_mem hcolon
    have hclear : ClearW (wide ":") [] h :=
      clearW_single (fun h0 => hzero (List.mem_append_left _ h0)) hh
    have hfind : findCharW (wide ":") [] (h ++ 0x3A :: p) = some h.length :=
      findCharW_append_cons hclear (by decide) (by decide) p
    have hdrop : (h ++ 0x3A :: p).drop (h.length + 1) = p := drop_append_cons _ _ _
    have hsplit : splitPortW (h ++ 0x3A :: p) =
        if h = [] then .error .eFail else (parsePortW 0 p).map fun nPort => (h, some nPort) := by
      rw [splitPortW, hfind]
      cases h with
      | nil => rfl
      | cons ch h =>
        have htake : (ch :: h ++ 0x3A :: p).take (ch :: h).length = ch :: h := List.take_left
        rw [if_neg (List.cons_ne_nil ch h)]
        simp only [List.length_cons] at hdrop htake ⊢
        rw [hdrop, htake]
        cases parsePortW 0 p with
        | error hRes => rfl
        | ok nPort => rfl
    rw [hsplit]
    constructor
    · intro hok
      by_cases hnil : h = []
      · rw [if_pos hnil] at hok
        cases hok
      · rw [if_neg hnil] at hok
        obtain ⟨nPort, hport, rfl⟩ := exists_of_map_ok hok
        exact .port hh hnil hport
    · intro hreads
      obtain ⟨h', nPort⟩ := x
      generalize hsW : h ++ 0x3A :: p = sW at hreads
      cases hreads with
      | host hnot => exact absurd (hsW ▸ List.mem_append_right h List.mem_cons_self) hnot
      | port hh' hne hport =>
        obtain ⟨rfl, rfl⟩ := append_cons_inj hsW hh hh'
        rw [if_neg hne, hport]
        rfl
  · have hfind : findCharW (wide ":") [] sW = none := findCharW_eq_none (clearW_single hzero hcolon)
    rw [splitPortW, hfind, Except.ok.injEq]
    constructor
    · rintro rfl
      exact .host hcolon
    · intro hreads
      obtain ⟨h, nPort⟩ := x
      cases hreads with
      | host => rfl
      | port => exact absurd (List.mem_append_right _ List.mem_cons_self) hcolon

theorem splitPortW_map (sW szUserInfoW : List WChar) :
    (match findCharW (wide ":") [] sW with
      | some 0 => .error .eFail
      | none => .ok (sW, szUserInfoW, none)
      | some nPos =>
        match parsePortW 0 (sW.drop (nPos + 1)) with
        | .error hRes => .error hRes
        | .ok nPort => .ok (sW.take nPos, szUserInfoW, some nPort)) =
      (splitPortW sW).map fun x => (x.1, szUserInfoW, x.2) := by
  rw [splitPortW]
  cases findCharW (wide ":") [] sW with
  | none => rfl
  | some nPos =>
    cases nPos with
    | zero => rfl
    | succ nPos =>
      simp only
      cases parsePortW 0 (sW.drop (nPos + 1 + 1)) with
      | error hRes => rfl
      | ok nPort => rfl

/-- **What `splitHostW` makes of an authority.** -/
theorem splitHostW_iff {sW : List WChar} (hzero : 0 ∉ sW) (hne : sW ≠ [])
    (x : List WChar × List WChar × Option Nat) : splitHostW sW = .ok x ↔ ReadsHost sW x := by
  have hempty : ¬ isEmptyStr sW = true := by
    rw [isEmptyStr_of_ne_zero (fun ch hch h0 => hzero (h0 ▸ hch)) hne]
    exact Bool.false_ne_true
  obtain ⟨szHostW, szUserInfoW, nPort⟩ := x
  by_cases hat : 0x40 ∈ sW
  · obtain ⟨u, r, rfl, hu⟩ := List.eq_append_cons_of_mem hat
    have hclear : ClearW (wide "@") [] u :=
      clearW_single (fun h0 => hzero (List.mem_append_left _ h0)) hu
    have hfind : findCharW (wide "@") [] (u ++ 0x40 :: r) = some u.length :=
      findCharW_append_cons hclear (by decide) (by decide) r
    have hdrop : (u ++ 0x40 :: r).drop (u.length + 1) = r := drop_append_cons _ _ _
    have hr : 0 ∉ r := fun h0 => hzero (List.mem_append_right _ (List.mem_cons_of_mem _ h0))
    have hsplit : splitHostW (u ++ 0x40 :: r) =
        if u = [] then .error .eFail else (splitPortW r).map fun x => (x.1, u, x.2) := by
      rw [splitHostW, if_neg hempty, hfind]
      cases u with
      | nil => rfl
      | cons ch u =>
        rw [if_neg (List.cons_ne_nil ch u)]
        have htake : (ch :: u ++ 0x40 :: r).take (ch :: u).length = ch :: u := List.take_left
        simp only [List.length_cons] at hdrop htake ⊢
        simp only [Option.getD_some, Option.map_some, hdrop, htake]
        exact splitPortW_map r (ch :: u)
    rw [hsplit]
    constructor
    · intro hok
      by_cases hnil : u = []
      · rw [if_pos hnil] at hok
        cases hok
      · rw [if_neg hnil] at hok
        obtain ⟨y, hport, heq⟩ := exists_of_map_ok hok
        obtain ⟨rfl, rfl, rfl⟩ : y.1 = szHostW ∧ u = szUserInfoW ∧ y.2 = nPort := by
          simpa using heq
        exact .user hu hnil ((splitPortW_iff hr y).mp hport)
    · intro hreads
      generalize hsW : u ++ 0x40 :: r = sW at hreads
      cases hreads with
      | host hnot => exact absurd (hsW ▸ List.mem_append_right u List.mem_cons_self) hnot
      | user hu' hne' hport =>
        obtain ⟨rfl, rfl⟩ := append_cons_inj hsW hu hu'
        rw [if_neg hne', (splitPortW_iff hr (szHostW, nPort)).mpr hport]
        rfl
  · have hfind : findCharW (wide "@") [] sW = none := findCharW_eq_none (clearW_single hzero hat)
    have hsplit : splitHostW sW = (splitPortW sW).map fun x => (x.1, [], x.2) := by
      rw [splitHostW, if_neg hempty, hfind]
      simp only [Option.getD_none, Option.map_none, List.take_zero, List.drop_zero]
      exact splitPortW_map sW []
    rw [hsplit]
    constructor
    · intro hok
      obtain ⟨y, hport, heq⟩ := exists_of_map_ok hok
      obtain ⟨rfl, hnil, rfl⟩ : y.1 = szHostW ∧ [] = szUserInfoW ∧ y.2 = nPort := by
        simpa [eq_comm] using heq
      subst hnil
      exact .host hat ((splitPortW_iff hzero y).mp hport)
    · intro hreads
      cases hreads with
      | host hnot hport =>
        rw [(splitPortW_iff hzero (szHostW, nPort)).mpr hport]
        rfl
      | user => exact absurd (List.mem_append_right _ List.mem_cons_self) hat

/-- What is split off a text, by what is split off its copy. -/
theorem splitHost_iff {sA : List Byte} (hzero : 0 ∉ sA) (hne : sA ≠ [])
    (x : List Byte × List Byte × Option Nat) :
    splitHost sA = .ok x ↔ ReadsHost (widen sA) (widen x.1, widen x.2.1, x.2.2) := by
  have hzeroW : 0 ∉ widen sA := mt (@mem_widen sA 0).mp hzero
  rw [← splitHostW_iff hzeroW (mt widen_eq_nil.mp hne), splitHostW_widen]
  cases splitHost sA with
  | error hRes => exact iff_of_false nofun nofun
  | ok y =>
    obtain ⟨y1, y2, y3⟩ := y
    obtain ⟨x1, x2, x3⟩ := x
    simp only [Except.map, Except.ok.injEq, Prod.mk.injEq, widen_inj]

end MxLib.Http
