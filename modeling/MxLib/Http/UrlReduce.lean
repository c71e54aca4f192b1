import MxLib.Http.UrlFidelity

/-!
# Dot segments

What `ReducePath` makes of a path that cannot be the name of a file: the names of the path are
pushed on a stack one by one, a dot is not, and two dots take the last name away.  Both loops end,
the assertion of the source holds at every turn, and a path that was reduced is left alone.
-/

namespace MxLib.Http

open MxLib.Library MxLib.Library.Segments

/-! ### The assertion -/

/-- The turn that goes back to the slash before two dots, which asserts that one stands there. -/
structure GoesBack (nStartOfs : Nat) (c : Reducing) : Prop where
  prev : c.bPrevWasSlash = true
  dot : charAt c.cStrPathW c.k = dotW
  dotdot : charAt c.cStrPathW (c.k + 1) = dotW
  ends : charAt c.cStrPathW (c.k + 2) = slashW ∨ charAt c.cStrPathW (c.k + 2) = 0
  start : c.k ≠ nStartOfs ∧ c.k ≠ nStartOfs + 1

/-- The flag says that the index is at the start or behind a slash. -/
def PrevIsSlash (c : Reducing) : Prop :=
  c.bPrevWasSlash = true → c.k = 0 ∨ charAt c.cStrPathW (c.k - 1) = slashW

/-- Nothing changes before a part that is taken out. -/
theorem charAt_deleteStr {cStrPathW : List WChar} {k n i : Nat} (hi : i < k) :
    charAt (deleteStr cStrPathW k n) i = charAt cStrPathW i := by
  by_cases hlen : i < cStrPathW.length
  · have hleft : i < (cStrPathW.take k).length := by
      rw [List.length_take]
      omega
    rw [charAt, charAt, deleteStr, List.getD_eq_getElem?_getD, List.getD_eq_getElem?_getD,
      List.getElem?_append_left hleft, List.getElem?_take_of_lt hi]
  · have hlen' : (deleteStr cStrPathW k n).length ≤ i := by
      rw [deleteStr, List.length_append, List.length_take, List.length_drop]
      omega
    rw [charAt_of_length_le hlen', charAt_of_length_le (by omega)]

theorem backToSlash_slash (sW : List WChar) (k : Nat) :
    backToSlash sW 0 k = 0 ∨ charAt sW (backToSlash sW 0 k - 1) = slashW := by
  induction k with
  | zero => exact Or.inl rfl
  | succ k ih =>
    rw [backToSlash]
    split
    · exact ih
    · rename_i hslash
      right
      simpa using hslash

theorem PrevIsSlash.deleteStr {c : Reducing} (hc : PrevIsSlash c) (n : Nat) (bValid : Bool) :
    PrevIsSlash { c with cStrPathW := deleteStr c.cStrPathW c.k n, bValid := bValid } := by
  intro hprev
  rcases Nat.eq_zero_or_pos c.k with hk | hk
  · exact Or.inl hk
  · refine (hc hprev).imp_right fun hslash => ?_
    exact (charAt_deleteStr (Nat.sub_lt hk Nat.one_pos)).trans hslash

/-- Every turn leaves the flag right. -/
theorem PrevIsSlash.turn {c c' : Reducing} (hc : PrevIsSlash c) (h : reduceTurn 0 c = .inl c') :
    PrevIsSlash c' := by
  obtain ⟨hslash, rfl⟩ | ⟨hnot, rfl⟩ | ⟨k', -, rfl⟩ | ⟨l, bValid, -, rfl⟩ | ⟨k', l, hk', -, rfl⟩ :=
    (reduceTurn_inl h).2
  · exact fun _ => Or.inr hslash
  · exact fun hprev => absurd (hnot.symm.trans hprev) Bool.false_ne_true
  · exact fun hprev => absurd hprev Bool.false_ne_true
  · exact hc.deleteStr _ _
  · intro _
    rcases backToSlash_slash c.cStrPathW (c.k - 1) with hback | hback
    · exact Or.inl (hk'.trans hback)
    · rcases Nat.eq_zero_or_pos k' with hzero | hpos
      · exact Or.inl hzero
      · rw [← hk'] at hback
        exact Or.inr ((charAt_deleteStr (Nat.sub_lt hpos Nat.one_pos)).trans hback)

/-- **The assertion holds** at every turn of the loop. -/
theorem slash_of_goesBack {c : Reducing} (hc : PrevIsSlash c) (h : GoesBack 0 c) :
    charAt c.cStrPathW (c.k - 1) = slashW :=
  (hc h.prev).resolve_left h.start.1

/-! ### The segments -/

/-- The segments of a path that has single slashes, behind the slash at its front. -/
def pathSegments (l : List WChar) : List (List WChar) := (pathBody l).splitOn slashW

/-- `remove_dot_segments`: the names that are left, and the last segment.  Dots at the end leave
the slash before them. -/
def removeDotSegments (l : List WChar) : List WChar :=
  l.takeWhile (· == slashW) ++
    finish (resolve dot dotdot [] (pathSegments l).dropLast) ((pathSegments l).getLastD [])

theorem splitOn_render {segs : List (List WChar)} (hsegs : ∀ s ∈ segs, IsName slashW s)
    {last : List WChar} (hlast : slashW ∉ last) :
    (render slashW segs ++ last).splitOn slashW = segs ++ [last] := by
  induction segs with
  | nil => exact List.splitOn_eq_singleton hlast
  | cons s segs ih =>
    obtain ⟨hs, hsegs⟩ := List.forall_mem_cons.mp hsegs
    rw [render_cons, List.append_assoc, List.cons_append, List.splitOn_append_cons_self,
      List.splitOn_eq_singleton hs.2, ih hsegs]
    rfl

section Collapsed

variable {lead last : List WChar} {segs : List (List WChar)}
  (hlead : lead = [] ∨ lead = [slashW]) (hsegs : ∀ s ∈ segs, IsName slashW s) (hlast : slashW ∉ last)
include hlead hsegs hlast

theorem takeWhile_render :
    (lead ++ (render slashW segs ++ last)).takeWhile (· == slashW) = lead ∧
      pathBody (lead ++ (render slashW segs ++ last)) = render slashW segs ++ last := by
  have hbody := pathBody_of_head (head_render hsegs hlast)
  have htake : (render slashW segs ++ last).takeWhile (· == slashW) = [] :=
    List.length_eq_zero_iff.mp (countSlashes_of_head (head_render hsegs hlast))
  rcases hlead with rfl | rfl
  · exact ⟨htake, hbody⟩
  · rw [List.singleton_append, List.takeWhile_cons, if_pos (beq_self_eq_true _), htake, pathBody,
      List.dropWhile_cons, if_pos (beq_self_eq_true _)]
    exact ⟨rfl, hbody⟩

theorem pathSegments_render :
    pathSegments (lead ++ (render slashW segs ++ last)) = segs ++ [last] := by
  rw [pathSegments, (takeWhile_render hlead hsegs hlast).2, splitOn_render hsegs hlast]

theorem removeDotSegments_render : removeDotSegments (lead ++ (render slashW segs ++ last)) =
    lead ++ finish (resolve dot dotdot [] segs) last := by
  rw [removeDotSegments, pathSegments_render hlead hsegs hlast,
    (takeWhile_render hlead hsegs hlast).1, List.dropLast_concat, List.getLastD_concat]

end Collapsed

/-! ### Reduced paths -/

/-- The path with slashes for its backslashes, and no two of them in a row. -/
def slashCollapsed (cStrPathW : List WChar) : List WChar := collapse slashW (cStrPathW.map toSlash)

theorem isText_slashCollapsed {cStrPathW : List WChar} (hzero : (0 : WChar) ∉ cStrPathW) :
    IsText (slashCollapsed cStrPathW) := by
  obtain ⟨hl, hl'⟩ := isText_map_toSlash hzero
  exact ⟨fun h => hl (mem_collapse h), fun h => hl' (mem_collapse h)⟩

section NoFile

variable {szSchemeW : List WChar} (hfn : canBeFilename szSchemeW = false)
include hfn

theorem normalizePath_noFile {cStrPathW : List WChar} (hzero : (0 : WChar) ∉ cStrPathW) :
    normalizePath cStrPathW szSchemeW = slashCollapsed cStrPathW := by
  have heq := normalizePath_eq (t := []) hzero rfl szSchemeW
  rwa [List.append_nil, List.append_nil, hfn] at heq

theorem front_noFile (suf : List WChar) : Front (canBeFilename szSchemeW) [] suf :=
  .plain fun htrue => by rw [hfn] at htrue; cases htrue

/-- A path and what it is normalized to are reduced to the same path. -/
theorem reducePath_slashCollapsed {cStrPathW : List WChar} (hzero : (0 : WChar) ∉ cStrPathW)
    (hne : cStrPathW ≠ []) :
    slashCollapsed cStrPathW ≠ [] ∧
      reducePath cStrPathW szSchemeW = reducePath (slashCollapsed cStrPathW) szSchemeW := by
  have htext := isText_slashCollapsed hzero
  have hne' : slashCollapsed cStrPathW ≠ [] := by
    intro hnil
    have hhead := @head_collapse _ slashW _ (cStrPathW.map toSlash)
    rw [slashCollapsed] at hnil
    rw [hnil, List.head?_nil, eq_comm, List.head?_eq_none_iff, List.map_eq_nil_iff] at hhead
    exact hne hhead
  have hempty : ∀ s : List WChar, (0 : WChar) ∉ s → s ≠ [] → ¬ isEmptyStr s = true :=
    fun s hs hs' hempty => hs' (eq_nil_of_isEmptyStr hs hempty)
  refine ⟨hne', ?_⟩
  rw [reducePath, reducePath, if_neg (hempty _ hzero hne), if_neg (hempty _ htext.1 hne'),
    normalizePath_noFile hfn hzero, normalizePath_noFile hfn htext.1]
  rw [show slashCollapsed (slashCollapsed cStrPathW) = slashCollapsed cStrPathW by
    rw [slashCollapsed, map_toSlash htext, slashCollapsed, collapse_of_collapsed (collapsed_collapse _)]]

/-- **What `ReducePath` decides, and what it leaves.** -/
theorem reducePath_eq {cStrPathW : List WChar} (hzero : (0 : WChar) ∉ cStrPathW) :
    (Resolvable dot dotdot [] (pathSegments (slashCollapsed cStrPathW)) →
      reducePath cStrPathW szSchemeW = .ok (removeDotSegments (slashCollapsed cStrPathW))) ∧
    (¬ Resolvable dot dotdot [] (pathSegments (slashCollapsed cStrPathW)) →
      reducePath cStrPathW szSchemeW = .error .mxInvalidData) := by
  by_cases hne : cStrPathW = []
  · subst hne
    exact ⟨fun _ => rfl, fun h => absurd (show Resolvable dot dotdot [] [[]] from trivial) h⟩
  have htext := isText_slashCollapsed hzero
  obtain ⟨hne', heq⟩ := reducePath_slashCollapsed hfn hzero hne
  have hcollapsed : Collapsed slashW (slashCollapsed cStrPathW) := collapsed_collapse _
  obtain ⟨lead, segs, last, hrender, hlead, hsegs, hlast⟩ := exists_render hcollapsed
  have hreduce := reducePath_render (t := []) (front_noFile hfn _) hcollapsed htext rfl hne' hrender
    hlead hsegs hlast
  simp only [List.append_nil, List.nil_append] at hreduce
  rw [heq, hrender, pathSegments_render hlead hsegs hlast,
    removeDotSegments_render hlead hsegs hlast, ← hrender]
  exact hreduce

/-- A path that was reduced is left alone. -/
theorem reducePath_reduced {cStrPathW R : List WChar} (hzero : (0 : WChar) ∉ cStrPathW)
    (h : reducePath cStrPathW szSchemeW = .ok R) : reducePath R szSchemeW = .ok R := by
  by_cases hne : cStrPathW = []
  · subst hne
    obtain rfl := Except.ok.inj h
    rfl
  have htext := isText_slashCollapsed hzero
  obtain ⟨-, heq⟩ := reducePath_slashCollapsed hfn hzero hne
  rw [heq] at h
  obtain ⟨suf, hR, hresolved⟩ := reducePath_front (t := []) (front_noFile hfn _)
    (collapsed_collapse _) htext rfl (by rw [List.nil_append, List.append_nil]; exact h)
  rw [List.nil_append, List.append_nil] at hR
  subst hR
  by_cases hnil : R = []
  · subst hnil
    rfl
  have hmem : ∀ ch ∈ R, ch ≠ slashW → ch ∈ slashCollapsed cStrPathW := fun ch hch hslash =>
    (hresolved.mem ch hch).resolve_left hslash
  refine reducePath_noDots (front_noFile hfn R) hresolved.collapsed ⟨fun h0 => ?_, fun hback => ?_⟩
    hnil hresolved.noDots
  · exact htext.1 (hmem 0 h0 (by decide))
  · exact htext.2 (hmem backslashW hback (by decide))

end NoFile

/-- What is to be said of `ReducePath` for a path: its loops end, its assertion holds in every turn,
it accepts the path if no two dots come where no name is left, and then it leaves the path without
its dots, which stays as it is. -/
structure ReducesDots (szSchemeW cStrPathW : List WChar) : Prop where
  collapse_ends : ∀ nOfs, Loop.Terminates collapseTurn (convertBackslashes cStrPathW, nOfs)
  reduce_ends : Loop.Terminates (reduceTurn 0) ⟨normalizePath cStrPathW szSchemeW, 0, true, true⟩
  asserts : ∀ c, Loop.Reach (reduceTurn 0) ⟨normalizePath cStrPathW szSchemeW, 0, true, true⟩ c →
    GoesBack 0 c → charAt c.cStrPathW (c.k - 1) = slashW
  succeeds : (∃ R, reducePath cStrPathW szSchemeW = .ok R) ↔
    Resolvable dot dotdot [] (pathSegments (slashCollapsed cStrPathW))
  result : ∀ R, reducePath cStrPathW szSchemeW = .ok R →
    R = removeDotSegments (slashCollapsed cStrPathW) ∧ reducePath R szSchemeW = .ok R

/-- **`ReducePath` removes the dot segments** of a path that is not the name of a file. -/
theorem reducesDots {szSchemeW cStrPathW : List WChar}
    (hscheme : scheme2Enum szSchemeW ≠ .none ∧ scheme2Enum szSchemeW ≠ .file)
    (hzero : (0 : WChar) ∉ cStrPathW) : ReducesDots szSchemeW cStrPathW := by
  have hfn : canBeFilename szSchemeW = false := by
    rw [canBeFilename, beq_eq_false_iff_ne.mpr hscheme.1, beq_eq_false_iff_ne.mpr hscheme.2]
    rfl
  obtain ⟨hok, herror⟩ := reducePath_eq hfn hzero
  constructor
  · exact fun nOfs => Loop.terminates_of_measure _ collapseTurn_measure _
  · exact Loop.terminates_of_measure _ (reduceTurn_measure 0) _
  · intro c hreach hback
    have hinit : PrevIsSlash ⟨normalizePath cStrPathW szSchemeW, 0, true, true⟩ := fun _ => Or.inl rfl
    exact slash_of_goesBack (Loop.reach_induct PrevIsSlash (fun _ _ => PrevIsSlash.turn) hinit hreach)
      hback
  · constructor
    · rintro ⟨R, hR⟩
      by_contra hnot
      rw [herror hnot] at hR
      cases hR
    · exact fun h => ⟨_, hok h⟩
  · intro R hR
    refine ⟨?_, reducePath_reduced hfn hzero hR⟩
    by_cases hresolvable : Resolvable dot dotdot [] (pathSegments (slashCollapsed cStrPathW))
    · exact Except.ok.inj (hR.symm.trans (hok hresolvable))
    · rw [herror hresolvable] at hR
      cases hR

theorem reducesDots_http : ReducesDots (wide "http") (wide "/a/./b//../c/..") :=
  reducesDots (by decide) (by decide)

example : removeDotSegments (slashCollapsed (wide "/a/./b//../c/..")) = wide "/a/" := by decide

end MxLib.Http
