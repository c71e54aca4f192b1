import Mathlib.Algebra.Order.Ring.Nat
import Mathlib.Data.List.Basic

/-!
# Names between separators

A path is a list with separators in it.  `names` is what stands between them, and
`collapse` leaves one separator where there are several in a row; the names stay
the same.  A collapsed path is a separator at most, the names with one separator
behind each, and a last name (`exists_render`).

`resolve` takes the names one by one: one name stands for nothing, another one for
the name before it.
-/

namespace MxLib.Library.Segments

variable {α : Type*} {sep : α}

/-! ### A path as a list of names -/

variable (sep) in
/-- Every name with a separator behind it. -/
def render (done : List (List α)) : List α := done.flatMap (· ++ [sep])

@[simp] theorem render_nil : render sep [] = [] := rfl

@[simp] theorem render_cons (s : List α) (done : List (List α)) :
    render sep (s :: done) = s ++ sep :: render sep done := by
  simp [render]

theorem render_append_singleton (done : List (List α)) (s : List α) :
    render sep (done ++ [s]) = render sep done ++ s ++ [sep] := by
  simp [render]

theorem mem_render {a : α} {done : List (List α)} :
    a ∈ render sep done ↔ ∃ s ∈ done, a ∈ s ∨ a = sep := by
  simp [render]

/-- A run that is not empty. -/
def IsName (sep : α) (s : List α) : Prop := s ≠ [] ∧ sep ∉ s

/-- No two separators in a row. -/
def Collapsed (sep : α) : List α → Prop
  | [] => True
  | a :: l => ¬ (a = sep ∧ l.head? = some sep) ∧ Collapsed sep l

theorem head_render {done : List (List α)} (hdone : ∀ s ∈ done, IsName sep s) {last : List α}
    (hlast : sep ∉ last) : (render sep done ++ last).head? ≠ some sep := by
  cases done with
  | nil =>
    intro h
    exact hlast (List.mem_of_head? h)
  | cons s done =>
    obtain ⟨hne, hsep⟩ := hdone s List.mem_cons_self
    cases s with
    | nil => exact absurd rfl hne
    | cons a s =>
      intro h
      rw [render_cons] at h
      exact hsep (by rw [← Option.some.inj h]; exact List.mem_cons_self)

theorem collapsed_append {s : List α} (hs : sep ∉ s) {l : List α} (hl : Collapsed sep l) :
    Collapsed sep (s ++ l) := by
  induction s with
  | nil => exact hl
  | cons a s ih =>
    obtain ⟨ha, hs⟩ := not_or.mp (List.mem_cons.not.mp hs)
    exact ⟨fun h => ha h.1.symm, ih hs⟩

/-- A path that is put together from names is collapsed. -/
theorem collapsed_render {done : List (List α)} (hdone : ∀ s ∈ done, IsName sep s) {last : List α}
    (hlast : sep ∉ last) : Collapsed sep (render sep done ++ last) := by
  induction done with
  | nil =>
    rw [render_nil, List.nil_append, ← List.append_nil last]
    exact collapsed_append hlast trivial
  | cons s done ih =>
    have hdone' : ∀ t ∈ done, IsName sep t := fun t ht => hdone t (List.mem_cons_of_mem s ht)
    rw [render_cons, List.append_assoc, List.cons_append]
    refine collapsed_append (hdone s List.mem_cons_self).2 ⟨?_, ih hdone'⟩
    exact fun h => head_render hdone' hlast h.2

variable [DecidableEq α]

/-! ### Names -/

variable (sep) in
/-- The runs between separators, without the empty ones. -/
def names (l : List α) : List (List α) := (l.splitOn sep).filter (· ≠ [])

@[simp] theorem names_nil : names sep [] = [] := rfl

theorem names_append_cons (l m : List α) : names sep (l ++ sep :: m) = names sep l ++ names sep m := by
  rw [names, List.splitOn_append_cons_self, List.filter_append]
  rfl

@[simp] theorem names_cons_self (l : List α) : names sep (sep :: l) = names sep l :=
  names_append_cons [] l

theorem names_of_not_mem {s : List α} (h : sep ∉ s) : names sep s = if s = [] then [] else [s] := by
  rw [names, List.splitOn_eq_singleton h]
  by_cases hs : s = [] <;> simp [hs]

theorem names_of_isName {s : List α} (h : IsName sep s) : names sep s = [s] := by
  rw [names_of_not_mem h.2, if_neg h.1]

/-- The first run of a path, and what follows it. -/
theorem names_append_of_head (s : List α) {m : List α} (hm : m = [] ∨ m.head? = some sep) :
    names sep (s ++ m) = names sep s ++ names sep m := by
  rcases hm with rfl | hm
  · rw [List.append_nil, names_nil, List.append_nil]
  · obtain ⟨m', rfl⟩ : ∃ m', m = sep :: m' := by
      cases m with
      | nil => cases hm
      | cons b m => exact ⟨m, by rw [Option.some.inj hm]⟩
    rw [names_append_cons, names_cons_self]

theorem names_replicate_append (k : Nat) (l : List α) :
    names sep (List.replicate k sep ++ l) = names sep l := by
  induction k with
  | zero => rfl
  | succ k ih => rw [List.replicate_succ, List.cons_append, names_cons_self, ih]

/-- A run of a path is one of its names, unless it is empty. -/
theorem mem_names_iff {s l : List α} (hs : s ≠ []) : s ∈ names sep l ↔ s ∈ l.splitOn sep := by
  rw [names, List.mem_filter]
  simp [hs]

/-- The runs between separators have none in them. -/
theorem not_mem_of_mem_splitOn {s l : List α} (h : s ∈ l.splitOn sep) : sep ∉ s := by
  induction l generalizing s with
  | nil =>
    rw [List.splitOn_nil, List.mem_singleton] at h
    rw [h]
    exact List.not_mem_nil
  | cons a l ih =>
    rw [List.splitOn_cons_eq_if_modifyHead] at h
    by_cases ha : a = sep
    · rw [if_pos (beq_iff_eq.mpr ha), List.mem_cons] at h
      rcases h with rfl | h
      · exact List.not_mem_nil
      · exact ih h
    · rw [if_neg (by simpa using ha)] at h
      cases hl : l.splitOn sep with
      | nil => exact absurd hl (List.splitOn_ne_nil sep l)
      | cons r rs =>
        rw [hl, List.modifyHead_cons, List.mem_cons] at h
        rcases h with rfl | h
        · rw [List.mem_cons, not_or]
          exact ⟨Ne.symm ha, ih (by rw [hl]; exact List.mem_cons_self)⟩
        · exact ih (by rw [hl]; exact List.mem_cons_of_mem _ h)

/-- What stands between separators comes from the list. -/
theorem mem_of_mem_splitOn {s l : List α} (h : s ∈ l.splitOn sep) {a : α} (ha : a ∈ s) : a ∈ l := by
  induction l generalizing s with
  | nil =>
    rw [List.splitOn_nil, List.mem_singleton] at h
    rw [h] at ha
    exact ha
  | cons b l ih =>
    rw [List.splitOn_cons_eq_if_modifyHead] at h
    by_cases hb : b = sep
    · rw [if_pos (beq_iff_eq.mpr hb), List.mem_cons] at h
      rcases h with rfl | h
      · cases ha
      · exact List.mem_cons_of_mem _ (ih h ha)
    · rw [if_neg (by simpa using hb)] at h
      cases hl : l.splitOn sep with
      | nil => exact absurd hl (List.splitOn_ne_nil sep l)
      | cons r rs =>
        rw [hl, List.modifyHead_cons, List.mem_cons] at h
        rcases h with rfl | h
        · rcases List.mem_cons.mp ha with rfl | ha
          · exact List.mem_cons_self
          · exact List.mem_cons_of_mem _ (ih (by rw [hl]; exact List.mem_cons_self) ha)
        · exact List.mem_cons_of_mem _ (ih (by rw [hl]; exact List.mem_cons_of_mem _ h) ha)

/-- An item of the list is a separator, or it stands between two of them. -/
theorem eq_or_mem_splitOn {l : List α} {a : α} (h : a ∈ l) : a = sep ∨ ∃ s ∈ l.splitOn sep, a ∈ s := by
  induction l with
  | nil => cases h
  | cons b l ih =>
    rw [List.splitOn_cons_eq_if_modifyHead]
    by_cases hb : b = sep
    · rw [if_pos (beq_iff_eq.mpr hb)]
      rcases List.mem_cons.mp h with rfl | h
      · exact .inl hb
      · rcases ih h with ha | ⟨s, hs, ha⟩
        · exact .inl ha
        · exact .inr ⟨s, List.mem_cons_of_mem _ hs, ha⟩
    · rw [if_neg (by simpa using hb)]
      cases hl : l.splitOn sep with
      | nil => exact absurd hl (List.splitOn_ne_nil sep l)
      | cons r rs =>
        rw [hl] at ih
        rw [List.modifyHead_cons]
        rcases List.mem_cons.mp h with rfl | h
        · exact .inr ⟨_, List.mem_cons_self, List.mem_cons_self⟩
        · rcases ih h with ha | ⟨s, hs, ha⟩
          · exact .inl ha
          · rcases List.mem_cons.mp hs with rfl | hs
            · exact .inr ⟨_, List.mem_cons_self, List.mem_cons_of_mem _ ha⟩
            · exact .inr ⟨s, List.mem_cons_of_mem _ hs, ha⟩

/-! ### Double separators -/

variable (sep) in
/-- One separator where there were several in a row. -/
def collapse : List α → List α
  | [] => []
  | a :: l => if a = sep ∧ l.head? = some sep then collapse l else a :: collapse l

theorem collapse_cons (a : α) (l : List α) : collapse sep (a :: l) =
    if a = sep ∧ l.head? = some sep then collapse sep l else a :: collapse sep l := rfl

theorem head_collapse (l : List α) : (collapse sep l).head? = l.head? := by
  induction l with
  | nil => rfl
  | cons a l ih =>
    rw [collapse_cons]
    split
    · rename_i h
      rw [ih, h.1, h.2]
      rfl
    · rfl

theorem collapsed_collapse (l : List α) : Collapsed sep (collapse sep l) := by
  induction l with
  | nil => exact trivial
  | cons a l ih =>
    rw [collapse_cons]
    split
    · exact ih
    · rename_i h
      exact ⟨by rw [head_collapse]; exact h, ih⟩

theorem collapse_of_collapsed {l : List α} (h : Collapsed sep l) : collapse sep l = l := by
  induction l with
  | nil => rfl
  | cons a l ih => rw [collapse_cons, if_neg h.1, ih h.2]

@[simp] theorem collapse_collapse (l : List α) : collapse sep (collapse sep l) = collapse sep l :=
  collapse_of_collapsed (collapsed_collapse l)

/-- Separators at the beginning count as one. -/
theorem collapse_replicate_append (k : Nat) (l : List α) :
    collapse sep (List.replicate (k + 1) sep ++ l) = collapse sep (sep :: l) := by
  induction k with
  | zero => rfl
  | succ k ih =>
    rw [List.replicate_succ, List.cons_append, collapse_cons, if_pos, ih]
    exact ⟨rfl, rfl⟩

theorem mem_collapse {a : α} {l : List α} (h : a ∈ collapse sep l) : a ∈ l := by
  induction l with
  | nil => exact h
  | cons b l ih =>
    rw [collapse_cons] at h
    split at h
    · exact List.mem_cons_of_mem b (ih h)
    · rcases List.mem_cons.mp h with rfl | h
      · exact List.mem_cons_self
      · exact List.mem_cons_of_mem b (ih h)

/-- **The names stay the same.** -/
@[simp] theorem names_collapse (l : List α) : names sep (collapse sep l) = names sep l := by
  suffices h : ∀ pre, names sep (pre ++ collapse sep l) = names sep (pre ++ l) from h []
  induction l with
  | nil => exact fun _ => rfl
  | cons a l ih =>
    intro pre
    rw [collapse_cons]
    split
    · rename_i h
      obtain ⟨rfl, hl⟩ := h
      cases l with
      | nil => cases hl
      | cons b l =>
        obtain rfl := Option.some.inj hl
        rw [ih pre, names_append_cons, names_append_cons, names_cons_self]
    · have h := ih (pre ++ [a])
      rwa [List.append_assoc, List.append_assoc] at h

/-! ### Every collapsed path -/

theorem names_render {done : List (List α)} (hdone : ∀ s ∈ done, IsName sep s) (last : List α) :
    names sep (render sep done ++ last) = done ++ names sep last := by
  induction done with
  | nil => rfl
  | cons s done ih =>
    rw [render_cons, List.append_assoc, List.cons_append, names_append_cons,
      ih fun t ht => hdone t (List.mem_cons_of_mem s ht),
      names_of_isName (hdone s List.mem_cons_self)]
    rfl

/-- **A collapsed path is a separator at most, then names with one separator behind
each, then a last name.** -/
theorem exists_render {l : List α} (h : Collapsed sep l) :
    ∃ lead done last, l = lead ++ (render sep done ++ last) ∧ (lead = [] ∨ lead = [sep]) ∧
      (∀ s ∈ done, IsName sep s) ∧ sep ∉ last := by
  induction l with
  | nil => exact ⟨[], [], [], rfl, Or.inl rfl, by simp, List.not_mem_nil⟩
  | cons a l ih =>
    obtain ⟨hne, hl⟩ := h
    obtain ⟨lead, done, last, rfl, hlead, hdone, hlast⟩ := ih hl
    by_cases ha : a = sep
    · rcases hlead with rfl | rfl
      · exact ⟨[sep], done, last, by rw [ha]; rfl, Or.inr rfl, hdone, hlast⟩
      · exact absurd ⟨ha, rfl⟩ hne
    · have hname : ∀ s, sep ∉ s → IsName sep (a :: s) := fun s hs =>
        ⟨List.cons_ne_nil a s, by simp [hs, Ne.symm ha]⟩
      rcases hlead with rfl | rfl
      · cases done with
        | nil => exact ⟨[], [], a :: last, rfl, Or.inl rfl, by simp, (hname last hlast).2⟩
        | cons s done =>
          have hs := hdone s List.mem_cons_self
          refine ⟨[], (a :: s) :: done, last, by simp, Or.inl rfl, ?_, hlast⟩
          intro t ht
          rcases List.mem_cons.mp ht with rfl | ht
          · exact hname s hs.2
          · exact hdone t (List.mem_cons_of_mem s ht)
      · refine ⟨[], [a] :: done, last, by simp, Or.inl rfl, ?_, hlast⟩
        intro t ht
        rcases List.mem_cons.mp ht with rfl | ht
        · exact hname [] List.not_mem_nil
        · exact hdone t ht

/-! ### Names that stand for others -/

/-- The names that are left of `segs` after `done`: `dot` stands for nothing, and
`dotdot` takes the name before it away. -/
def resolve (dot dotdot : List α) : List (List α) → List (List α) → List (List α)
  | done, [] => done
  | done, s :: segs =>
    if s = dot then resolve dot dotdot done segs
    else if s = dotdot then resolve dot dotdot done.dropLast segs
    else resolve dot dotdot (done ++ [s]) segs

/-- No `dotdot` comes where there is no name before it. -/
def Resolvable (dot dotdot : List α) : List (List α) → List (List α) → Prop
  | _, [] => True
  | done, s :: segs =>
    if s = dot then Resolvable dot dotdot done segs
    else if s = dotdot then done ≠ [] ∧ Resolvable dot dotdot done.dropLast segs
    else Resolvable dot dotdot (done ++ [s]) segs

variable {dot dotdot : List α}

theorem resolve_cons (done segs : List (List α)) (s : List α) :
    resolve dot dotdot done (s :: segs) =
      if s = dot then resolve dot dotdot done segs
      else if s = dotdot then resolve dot dotdot done.dropLast segs
      else resolve dot dotdot (done ++ [s]) segs := rfl

theorem resolve_append (done segs segs' : List (List α)) :
    resolve dot dotdot done (segs ++ segs') =
      resolve dot dotdot (resolve dot dotdot done segs) segs' := by
  induction segs generalizing done with
  | nil => rfl
  | cons s segs ih =>
    rw [List.cons_append, resolve_cons, resolve_cons]
    split
    · exact ih _
    · split <;> exact ih _

/-- **What is left are names of the list that stand for themselves.** -/
theorem mem_resolve {done segs : List (List α)} {s : List α}
    (h : s ∈ resolve dot dotdot done segs) :
    s ∈ done ∨ (s ∈ segs ∧ s ≠ dot ∧ s ≠ dotdot) := by
  induction segs generalizing done with
  | nil => exact Or.inl h
  | cons t segs ih =>
    rw [resolve_cons] at h
    split at h
    · rcases ih h with h | ⟨h, h'⟩
      · exact Or.inl h
      · exact Or.inr ⟨List.mem_cons_of_mem t h, h'⟩
    · split at h
      · rcases ih h with h | ⟨h, h'⟩
        · exact Or.inl (List.dropLast_subset done h)
        · exact Or.inr ⟨List.mem_cons_of_mem t h, h'⟩
      · rename_i hdot hdotdot
        rcases ih h with h | ⟨h, h'⟩
        · rcases List.mem_append.mp h with h | h
          · exact Or.inl h
          · obtain rfl := List.mem_singleton.mp h
            exact Or.inr ⟨List.mem_cons_self, hdot, hdotdot⟩
        · exact Or.inr ⟨List.mem_cons_of_mem t h, h'⟩

end MxLib.Library.Segments
