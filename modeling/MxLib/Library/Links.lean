import Mathlib.Algebra.Order.Ring.Nat
import Mathlib.Data.List.Nodup

/-!
# Linked nodes

A link leads from a place to the next one: a place is a node, or `none` for the record that holds
the first link and where the last one ends.  A link function leads through a list of nodes when
following it meets them in their order (`Leads`); a node is put in or taken out by changing one
link besides its own (`Leads.insert`, `Leads.remove`).  A two-way list is one such function each
way.
-/

namespace MxLib.Library.Links

open Function

variable {α : Type*} {link other : Option α → Option α} {c d : Option α} {l xs ys : List α}

/-- From `c` the links lead through the nodes of `l` to `d`. -/
def Leads (link : Option α → Option α) (c : Option α) (l : List α) (d : Option α) : Prop :=
  (c :: l.map some).map link = l.map some ++ [d]

@[simp] theorem leads_nil : Leads link c [] d ↔ link c = d := by simp [Leads]

@[simp] theorem leads_cons {x : α} :
    Leads link c (x :: l) d ↔ link c = some x ∧ Leads link (some x) l d := by
  simp [Leads]

/-- The place that `l` ends at, if it begins behind `c`. -/
def lastPlace (c : Option α) (l : List α) : Option α := (l.map some).getLastD c

@[simp] theorem lastPlace_nil : lastPlace c [] = c := rfl

@[simp] theorem lastPlace_cons {x : α} : lastPlace c (x :: l) = lastPlace (some x) l := by
  rw [lastPlace, List.map_cons, List.getLastD_cons]
  rfl

theorem lastPlace_mem : ∀ c : Option α, lastPlace c l ∈ c :: l.map some := by
  induction l with
  | nil => intro c; simp
  | cons x l ih =>
      intro c
      rw [lastPlace_cons]
      exact List.mem_cons_of_mem c (ih (some x))

theorem lastPlace_none (l : List α) : lastPlace none l = l.getLast? := by
  rw [lastPlace, List.getLastD_eq_getLast?, List.getLast?_map]
  cases l.getLast? <;> rfl

theorem leads_append : ∀ c : Option α, Leads link c (xs ++ ys) d ↔
    Leads link c xs (link (lastPlace c xs)) ∧ Leads link (lastPlace c xs) ys d := by
  induction xs with
  | nil => intro c; simp
  | cons x xs ih =>
      intro c
      rw [List.cons_append, leads_cons, ih, lastPlace_cons, leads_cons]
      exact and_assoc.symm

theorem Leads.head (h : Leads link c l none) : link c = l.head? := by
  cases l with
  | nil => exact leads_nil.mp h
  | cons x l => exact (leads_cons.mp h).1

/-- The link of a node leads to the one behind it. -/
theorem Leads.next {x : α} (h : Leads link c (xs ++ x :: ys) none) :
    link (some x) = ys.head? := by
  have hys := (leads_append c).mp h
  exact (leads_cons.mp hys.2).2.head

/-- What stands behind `xs`. -/
theorem Leads.behind (h : Leads link none (xs ++ ys) none) : link xs.getLast? = ys.head? := by
  rw [← lastPlace_none]
  exact ((leads_append none).mp h).2.head

/-- Only the links of the places themselves matter. -/
theorem Leads.congr : ∀ {c : Option α}, (∀ e ∈ c :: l.map some, other e = link e) →
    Leads link c l d → Leads other c l d := by
  intro c hsame h
  unfold Leads at h ⊢
  rw [← h]
  exact List.map_congr_left hsame

theorem places_nodup (h : (xs ++ ys).Nodup) : (none :: xs.map some).Nodup := by
  rw [List.nodup_cons]
  refine ⟨by simp, ?_⟩
  exact (List.nodup_append.mp h).1.map fun x y he => Option.some.inj he

theorem some_ne_lastPlace {x : α} (h : x ∉ xs) : some x ≠ lastPlace none xs := by
  intro he
  have hmem := lastPlace_mem (l := xs) none
  rw [← he] at hmem
  simp [h] at hmem

variable [DecidableEq α]

/-- Another link behind the last place. -/
theorem Leads.retarget {e : Option α} : ∀ {c : Option α}, (c :: l.map some).Nodup →
    Leads link c l d → Leads (update link (lastPlace c l) e) c l e := by
  induction l with
  | nil => intro c _ _; simp
  | cons x l ih =>
      intro c hnodup h
      obtain ⟨hc, hrest⟩ := leads_cons.mp h
      have hfresh : c ≠ lastPlace (some x) l := by
        intro he
        exact (List.nodup_cons.mp hnodup).1 (he ▸ lastPlace_mem (some x))
      rw [lastPlace_cons, leads_cons, update_of_ne hfresh]
      exact ⟨hc, ih (List.nodup_cons.mp hnodup).2 hrest⟩

/-- A node is put in behind `xs`. -/
theorem Leads.insert {n : α} (hnodup : (xs ++ ys).Nodup) (hn : n ∉ xs ++ ys)
    (h : Leads link none (xs ++ ys) d) :
    Leads (update (update link (some n) (link xs.getLast?)) xs.getLast? (some n)) none
      (xs ++ n :: ys) d := by
  rw [← lastPlace_none]
  obtain ⟨hxs, hys⟩ := (leads_append none).mp h
  have hnx : n ∉ xs := fun hm => hn (List.mem_append_left ys hm)
  have hny : n ∉ ys := fun hm => hn (List.mem_append_right xs hm)
  have hnlast := some_ne_lastPlace hnx
  -- in front of the node only the link behind `xs` is another one
  have hfront : Leads (update link (some n) (link (lastPlace none xs))) none xs
      (link (lastPlace none xs)) := by
    apply Leads.congr _ hxs
    intro e he
    apply update_of_ne
    rintro rfl
    simp [hnx] at he
  have hback : Leads (update (update link (some n) (link (lastPlace none xs)))
      (lastPlace none xs) (some n)) (some n) ys d := by
    have hlast : ∀ e ∈ ys.map some, e ≠ lastPlace none xs := by
      intro e he heq
      obtain ⟨y, hy, rfl⟩ := List.mem_map.mp he
      exact some_ne_lastPlace (fun hm => (List.nodup_append.mp hnodup).2.2 y hm y hy rfl) heq
    cases ys with
    | nil =>
        rw [leads_nil, update_of_ne hnlast, update_self]
        exact leads_nil.mp hys
    | cons y ys =>
        obtain ⟨hy, hrest⟩ := leads_cons.mp hys
        rw [leads_cons, update_of_ne hnlast, update_self]
        refine ⟨hy, Leads.congr ?_ hrest⟩
        intro e he
        rw [update_of_ne (hlast e he), update_of_ne]
        rintro rfl
        simp at he
        simp [he] at hny
  rw [leads_append, update_self]
  exact ⟨hfront.retarget (places_nodup hnodup), leads_cons.mpr ⟨update_self _ _ _, hback⟩⟩

/-- A node is taken out. -/
theorem Leads.remove {n : α} (hnodup : (xs ++ n :: ys).Nodup)
    (h : Leads link none (xs ++ n :: ys) d) :
    Leads (update (update link xs.getLast? (link (some n))) (some n) none) none (xs ++ ys) d := by
  rw [← lastPlace_none]
  obtain ⟨hxs, hys⟩ := (leads_append none).mp h
  obtain ⟨-, hrest⟩ := leads_cons.mp hys
  have hnodup' : (xs ++ ys).Nodup := hnodup.sublist (by simp)
  have hn : n ∉ xs ++ ys := by
    have hmiddle := List.nodup_middle.mp hnodup
    exact (List.nodup_cons.mp hmiddle).1
  have hlast : ∀ y ∈ ys, some y ≠ lastPlace none xs := fun y hy =>
    some_ne_lastPlace fun hm => (List.nodup_append.mp hnodup').2.2 y hm y hy rfl
  have hbehind : Leads (update link (lastPlace none xs) (link (some n)))
      (lastPlace none xs) ys d := by
    cases ys with
    | nil =>
        rw [leads_nil, update_self]
        exact leads_nil.mp hrest
    | cons y ys =>
        obtain ⟨hy, htail⟩ := leads_cons.mp hrest
        rw [leads_cons, update_self]
        refine ⟨hy, Leads.congr ?_ htail⟩
        intro e he
        obtain ⟨z, hz, rfl⟩ := List.mem_map.mp (show e ∈ (y :: ys).map some from he)
        exact update_of_ne (hlast z hz) _ _
  have hall : Leads (update link (lastPlace none xs) (link (some n))) none (xs ++ ys) d := by
    rw [leads_append, update_self]
    exact ⟨hxs.retarget (places_nodup hnodup'), hbehind⟩
  apply Leads.congr _ hall
  intro e he
  apply update_of_ne
  rintro rfl
  simp at he
  simp [he] at hn

end MxLib.Library.Links
