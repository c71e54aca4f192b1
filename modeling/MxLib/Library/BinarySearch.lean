import Mathlib.Algebra.Order.Ring.Nat
import Mathlib.Data.List.Chain
import Mathlib.Order.Basic

/-!
# Binary search

`bsearch` looks for an element with a comparison that says on which side of an element
the key lies.  On a list that is sorted by the key it finds the element that has it
(`bsearch_eq_some_iff`).
-/

namespace MxLib.Library.BinarySearch

variable {α κ : Type*}

/-- The search among the `num` elements from `lo` on, with at most `fuel` comparisons. -/
def searchFrom (compare : α → Ordering) (base : List α) : Nat → Nat → Nat → Option α
  | 0, _, _ => none
  | fuel + 1, lo, num =>
    if num = 0 then none
    else
      match base[lo + num / 2]? with
      | none => none
      | some x =>
        match compare x with
        | .eq => some x
        | .lt => searchFrom compare base fuel lo (num / 2)
        | .gt => searchFrom compare base fuel (lo + num / 2 + 1) (num - num / 2 - 1)

def bsearch (compare : α → Ordering) (base : List α) : Option α :=
  searchFrom compare base base.length 0 base.length

variable [LinearOrder κ]

/-- The comparison of a key with that of an element. -/
def compareKey (f : α → κ) (key : κ) (x : α) : Ordering :=
  if key < f x then .lt else if key > f x then .gt else .eq

theorem searchFrom_sound {f : α → κ} {key : κ} {base : List α} {fuel lo num : Nat} {x : α}
    (h : searchFrom (compareKey f key) base fuel lo num = some x) : x ∈ base ∧ f x = key := by
  induction fuel generalizing lo num with
  | zero => cases h
  | succ fuel ih =>
    rw [searchFrom] at h
    split at h
    · cases h
    split at h
    · cases h
    next y hy =>
      split at h
      next hcmp =>
        obtain rfl := Option.some.inj h
        refine ⟨List.mem_of_getElem? hy, ?_⟩
        unfold compareKey at hcmp
        split at hcmp
        · cases hcmp
        split at hcmp
        · cases hcmp
        next hlt hgt => exact le_antisymm (not_lt.mp hlt) (not_lt.mp hgt)
      · exact ih h
      · exact ih h

/-- The element is among those that are left. -/
theorem searchFrom_complete {f : α → κ} {base : List α}
    (hsorted : base.Pairwise fun x y => f x < f y) {fuel lo num k : Nat} (hfuel : num ≤ fuel)
    (hend : lo + num ≤ base.length) (hk : k < base.length) (hlo : lo ≤ k) (hhi : k < lo + num) :
    searchFrom (compareKey f (f base[k])) base fuel lo num = some base[k] := by
  have hlt := List.pairwise_iff_getElem.mp hsorted
  induction fuel generalizing lo num with
  | zero => omega
  | succ fuel ih =>
    have hmid : lo + num / 2 < base.length := by omega
    rw [searchFrom, if_neg (by omega), List.getElem?_eq_getElem hmid]
    simp only [compareKey]
    rcases Nat.lt_trichotomy k (lo + num / 2) with h | h | h
    · have hkey := hlt k (lo + num / 2) hk hmid h
      rw [if_pos hkey]
      exact ih (by omega) (by omega) hlo h
    · subst h
      rw [if_neg (lt_irrefl _), if_neg (lt_irrefl _)]
    · have hkey := hlt (lo + num / 2) k hmid hk h
      rw [if_neg hkey.not_gt, if_pos hkey]
      exact ih (by omega) (by omega) (by omega) (by omega)

/-- **A sorted list is searched completely.** -/
theorem bsearch_eq_some_iff {f : α → κ} {base : List α}
    (hsorted : base.Pairwise fun x y => f x < f y) {key : κ} {x : α} :
    bsearch (compareKey f key) base = some x ↔ x ∈ base ∧ f x = key := by
  constructor
  · exact searchFrom_sound
  · rintro ⟨hx, rfl⟩
    obtain ⟨k, hk, rfl⟩ := List.getElem_of_mem hx
    exact searchFrom_complete hsorted (Nat.le_refl _) (by rw [Nat.zero_add]) hk (Nat.zero_le k)
      (by rw [Nat.zero_add]; exact hk)

end MxLib.Library.BinarySearch
