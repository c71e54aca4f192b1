import Mathlib.Algebra.Order.Ring.Nat
import Mathlib.Data.Finset.Card
import Mathlib.Data.List.Nodup

/-!
# Lists with keys

A list whose elements have keys is put over another one by `override`: the elements of the other
that have none of its keys, and behind them its own.

`Covers` is what is left of `override` if neither the order nor the elements are looked at: there
are the keys of both lists, and as many elements as keys.
-/

namespace MxLib.Library.KeyedLists

variable {α κ : Type*} [DecidableEq κ] (key : α → κ)

/-- No two elements have one key. -/
def NodupKeys (l : List α) : Prop := (l.map key).Nodup

instance (l : List α) : Decidable (NodupKeys key l) := inferInstanceAs (Decidable (l.map key).Nodup)

/-- The elements that have none of the keys of another list. -/
def without (ks l : List α) : List α := l.filter fun x => key x ∉ ks.map key

/-- A list with another one put over it. -/
def override (l new : List α) : List α := without key new l ++ new

/-- The keys of a list. -/
def keys (l : List α) : Finset κ := (l.map key).toFinset

/-- There are the keys of both lists, and as many elements as keys. -/
def Covers (l new r : List α) : Prop :=
  keys key r = keys key l ∪ keys key new ∧ r.length = (keys key l ∪ keys key new).card

variable {key}

theorem mem_keys {l : List α} {k : κ} : k ∈ keys key l ↔ ∃ x ∈ l, key x = k := by
  rw [keys, List.mem_toFinset, List.mem_map]

theorem mem_keys_of_mem {l : List α} {x : α} (h : x ∈ l) : key x ∈ keys key l :=
  mem_keys.mpr ⟨x, h, rfl⟩

theorem keys_append (l l' : List α) : keys key (l ++ l') = keys key l ∪ keys key l' := by
  rw [keys, List.map_append, List.toFinset_append]
  rfl

theorem keys_cons (x : α) (l : List α) : keys key (x :: l) = insert (key x) (keys key l) := by
  rw [keys, List.map_cons, List.toFinset_cons]
  rfl

theorem keys_singleton (x : α) : keys key [x] = {key x} := rfl

theorem NodupKeys.card {l : List α} (h : NodupKeys key l) : (keys key l).card = l.length := by
  rw [keys, List.toFinset_card_of_nodup h, List.length_map]

theorem nodupKeys_append {l l' : List α} :
    NodupKeys key (l ++ l') ↔ NodupKeys key l ∧ NodupKeys key l' ∧
      ∀ k ∈ keys key l, k ∉ keys key l' := by
  rw [NodupKeys, List.map_append, List.nodup_append]
  refine and_congr Iff.rfl (and_congr Iff.rfl ⟨fun h k hk hk' => ?_, fun h k hk k' hk' heq => ?_⟩)
  · exact h k (List.mem_toFinset.mp hk) k (List.mem_toFinset.mp hk') rfl
  · exact h k (List.mem_toFinset.mpr hk) (heq ▸ List.mem_toFinset.mpr hk')

theorem nodupKeys_cons {x : α} {l : List α} :
    NodupKeys key (x :: l) ↔ key x ∉ keys key l ∧ NodupKeys key l := by
  rw [NodupKeys, List.map_cons, List.nodup_cons, keys, List.mem_toFinset]
  rfl

omit [DecidableEq κ] in
/-- An element with a key has one place. -/
theorem NodupKeys.index_eq {l : List α} (h : NodupKeys key l) {i j : Nat} {x y : α}
    (hi : l[i]? = some x) (hj : l[j]? = some y) (hkey : key x = key y) : i = j := by
  have hlt : i < (l.map key).length := by
    rw [List.length_map]
    exact (List.getElem?_eq_some_iff.mp hi).1
  refine (List.getElem?_inj hlt h).mp ?_
  rw [List.getElem?_map, List.getElem?_map, hi, hj, Option.map_some, Option.map_some, hkey]

/-! ### Without keys -/

theorem mem_without {ks l : List α} {x : α} :
    x ∈ without key ks l ↔ x ∈ l ∧ key x ∉ keys key ks := by
  rw [without, List.mem_filter, decide_eq_true_iff, keys, List.mem_toFinset]

theorem without_append_right (ks l l' : List α) :
    without key ks (l ++ l') = without key ks l ++ without key ks l' :=
  List.filter_append _ _

theorem without_append_left (ks ks' l : List α) :
    without key (ks ++ ks') l = without key ks' (without key ks l) := by
  rw [without, without, without, List.filter_filter]
  refine List.filter_congr fun x _ => ?_
  simp only [List.map_append, List.mem_append, not_or, Bool.decide_and, Bool.and_comm]

@[simp] theorem without_nil_left (l : List α) : without key [] l = l :=
  List.filter_eq_self.mpr fun _ _ => by simp

theorem without_cons_of_mem {ks l : List α} {x : α} (h : key x ∈ keys key ks) :
    without key ks (x :: l) = without key ks l :=
  List.filter_cons_of_neg (by simpa [keys] using h)

theorem without_cons_of_not_mem {ks l : List α} {x : α} (h : key x ∉ keys key ks) :
    without key ks (x :: l) = x :: without key ks l :=
  List.filter_cons_of_pos (by simpa [keys] using h)

/-- Keys that are not there change nothing. -/
theorem without_eq_self {ks l : List α} (h : ∀ k ∈ keys key l, k ∉ keys key ks) :
    without key ks l = l := by
  refine List.filter_eq_self.mpr fun x hx => decide_eq_true fun hmem => ?_
  exact h (key x) (mem_keys_of_mem hx) (List.mem_toFinset.mpr hmem)

theorem keys_without (ks l : List α) : keys key (without key ks l) = keys key l \ keys key ks := by
  ext k
  simp only [mem_keys, Finset.mem_sdiff, mem_without]
  constructor
  · rintro ⟨x, ⟨hx, hnot⟩, rfl⟩
    exact ⟨⟨x, hx, rfl⟩, hnot⟩
  · rintro ⟨⟨x, hx, rfl⟩, hnot⟩
    exact ⟨x, ⟨hx, hnot⟩, rfl⟩

theorem NodupKeys.without {l : List α} (h : NodupKeys key l) (ks : List α) :
    NodupKeys key (without key ks l) :=
  h.sublist (List.filter_sublist.map key)

/-! ### Overriding -/

theorem keys_override (l new : List α) :
    keys key (override key l new) = keys key l ∪ keys key new := by
  rw [override, keys_append, keys_without, Finset.sdiff_union_self_eq_union]

theorem NodupKeys.override {l new : List α} (h : NodupKeys key l) (hnew : NodupKeys key new) :
    NodupKeys key (override key l new) := by
  refine nodupKeys_append.mpr ⟨h.without new, hnew, fun k hk => ?_⟩
  rw [keys_without] at hk
  exact (Finset.mem_sdiff.mp hk).2

@[simp] theorem override_nil (l : List α) : override key l [] = l := by
  rw [override, without_nil_left, List.append_nil]

/-- A list that is put over another one has the keys of both. -/
theorem covers_of_perm {l new r : List α} (h : NodupKeys key l) (hnew : NodupKeys key new)
    (hperm : r.Perm (override key l new)) : Covers key l new r := by
  have hkeys : keys key r = keys key (override key l new) := by
    ext k
    rw [mem_keys, mem_keys]
    exact exists_congr fun x => and_congr_left fun _ => hperm.mem_iff
  refine ⟨hkeys.trans (keys_override l new), ?_⟩
  rw [hperm.length_eq, ← (h.override hnew).card, keys_override]

/-- **One more element is put over a list.** -/
theorem override_concat {l new : List α} {x : α} (hx : key x ∉ keys key new) :
    override key l (new ++ [x]) = without key [x] (override key l new) ++ [x] := by
  have hself : without key [x] new = new := by
    refine without_eq_self fun k hk hmem => hx ?_
    rw [keys_singleton, Finset.mem_singleton] at hmem
    exact hmem ▸ hk
  rw [override, override, without_append_left, without_append_right, hself, List.append_assoc]

/-- No list gets shorter by what is put over it. -/
theorem length_le_override {l : List α} (h : NodupKeys key l) {new : List α}
    (hnew : NodupKeys key new) : l.length ≤ (override key l new).length := by
  rw [← h.card, ← (h.override hnew).card, keys_override]
  exact Finset.card_le_card Finset.subset_union_left

/-- What is put over in two parts. -/
theorem covers_override {l new new' r : List α} :
    Covers key (override key l new) new' r ↔ Covers key l (new ++ new') r := by
  rw [Covers, Covers, keys_override, keys_append, Finset.union_assoc]

/-- The first element with a key. -/
theorem exists_first {l : List α} {k : κ} (hk : k ∈ keys key l) :
    ∃ pre x suf, l = pre ++ x :: suf ∧ key x = k ∧ k ∉ keys key pre := by
  induction l with
  | nil => cases hk
  | cons x l ih =>
    by_cases hx : key x = k
    · exact ⟨[], x, l, rfl, hx, by simp [keys]⟩
    · rw [keys_cons, Finset.mem_insert] at hk
      obtain ⟨pre, y, suf, rfl, hy, hpre⟩ := ih (hk.resolve_left (Ne.symm hx))
      refine ⟨x :: pre, y, suf, rfl, hy, ?_⟩
      rw [keys_cons, Finset.mem_insert, not_or]
      exact ⟨Ne.symm hx, hpre⟩

/-- An element with a key, and none in front of it or behind it. -/
theorem exists_split {l : List α} (h : NodupKeys key l) {k : κ} (hk : k ∈ keys key l) :
    ∃ pre x suf, l = pre ++ x :: suf ∧ key x = k ∧ k ∉ keys key pre ∧ k ∉ keys key suf := by
  obtain ⟨pre, x, suf, rfl, rfl, hpre⟩ := exists_first hk
  exact ⟨pre, x, suf, rfl, rfl, hpre, (nodupKeys_cons.mp (nodupKeys_append.mp h).2.1).1⟩

/-- Without the key of an element that is there once. -/
theorem without_split {pre suf : List α} {x y : α} (hkey : key x = key y)
    (hpre : key y ∉ keys key pre) (hsuf : key y ∉ keys key suf) :
    without key [y] (pre ++ x :: suf) = pre ++ suf := by
  have hself : ∀ l : List α, key y ∉ keys key l → without key [y] l = l := by
    intro l hl
    refine without_eq_self fun k hk hmem => hl ?_
    rw [keys_singleton, Finset.mem_singleton] at hmem
    exact hmem ▸ hk
  have hmem : key x ∈ keys key [y] := by
    rw [keys_singleton, hkey]
    exact Finset.mem_singleton_self _
  rw [without_append_right, without_cons_of_mem hmem, hself pre hpre, hself suf hsuf]

end MxLib.Library.KeyedLists
