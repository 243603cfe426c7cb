import Mathlib

/-! # Updates of lists

A list that is extended at its end, or in which one element is replaced, keeps what holds
of all its elements if the new element has it too.
-/

namespace Lists

open List Option

variable {α β : Type*} {xs : List α} {x x' : α} {i : ℕ}

theorem map_set_eq (f : α → β) (hi : xs[i]? = some x) (hf : f x' = f x) :
    (xs.set i x').map f = xs.map f := by
  apply ext_getElem?
  intro j
  rw [getElem?_map, getElem?_set, getElem?_map]
  split_ifs with hij hlt
  · rw [← hij, hi, map_some, map_some, hf]
  · exact absurd (List.getElem?_eq_some_iff.mp hi).1 hlt
  · rfl

theorem forall_getElem?_set_of_ne {P : ℕ → α → Prop}
    (h : ∀ j y, j ≠ i → xs[j]? = some y → P j y) (hx : P i x) :
    ∀ j y, (xs.set i x)[j]? = some y → P j y := by
  intro j y hj
  rw [getElem?_set] at hj
  split_ifs at hj with hij hlt
  · exact hij ▸ some.inj hj ▸ hx
  · exact h j y (Ne.symm hij) hj

theorem forall_getElem?_set {P : ℕ → α → Prop} (h : ∀ j y, xs[j]? = some y → P j y) (hx : P i x) :
    ∀ j y, (xs.set i x)[j]? = some y → P j y :=
  forall_getElem?_set_of_ne (fun j y _ => h j y) hx

theorem forall_getElem?_concat {P : ℕ → α → Prop} (h : ∀ j y, xs[j]? = some y → P j y)
    (hx : P xs.length x) : ∀ j y, (xs ++ [x])[j]? = some y → P j y := by
  intro j y hj
  rcases Nat.lt_trichotomy j xs.length with hlt | rfl | hgt
  · rw [getElem?_append_left hlt] at hj
    exact h j y hj
  · rw [getElem?_concat_length] at hj
    exact some.inj hj ▸ hx
  · rw [getElem?_eq_none (by rw [length_append, length_singleton]; omega)] at hj
    exact nomatch hj

theorem forall_mem_set {P : α → Prop} (h : ∀ y ∈ xs, P y) (hx : P x) : ∀ y ∈ xs.set i x, P y := by
  intro y hy
  rcases mem_or_eq_of_mem_set hy with hy | rfl
  · exact h y hy
  · exact hx

theorem forall_mem_concat {P : α → Prop} (h : ∀ y ∈ xs, P y) (hx : P x) :
    ∀ y ∈ xs ++ [x], P y :=
  forall_mem_append.mpr ⟨h, forall_mem_singleton.mpr hx⟩

theorem mem_set_iff_of_ne (f : α → β) {y : α} (hi : xs[i]? = some x) (hf : f x' = f x)
    (hy : f y ≠ f x) : y ∈ xs.set i x' ↔ y ∈ xs := by
  constructor
  · intro hmem
    rcases mem_or_eq_of_mem_set hmem with hmem | rfl
    · exact hmem
    · exact absurd hf hy
  · intro hmem
    obtain ⟨j, hj⟩ := mem_iff_getElem?.mp hmem
    have hij : i ≠ j := by
      rintro rfl
      exact hy (congrArg f (some.inj (hj.symm.trans hi)))
    exact mem_of_getElem? ((getElem?_set_ne hij).trans hj)

theorem getElem?_of_isPrefix {ys : List α} (h : xs <+: ys) (hi : xs[i]? = some x) :
    ys[i]? = some x := by
  obtain ⟨zs, rfl⟩ := h
  rw [getElem?_append_left (List.getElem?_eq_some_iff.mp hi).1, hi]

theorem getElem?_concat_of_some {y : α} (h : xs[i]? = some y) : (xs ++ [x])[i]? = some y := by
  rw [getElem?_append_left (List.getElem?_eq_some_iff.mp h).1, h]

theorem sublist_pair {j : ℕ} (hi : xs[i]? = some x) (hj : xs[j]? = some x') (hij : i < j) :
    [x, x'].Sublist xs := by
  have hx : x ∈ xs.take j := mem_of_getElem? ((getElem?_take_of_lt hij).trans hi)
  have hx' : x' ∈ xs.drop j := by
    apply mem_of_getElem? (i := 0)
    rw [getElem?_drop, Nat.add_zero, hj]
  have happend := (singleton_sublist.mpr hx).append (singleton_sublist.mpr hx')
  rwa [take_append_drop] at happend

theorem filterMap_getElem?_range (xs : List α) :
    (List.range xs.length).filterMap (fun k => xs[k]?) = xs := by
  induction xs with
  | nil => rfl
  | cons x xs ih =>
    rw [length_cons, range_succ_eq_map, filterMap_cons, filterMap_map]
    simpa using ih

theorem eq_cons_erase_of_find? [DecidableEq α] {p : α → Bool} (h : xs.find? p = some x)
    (hall : ∀ y ∈ xs, p y = true) : xs = x :: xs.erase x := by
  cases xs with
  | nil => exact absurd h.symm (some_ne_none x)
  | cons y xs =>
    rw [find?_cons_of_pos (hall y mem_cons_self)] at h
    cases h
    rw [erase_cons_head]

theorem le_of_find? {xs : List ℕ} {p : ℕ → Bool} {x y : ℕ} (hsorted : xs.Pairwise (· < ·))
    (h : xs.find? p = some x) (hy : y ∈ xs) (hp : p y = true) : x ≤ y := by
  obtain ⟨-, as, bs, rfl, has⟩ := find?_eq_some_iff_append.mp h
  rcases mem_append.mp hy with hy | hy
  · have hnot := has y hy
    rw [hp] at hnot
    exact absurd hnot Bool.false_ne_true
  · rcases mem_cons.mp hy with rfl | hy
    · exact le_rfl
    · exact (rel_of_pairwise_cons (pairwise_append.mp hsorted).2.1 hy).le

theorem mem_takeWhile_lt {xs : List ℕ} {n x : ℕ} (hsorted : xs.Pairwise (· ≤ ·)) :
    x ∈ xs.takeWhile (· < n) ↔ x ∈ xs ∧ x < n := by
  constructor
  · intro h
    have hp := mem_takeWhile_imp h
    exact ⟨takeWhile_subset _ h, of_decide_eq_true hp⟩
  · rintro ⟨hx, hlt⟩
    induction xs with
    | nil => exact hx
    | cons y xs ih =>
      have hy : y < n := by
        rcases mem_cons.mp hx with rfl | hx
        · exact hlt
        · exact (rel_of_pairwise_cons hsorted hx).trans_lt hlt
      rw [takeWhile_cons, if_pos (decide_eq_true hy)]
      rcases mem_cons.mp hx with rfl | hx
      · exact mem_cons_self
      · exact mem_cons_of_mem _ (ih (List.Pairwise.of_cons hsorted) hx)

theorem eq_of_pairwise_lt {xs ys : List ℕ} (hx : xs.Pairwise (· < ·)) (hy : ys.Pairwise (· < ·))
    (h : ∀ a, a ∈ xs ↔ a ∈ ys) : xs = ys := by
  refine List.Perm.eq_of_pairwise (fun a b _ _ hab hba => absurd hab (Nat.lt_asymm hba)) hx hy ?_
  exact (perm_ext_iff_of_nodup (hx.imp ne_of_lt) (hy.imp ne_of_lt)).mpr h

end Lists
