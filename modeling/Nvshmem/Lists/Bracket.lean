import Mathlib

/-! # Bracketing an element of a list

A search in a sorted list keeps two indices such that all elements before the first are too small
and all elements after the second are too large.
-/

namespace Lists

variable {α : Type*} {xs : List α} {below above : α → Prop} {lo hi mid : ℕ}

structure Bracket (xs : List α) (below above : α → Prop) (lo hi : ℕ) : Prop where
  before : ∀ i x, xs[i]? = some x → i < lo → below x
  after : ∀ i x, xs[i]? = some x → hi < i → above x

namespace Bracket

theorem init : Bracket xs below above 0 xs.length where
  before _ _ _ hlt := absurd hlt (Nat.not_lt_zero _)
  after _ _ hi hlt := absurd (List.getElem?_eq_some_iff.mp hi).1 hlt.not_gt

theorem right (h : Bracket xs below above lo hi)
    (hbelow : ∀ i x, xs[i]? = some x → i ≤ mid → below x) :
    Bracket xs below above (mid + 1) hi where
  before i x hx hlt := hbelow i x hx (Nat.le_of_lt_succ hlt)
  after := h.after

theorem left (h : Bracket xs below above lo hi)
    (habove : ∀ i x, xs[i]? = some x → mid ≤ i → above x) :
    Bracket xs below above lo (mid - 1) where
  before := h.before
  after i x hx hlt := habove i x hx (Nat.le_of_pred_lt hlt)

theorem of_lt (h : Bracket xs below above lo hi) (hlt : hi < lo) {x : α} (hx : x ∈ xs) :
    below x ∨ above x := by
  obtain ⟨i, hi'⟩ := List.getElem?_of_mem hx
  rcases Nat.lt_or_ge i lo with hbefore | hafter
  · exact .inl (h.before i x hi' hbefore)
  · exact .inr (h.after i x hi' (hlt.trans_le hafter))

end Bracket

end Lists
