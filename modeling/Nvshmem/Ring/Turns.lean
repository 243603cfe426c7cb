import Mathlib

/-! # Turns at the slots of a ring

Users are numbered. The residue of a number is the slot that the user takes, and the quotient is the
lap on which it does so. A slot counts the turns that have ended.
-/

namespace Ring

open Function

inductive Turn where
  | pending | active | ended
deriving DecidableEq

structure Turns (size : ℕ) (turn : ℕ → Turn) (laps : ℕ → ℕ) : Prop where
  pending : ∀ k, turn k = .pending → laps (k % size) ≤ k / size
  active : ∀ k, turn k = .active → laps (k % size) = k / size
  ended : ∀ k, turn k = .ended → k / size < laps (k % size)

theorem eq_of_mod_eq_of_div_eq {size k k' : ℕ} (hmod : k % size = k' % size)
    (hdiv : k / size = k' / size) : k = k' := by
  rw [← Nat.div_add_mod k size, hmod, hdiv, Nat.div_add_mod]

namespace Turns

variable {size k k' : ℕ} {turn : ℕ → Turn} {laps : ℕ → ℕ}

theorem init : Turns size (fun _ => .pending) fun _ => 0 where
  pending _ _ := Nat.zero_le _
  active _ h := by cases h
  ended _ h := by cases h

variable (h : Turns size turn laps)
include h

theorem eq_of_active (hk : turn k = .active) (hk' : turn k' = .active)
    (hmod : k % size = k' % size) : k = k' := by
  apply eq_of_mod_eq_of_div_eq hmod
  rw [← h.active k hk, ← h.active k' hk', hmod]

theorem ended_of_lt (hk : turn k ≠ .pending) (hlt : k' < k) (hmod : k' % size = k % size) :
    turn k' = .ended := by
  have hle : k / size ≤ laps (k % size) := by
    cases hturn : turn k with
    | pending => exact absurd hturn hk
    | active => exact (h.active k hturn).ge
    | ended => exact (h.ended k hturn).le
  have hdiv : k' / size < k / size := by
    apply lt_of_le_of_ne (Nat.div_le_div_right hlt.le)
    intro hdiv
    exact hlt.ne (eq_of_mod_eq_of_div_eq hmod hdiv)
  cases hturn : turn k' with
  | pending =>
    have := h.pending k' hturn
    rw [hmod] at this
    omega
  | active =>
    have := h.active k' hturn
    rw [hmod] at this
    omega
  | ended => rfl

theorem start (hk : turn k = .pending) (hle : k / size ≤ laps (k % size)) :
    Turns size (update turn k .active) laps where
  pending k' hk' := by
    rw [update_apply] at hk'
    split_ifs at hk'
    exact h.pending k' hk'
  active k' hk' := by
    rw [update_apply] at hk'
    split_ifs at hk' with heq
    · rw [heq]
      exact le_antisymm (h.pending k hk) hle
    · exact h.active k' hk'
  ended k' hk' := by
    rw [update_apply] at hk'
    split_ifs at hk'
    exact h.ended k' hk'

theorem finish (hk : turn k = .active) : Turns size (update turn k .ended)
    (update laps (k % size) (laps (k % size) + 1)) where
  pending k' hk' := by
    rw [update_apply] at hk' ⊢
    split_ifs at hk' with heq
    split_ifs with hmod
    · have hle := h.pending k' hk'
      have hlaps := h.active k hk
      have hne : k' / size ≠ k / size := fun hdiv => heq (eq_of_mod_eq_of_div_eq hmod hdiv)
      rw [hmod] at hle
      omega
    · exact h.pending k' hk'
  active k' hk' := by
    rw [update_apply] at hk' ⊢
    split_ifs at hk' with heq
    rw [if_neg fun hmod => heq (h.eq_of_active hk' hk hmod)]
    exact h.active k' hk'
  ended k' hk' := by
    rw [update_apply] at hk' ⊢
    split_ifs at hk' with heq
    · rw [heq, if_pos rfl]
      exact Nat.lt_succ_of_le (h.active k hk).ge
    · split_ifs with hmod
      · have hlt := h.ended k' hk'
        rw [hmod] at hlt
        exact Nat.lt_succ_of_lt hlt
      · exact h.ended k' hk'

end Turns

end Ring
