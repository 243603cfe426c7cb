import Mathlib

/-! # Splitting a range into blocks

A range is split into consecutive blocks of nearly equal size: when the number of blocks
does not divide the length of the range, the first blocks take one more.
-/

namespace Split

variable {n k g h x : ℕ}

def blockSize (n k g : ℕ) : ℕ := n / k + if g < n % k then 1 else 0

def blockStart (n k g : ℕ) : ℕ := blockSize n k g * g + if n % k ≤ g then n % k else 0

theorem blockStart_eq : blockStart n k g = n / k * g + min g (n % k) := by
  unfold blockStart blockSize
  rcases Nat.lt_or_ge g (n % k) with h | h
  · rw [if_pos h, if_neg (not_le.mpr h), min_eq_left h.le, add_mul, one_mul, add_zero]
  · rw [if_neg (not_lt.mpr h), if_pos h, min_eq_right h, add_zero]

theorem blockStart_succ : blockStart n k (g + 1) = blockStart n k g + blockSize n k g := by
  rw [blockStart_eq, blockStart_eq, blockSize, mul_add, mul_one]
  split <;> omega

theorem blockStart_mono : Monotone (blockStart n k) :=
  monotone_nat_of_le_succ fun g => by
    rw [blockStart_succ]
    exact Nat.le_add_right _ _

theorem blockStart_self (hk : 0 < k) : blockStart n k k = n := by
  rw [blockStart_eq, min_eq_right (Nat.mod_lt n hk).le, mul_comm]
  exact Nat.div_add_mod n k

theorem block_le (hk : 0 < k) (hg : g < k) : blockStart n k g + blockSize n k g ≤ n := by
  rw [← blockStart_succ]
  exact (blockStart_mono hg).trans_eq (blockStart_self hk)

theorem le_blockStart (hk : 0 < k) (hg : k ≤ g) : n ≤ blockStart n k g :=
  (blockStart_self hk).symm.trans_le (blockStart_mono hg)

theorem exists_block (hk : 0 < k) (hx : x < n) :
    ∃ g < k, blockStart n k g ≤ x ∧ x < blockStart n k g + blockSize n k g := by
  have hex : ∃ g, x < blockStart n k (g + 1) :=
    ⟨k, hx.trans_le (le_blockStart hk (Nat.le_succ k))⟩
  refine ⟨Nat.find hex, ?_, ?_, ?_⟩
  · refine (Nat.find_lt_iff hex k).mpr ⟨k - 1, by omega, ?_⟩
    rwa [Nat.sub_add_cancel hk, blockStart_self hk]
  · cases hf : Nat.find hex with
    | zero =>
      rw [blockStart_eq]
      exact Nat.zero_le x
    | succ g => exact not_lt.mp (Nat.find_min hex (by omega : g < Nat.find hex))
  · rw [← blockStart_succ]
    exact Nat.find_spec hex

theorem block_unique (hg : blockStart n k g ≤ x) (hg' : x < blockStart n k g + blockSize n k g)
    (hh : blockStart n k h ≤ x) (hh' : x < blockStart n k h + blockSize n k h) : g = h := by
  rw [← blockStart_succ] at hg' hh'
  refine le_antisymm ?_ ?_
  · by_contra hlt
    exact absurd ((blockStart_mono (not_le.mp hlt)).trans hg) (not_le.mpr hh')
  · by_contra hlt
    exact absurd ((blockStart_mono (not_le.mp hlt)).trans hh) (not_le.mpr hg')

end Split
