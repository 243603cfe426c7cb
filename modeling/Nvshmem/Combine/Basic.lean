import Mathlib

/-! # Combination of the values of several parties

The values of parties `0` to `n - 1`, combined by an operation from left to right. For a commutative
semigroup the combination is a product once a neutral element is added.
-/

namespace Combine

variable {α β : Type*}

/-- The combination of one value of each of `n` parties. -/
def combine (f : α → α → α) (x : ℕ → α) (n : ℕ) : α :=
  (List.range (n - 1)).foldl (fun acc i => f acc (x (i + 1))) (x 0)

variable {f : α → α → α} {x : ℕ → α} {n : ℕ}

@[simp] theorem combine_one : combine f x 1 = x 0 := rfl

theorem combine_succ (hn : 0 < n) : combine f x (n + 1) = f (combine f x n) (x n) := by
  obtain ⟨m, rfl⟩ : ∃ m, n = m + 1 := ⟨n - 1, by omega⟩
  simp [combine, List.range_succ]

theorem combine_congr {y : ℕ → α} (hn : 0 < n) (h : ∀ i < n, x i = y i) :
    combine f x n = combine f y n := by
  induction n with
  | zero => omega
  | succ n ih =>
    obtain rfl | hpos := Nat.eq_zero_or_pos n
    · exact h 0 Nat.one_pos
    · rw [combine_succ hpos, combine_succ hpos, ih hpos fun i hi => h i (by omega),
        h n (Nat.lt_succ_self n)]

theorem map_combine {g : β → β → β} {φ : α → β} (h : ∀ a b, φ (f a b) = g (φ a) (φ b)) :
    φ (combine f x n) = combine g (fun i => φ (x i)) n := by
  have hfold : ∀ (l : List ℕ) (a : α), φ (l.foldl (fun acc i => f acc (x (i + 1))) a) =
      l.foldl (fun acc i => g acc (φ (x (i + 1)))) (φ a) := by
    intro l
    induction l with
    | nil => exact fun _ => rfl
    | cons i l ih => exact fun a => (ih _).trans (by rw [h, List.foldl_cons])
  exact hfold _ _

/-- If the first two values give `y` and the others keep it, it is the combination. -/
theorem combine_two {y : α} (hn : 2 ≤ n) (h : f (x 0) (x 1) = y)
    (hrest : ∀ i, 2 ≤ i → f y (x i) = y) : combine f x n = y := by
  induction n, hn using Nat.le_induction with
  | base => exact h
  | succ n hn ih => rw [combine_succ (by omega), ih, hrest n hn]

theorem combine_eq_prod {M : Type*} [CommMonoid M] {x : ℕ → M} (hn : 0 < n) :
    combine (· * ·) x n = ∏ i ∈ Finset.range n, x i := by
  induction n with
  | zero => omega
  | succ n ih =>
    obtain rfl | hpos := Nat.eq_zero_or_pos n
    · simp
    · rw [combine_succ hpos, ih hpos, Finset.prod_range_succ]

theorem coe_combine {M : Type*} [CommSemigroup M] {x : ℕ → M} (hn : 0 < n) :
    ((combine (· * ·) x n : M) : WithOne M) = ∏ i ∈ Finset.range n, (x i : WithOne M) := by
  rw [← combine_eq_prod hn]
  exact map_combine fun _ _ => WithOne.coe_mul _ _

theorem prod_range_mul {M : Type*} [CommMonoid M] (g : ℕ → M) (q r : ℕ) :
    ∏ i ∈ Finset.range (q * r), g i =
      ∏ a ∈ Finset.range q, ∏ b ∈ Finset.range r, g (a * r + b) := by
  induction q with
  | zero => simp
  | succ q ih => rw [Nat.succ_mul, Finset.prod_range_add, ih, Finset.prod_range_succ]

theorem combine_combine {M : Type*} [CommSemigroup M] (g : ℕ → M) {q r : ℕ} (hq : 0 < q)
    (hr : 0 < r) :
    combine (· * ·) (fun a => combine (· * ·) (fun b => g (a * r + b)) r) q =
      combine (· * ·) g (q * r) := by
  apply WithOne.coe_injective
  rw [coe_combine hq, coe_combine (Nat.mul_pos hq hr), prod_range_mul]
  exact Finset.prod_congr rfl fun a _ => coe_combine hr

end Combine
