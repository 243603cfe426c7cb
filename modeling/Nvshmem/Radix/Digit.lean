import Mathlib

/-! # Digits in a radix and exchange along digits

Replacing one digit of a number connects it with the numbers that differ from it
in that digit only. When in each phase every number collects the values of all
numbers that differ from it in one digit, after the last digit every number has
collected the initial value of each number once.
-/

namespace Radix

open Finset Nat

variable {k m t a b i j : ℕ}

/-- Digit `t` of a number. -/
def digit (k t a : ℕ) : ℕ := a / k ^ t % k

/-- Replace digit `t` of a number. -/
def setDigit (k : ℕ) : ℕ → ℕ → ℕ → ℕ
  | 0, a, i => i + k * (a / k)
  | t + 1, a, i => a % k + k * setDigit k t (a / k) i

/-- The lowest `m` digits of a number. -/
def digits (k : ℕ) : ℕ → ℕ → List ℕ
  | 0, _ => []
  | m + 1, a => a % k :: digits k m (a / k)

theorem digit_succ : digit k (t + 1) a = digit k t (a / k) := by
  rw [digit, digit, Nat.div_div_eq_div_mul, pow_succ']

@[simp] theorem digits_zero_right : digits k m 0 = List.replicate m 0 := by
  induction m with
  | zero => rfl
  | succ m ih => rw [digits, Nat.zero_div, ih, zero_mod, List.replicate_succ]

theorem getElem?_digits (ht : t < m) : (digits k m a)[t]? = some (digit k t a) := by
  induction m generalizing t a with
  | zero => omega
  | succ m ih =>
    cases t with
    | zero => simp [digits, digit]
    | succ t => rw [digits, List.getElem?_cons_succ, ih (by omega), digit_succ]

theorem ofDigits_digits (ha : a < k ^ m) : Nat.ofDigits k (digits k m a) = a := by
  induction m generalizing a with
  | zero =>
    rw [pow_zero, lt_one_iff] at ha
    rw [ha, digits, ofDigits_nil]
  | succ m ih =>
    have hdiv : a / k < k ^ m := Nat.div_lt_of_lt_mul (by rwa [← pow_succ'])
    rw [digits, ofDigits_cons, ih hdiv]
    exact mod_add_div a k

theorem ofDigits_set_digits (ha : a < k ^ m) (ht : t < m) :
    Nat.ofDigits k ((digits k m a).set t i) = setDigit k t a i := by
  induction m generalizing t a with
  | zero => omega
  | succ m ih =>
    have hdiv : a / k < k ^ m := Nat.div_lt_of_lt_mul (by rwa [← pow_succ'])
    cases t with
    | zero =>
      rw [digits, List.set_cons_zero, ofDigits_cons, ofDigits_digits hdiv, setDigit]
    | succ t =>
      rw [digits, List.set_cons_succ, ofDigits_cons, ih hdiv (by omega), setDigit]

theorem add_mul_div_of_lt (hk : 0 < k) (hi : i < k) : (i + k * a) / k = a := by
  rw [add_mul_div_left _ _ hk, div_eq_of_lt hi, zero_add]

theorem setDigit_div_pow (hi : i < k) : setDigit k t a i / k ^ t = i + k * (a / k ^ (t + 1)) := by
  have hk : 0 < k := by omega
  induction t generalizing a with
  | zero => simp [setDigit]
  | succ t ih =>
    rw [setDigit, pow_succ', ← Nat.div_div_eq_div_mul, add_mul_div_of_lt hk (mod_lt _ hk), ih,
      Nat.div_div_eq_div_mul, ← pow_succ']

theorem setDigit_lt (ha : a < k ^ m) (ht : t < m) (hi : i < k) : setDigit k t a i < k ^ m := by
  have hk : 0 < k := by omega
  induction m generalizing t a with
  | zero => omega
  | succ m ih =>
    have hdiv : a / k < k ^ m := Nat.div_lt_of_lt_mul (by rwa [← pow_succ'])
    have hle : ∀ {x y}, x < k → y < k ^ m → x + k * y < k ^ (m + 1) := by
      intro x y hx hy
      calc x + k * y < k + k * y := by omega
        _ = k * (y + 1) := by ring
        _ ≤ k * k ^ m := Nat.mul_le_mul_left k hy
        _ = k ^ (m + 1) := (pow_succ' k m).symm
    cases t with
    | zero => exact hle hi hdiv
    | succ t => exact hle (mod_lt _ hk) (ih hdiv (by omega))

theorem digit_setDigit (hi : i < k) : digit k t (setDigit k t a i) = i := by
  rw [digit, setDigit_div_pow hi, add_mul_mod_self_left, mod_eq_of_lt hi]

theorem setDigit_setDigit (hi : i < k) : setDigit k t (setDigit k t a i) j = setDigit k t a j := by
  have hk : 0 < k := by omega
  induction t generalizing a with
  | zero => rw [setDigit, setDigit, setDigit, add_mul_div_of_lt hk hi]
  | succ t ih =>
    rw [setDigit, setDigit, setDigit, add_mul_div_of_lt hk (mod_lt _ hk), ih,
      add_mul_mod_self_left, mod_mod]

theorem setDigit_digit : setDigit k t a (digit k t a) = a := by
  induction t generalizing a with
  | zero =>
    rw [digit, pow_zero, Nat.div_one]
    exact mod_add_div a k
  | succ t ih =>
    rw [setDigit, digit_succ, ih]
    exact mod_add_div a k

section Exchange

variable {A : Type*} [AddCommMonoid A] {W : ℕ → ℕ → A}

/-- After `t` phases every number holds the values of the numbers that agree with it from
digit `t` on. -/
theorem exchange_upto (hk : 0 < k)
    (hW : ∀ t < m, ∀ a < k ^ m, W (t + 1) a = ∑ i ∈ range k, W t (setDigit k t a i))
    (ht : t ≤ m) (ha : a < k ^ m) :
    W t a = ∑ b ∈ range (k ^ m) with b / k ^ t = a / k ^ t, W 0 b := by
  induction t generalizing a with
  | zero =>
    have : (range (k ^ m)).filter (fun b => b / k ^ 0 = a / k ^ 0) = {a} := by
      ext b
      simp only [mem_filter, mem_range, pow_zero, Nat.div_one, mem_singleton]
      exact ⟨And.right, fun h => ⟨h ▸ ha, h⟩⟩
    rw [this, sum_singleton]
  | succ t ih =>
    have hmaps : ∀ b ∈ (range (k ^ m)).filter (fun b => b / k ^ (t + 1) = a / k ^ (t + 1)),
        digit k t b ∈ range k := fun b _ => mem_range.mpr (mod_lt _ hk)
    rw [hW t (by omega) a ha, ← sum_fiberwise_of_maps_to hmaps]
    refine sum_congr rfl fun i hi => ?_
    have hi := mem_range.mp hi
    rw [ih (by omega) (setDigit_lt ha (by omega) hi), filter_filter]
    refine sum_congr (filter_congr fun b _ => ?_) fun _ _ => rfl
    rw [setDigit_div_pow hi, pow_succ, ← Nat.div_div_eq_div_mul, ← Nat.div_div_eq_div_mul, digit]
    constructor
    · intro h
      rw [h, add_mul_div_of_lt hk hi, add_mul_mod_self_left, mod_eq_of_lt hi]
      exact ⟨rfl, rfl⟩
    · rintro ⟨h₁, h₂⟩
      rw [← h₁, ← h₂]
      exact (mod_add_div _ _).symm

theorem exchange_all (hk : 0 < k)
    (hW : ∀ t < m, ∀ a < k ^ m, W (t + 1) a = ∑ i ∈ range k, W t (setDigit k t a i))
    (ha : a < k ^ m) : W m a = ∑ b ∈ range (k ^ m), W 0 b := by
  rw [exchange_upto hk hW le_rfl ha, filter_true_of_mem]
  intro b hb
  rw [div_eq_of_lt ha, div_eq_of_lt (mem_range.mp hb)]

end Exchange

end Radix
