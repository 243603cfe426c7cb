import Nvshmem.Combine.Basic
import Nvshmem.Radix.Digit

/-! # Exchange along binary digits

With radix 2 every number has one neighbour in each phase, whose digit of that phase is the other
one. If all combine their values with those of their neighbours, after the last digit every number
has the combination of all initial values.
-/

namespace Radix

open Finset
open Combine (combine)

variable {m t u a b : ℕ}

/-- The number with the other binary digit `t`. -/
def flip (t a : ℕ) : ℕ := setDigit 2 t a (1 - digit 2 t a)

theorem digit_two_lt : digit 2 t a < 2 := Nat.mod_lt _ Nat.two_pos

theorem div_two_pow : a / 2 ^ t = digit 2 t a + 2 * (a / 2 ^ (t + 1)) := by
  rw [pow_succ, ← Nat.div_div_eq_div_mul]
  exact (Nat.mod_add_div _ _).symm

theorem flip_div_pow : flip t a / 2 ^ t = 1 - digit 2 t a + 2 * (a / 2 ^ (t + 1)) :=
  setDigit_div_pow (by omega)

theorem flip_div_pow_succ : flip t a / 2 ^ (t + 1) = a / 2 ^ (t + 1) := by
  have := div_two_pow (t := t) (a := flip t a)
  have := flip_div_pow (t := t) (a := a)
  have := digit_two_lt (t := t) (a := flip t a)
  omega

theorem flip_lt (ha : a < 2 ^ m) (ht : t < m) : flip t a < 2 ^ m := setDigit_lt ha ht (by omega)

theorem flip_flip : flip t (flip t a) = a := by
  have hdigit : digit 2 t (flip t a) = 1 - digit 2 t a := digit_setDigit (by omega)
  have hlt := digit_two_lt (t := t) (a := a)
  rw [flip, hdigit, flip, setDigit_setDigit (by omega), show 1 - (1 - digit 2 t a) = digit 2 t a
    by omega, setDigit_digit]

theorem flip_div_ne : flip t a / 2 ^ t ≠ a / 2 ^ t := by
  have ha := div_two_pow (t := t) (a := a)
  have hflip := flip_div_pow (t := t) (a := a)
  omega

theorem div_eq_or_flip (h : b / 2 ^ (t + 1) = a / 2 ^ (t + 1)) :
    b / 2 ^ t = a / 2 ^ t ∨ b / 2 ^ t = flip t a / 2 ^ t := by
  have hb := div_two_pow (t := t) (a := b)
  have ha := div_two_pow (t := t) (a := a)
  have hflip := flip_div_pow (t := t) (a := a)
  have := digit_two_lt (t := t) (a := a)
  have := digit_two_lt (t := t) (a := b)
  omega

theorem flip_ne_flip (h : t < u) : flip t a ≠ flip u a := by
  intro heq
  have hpow : 2 ^ u = 2 ^ (t + 1) * 2 ^ (u - (t + 1)) := by
    rw [← pow_add, Nat.add_sub_cancel' h]
  apply flip_div_ne (t := u) (a := a)
  rw [← heq, hpow, ← Nat.div_div_eq_div_mul, flip_div_pow_succ, Nat.div_div_eq_div_mul]

theorem flip_left_injective (h : flip t a = flip u a) : t = u := by
  rcases Nat.lt_trichotomy t u with hlt | heq | hlt
  · exact absurd h (flip_ne_flip hlt)
  · exact heq
  · exact absurd h.symm (flip_ne_flip hlt)

theorem exchange_flip {α : Type*} {f : α → α → α} {W : ℕ → ℕ → α}
    (assoc : ∀ x y z, f (f x y) z = f x (f y z)) (comm : ∀ x y, f x y = f y x)
    (hW : ∀ t < m, ∀ a < 2 ^ m, W (t + 1) a = f (W t a) (W t (flip t a))) (ha : a < 2 ^ m) :
    W m a = combine f (W 0) (2 ^ m) := by
  let _ : CommSemigroup α := { mul := f, mul_assoc := assoc, mul_comm := comm }
  have hsum := exchange_all (W := fun t a => Additive.ofMul (W t a : WithOne α)) Nat.two_pos
    (m := m) (a := a) (fun t ht a ha => ?_) ha
  · apply WithOne.coe_injective
    rw [show f = (· * ·) from rfl, Combine.coe_combine (Nat.two_pow_pos m)]
    exact Additive.ofMul.injective (hsum.trans (ofMul_prod _ _).symm)
  · -- The digit is 0 or 1, and the number with that digit is the number itself.
    have hstep : ((W (t + 1) a : α) : WithOne α) = W t a * W t (flip t a) := by
      rw [hW t ht a ha]
      rfl
    have hself : setDigit 2 t a (digit 2 t a) = a := setDigit_digit
    rw [sum_range_succ, sum_range_one, ← ofMul_mul, hstep]
    rcases Nat.lt_succ_iff_lt_or_eq.mp (digit_two_lt (t := t) (a := a)) with hd | hd
    · rw [Nat.lt_one_iff.mp hd] at hself
      rw [flip, Nat.lt_one_iff.mp hd, hself]
    · rw [hd] at hself
      rw [flip, hd, hself, mul_comm]

end Radix
