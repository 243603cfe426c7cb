import Mathlib

/-! # Conversion to a signed 32-bit type

Values that do not fit wrap around.
-/

namespace Wrap

/-- A conversion or an operation to the 32-bit type `int`. -/
def toInt (x : ℤ) : ℤ := Int.bmod x (2 ^ 32)

variable {x : ℤ} {n : ℕ}

theorem toInt_natCast (h : n < 2 ^ 31) : toInt n = n := by
  simp only [toInt, Int.bmod]
  split <;> omega

theorem toInt_lt : toInt x < 2 ^ 31 := by
  simp only [toInt, Int.bmod]
  split <;> omega

theorem toInt_le (h : 0 ≤ x) : toInt x ≤ x := by
  simp only [toInt, Int.bmod]
  split <;> omega

theorem toInt_natCast_le_sub (h : 2 ^ 31 ≤ n) : toInt n ≤ n - 2 ^ 32 := by
  simp only [toInt, Int.bmod]
  split <;> omega

end Wrap
