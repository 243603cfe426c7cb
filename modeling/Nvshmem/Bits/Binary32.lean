import Mathlib

/-! # Binary32 addition

Single-precision numbers as bit patterns. Every finite number is a whole multiple of the smallest
subnormal one, so that a sum is computed exactly and then rounded to nearest, ties to even.
-/

namespace Binary32

abbrev Bits := BitVec 32

def fraction (x : Bits) : ℕ := x.toNat % 2 ^ 23

def exponent (x : Bits) : ℕ := x.toNat / 2 ^ 23 % 2 ^ 8

def isNegative (x : Bits) : Bool := x.msb

def isNaN (x : Bits) : Bool := exponent x = 255 && fraction x ≠ 0

def isInfinite (x : Bits) : Bool := exponent x = 255 && fraction x = 0

/-- The absolute value of a finite number, in units of `2 ^ (-149)`. -/
def magnitude (x : Bits) : ℕ :=
  if exponent x = 0 then fraction x else (2 ^ 23 + fraction x) * 2 ^ (exponent x - 1)

def toInt (x : Bits) : ℤ := if isNegative x then -(magnitude x : ℤ) else magnitude x

/-- The number without its sign that is nearest to so many units. A carry out of the fraction goes
into the exponent. -/
def round (n : ℕ) : ℕ :=
  let shift := Nat.log2 n - 23
  let quotient := n / 2 ^ shift
  let twice := 2 * (n % 2 ^ shift)
  let up := if 2 ^ shift < twice ∨ twice = 2 ^ shift ∧ quotient % 2 = 1 then 1 else 0
  min (shift * 2 ^ 23 + quotient + up) 0x7f800000

def withSign (negative : Bool) (n : ℕ) : Bits :=
  BitVec.ofNat 32 (n + if negative then 2 ^ 31 else 0)

def add (x y : Bits) : Bits :=
  if isNaN x || isNaN y then 0x7fffffff
  else if isInfinite x then
    if isInfinite y && isNegative x != isNegative y then 0x7fffffff else x
  else if isInfinite y then y
  else if toInt x + toInt y = 0 then withSign (isNegative x && isNegative y) 0
  else withSign (toInt x + toInt y < 0) (round (toInt x + toInt y).natAbs)

theorem one_add_one : add 0x3f800000 0x3f800000 = 0x40000000 := by decide +kernel

theorem two_add_zero : add 0x40000000 0 = 0x40000000 := by decide +kernel

example : add 0x3f800000 0x33800000 = 0x3f800000 := by decide +kernel

end Binary32
