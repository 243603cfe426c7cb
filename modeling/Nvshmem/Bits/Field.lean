import Mathlib

/-! # Fields of a word

A word is assembled by shifting zero-extended values into place and taken apart by
extracting ranges of bits. The lemmas compute a range of an assembled word from the
values whose places it meets.
-/

namespace Bits

open BitVec

variable {n w len lo k b c : ℕ}

/-- A value zero-extended to `n` bits and shifted to bit `k`. -/
def place (n k : ℕ) (x : BitVec w) : BitVec n := x.setWidth n <<< k

/-- The `len` bits of a word that start at bit `lo`. -/
def field (lo len : ℕ) (x : BitVec n) : BitVec len := x.extractLsb' lo len

@[simp] theorem field_or (x y : BitVec n) :
    field lo len (x ||| y) = field lo len x ||| field lo len y :=
  extractLsb'_or

theorem getLsbD_place (x : BitVec w) (i : ℕ) :
    (place n k x).getLsbD i = (decide (i < n) && decide (k ≤ i) && x.getLsbD (i - k)) := by
  rw [place, getLsbD_shiftLeft, getLsbD_setWidth, Bool.eq_iff_iff]
  simp only [Bool.and_eq_true, Bool.not_eq_true', decide_eq_true_iff, decide_eq_false_iff_not,
    not_lt]
  constructor
  · rintro ⟨⟨hn, hk⟩, -, hx⟩
    exact ⟨⟨hn, hk⟩, hx⟩
  · rintro ⟨⟨hn, hk⟩, hx⟩
    exact ⟨⟨hn, hk⟩, by omega, hx⟩

theorem getLsbD_field (x : BitVec n) (i : ℕ) :
    (field lo len x).getLsbD i = (decide (i < len) && x.getLsbD (lo + i)) :=
  getLsbD_extractLsb' ..

@[simp] theorem field_place (x : BitVec w) (hk : k ≤ lo) (hn : lo + len ≤ n) :
    field lo len (place n k x) = field (lo - k) len x := by
  apply eq_of_getLsbD_eq
  intro i hi
  rw [getLsbD_field, getLsbD_field, getLsbD_place, decide_eq_true (by omega : lo + i < n),
    decide_eq_true (by omega : k ≤ lo + i), show lo + i - k = lo - k + i by omega, Bool.true_and,
    Bool.true_and]

@[simp] theorem field_place_below (x : BitVec w) (hk : lo + len ≤ k) :
    field lo len (place n k x) = BitVec.ofNat len 0 := by
  apply eq_of_getLsbD_eq
  intro i hi
  rw [getLsbD_field, getLsbD_place, decide_eq_false (by omega : ¬ k ≤ lo + i), Bool.and_false,
    Bool.false_and, Bool.and_false, getLsbD_zero]

@[simp] theorem field_above (x : BitVec n) (hn : n ≤ lo) : field lo len x = BitVec.ofNat len 0 := by
  apply eq_of_getLsbD_eq
  intro i hi
  rw [getLsbD_field, getLsbD_of_ge _ _ (by omega), Bool.and_false, getLsbD_zero]

@[simp] theorem field_self (x : BitVec n) : field 0 n x = x := by
  apply eq_of_getLsbD_eq
  intro i hi
  rw [getLsbD_field, decide_eq_true hi, Bool.true_and, Nat.zero_add]

theorem field_field (x : BitVec n) (h : b + len ≤ c) :
    field b len (field lo c x) = field (lo + b) len x := by
  apply eq_of_getLsbD_eq
  intro i hi
  rw [getLsbD_field, getLsbD_field, getLsbD_field, decide_eq_true (by omega : b + i < c),
    Bool.true_and, Nat.add_assoc]

theorem place_field_or_place_field (k lo b c : ℕ) (x : BitVec w) :
    place n (k + b) (field (lo + b) c x) ||| place n k (field lo b x) =
      place n k (field lo (b + c) x) := by
  apply eq_of_getLsbD_eq
  intro i hi
  rw [getLsbD_or, getLsbD_place, getLsbD_place, getLsbD_place, getLsbD_field,
    getLsbD_field, getLsbD_field, decide_eq_true hi]
  by_cases hk : k ≤ i
  · by_cases hb : k + b ≤ i
    · have hc : decide (i - (k + b) < c) = decide (i - k < b + c) :=
        decide_eq_decide.mpr (by omega)
      rw [decide_eq_true hk, decide_eq_true hb, decide_eq_false (by omega : ¬ i - k < b), hc,
        show lo + b + (i - (k + b)) = lo + (i - k) by omega]
      simp
    · rw [decide_eq_true hk, decide_eq_false hb, decide_eq_true (by omega : i - k < b),
        decide_eq_true (by omega : i - k < b + c)]
      simp
  · rw [decide_eq_false hk, decide_eq_false (by omega : ¬ k + b ≤ i)]
    simp

theorem and_lowMask (x : BitVec n) :
    x &&& (BitVec.allOnes b).setWidth n = place n 0 (field 0 b x) := by
  apply eq_of_getLsbD_eq
  intro i hi
  rw [getLsbD_and, getLsbD_setWidth, getLsbD_allOnes, getLsbD_place,
    getLsbD_field]
  simp [hi, Bool.and_comm]

theorem and_not_lowMask (x : BitVec n) :
    x &&& ~~~(BitVec.allOnes b).setWidth n = place n b (field b (n - b) x) := by
  apply eq_of_getLsbD_eq
  intro i hi
  rw [getLsbD_and, getLsbD_not, getLsbD_setWidth, getLsbD_allOnes,
    getLsbD_place, getLsbD_field, decide_eq_true hi]
  by_cases hb : b ≤ i
  · rw [decide_eq_true hb, decide_eq_false (by omega : ¬ i < b),
      decide_eq_true (by omega : i - b < n - b), show b + (i - b) = i by omega]
    simp
  · rw [decide_eq_false hb, decide_eq_true (by omega : i < b)]
    simp

theorem ushiftRight_eq (x : BitVec n) : x >>> k = place n 0 (field k (n - k) x) := by
  apply eq_of_getLsbD_eq
  intro i hi
  rw [getLsbD_ushiftRight, getLsbD_place, getLsbD_field, decide_eq_true hi, Nat.sub_zero]
  by_cases hk : i < n - k
  · simp [hk]
  · rw [getLsbD_of_ge _ _ (by omega), decide_eq_false hk]
    simp

@[simp] theorem place_shiftLeft (x : BitVec w) : place n k x <<< b = place n (k + b) x := by
  rw [place, place, shiftLeft_add]

theorem place_field_of_le (x : BitVec w) (h : w ≤ b) : place n k (field 0 b x) = place n k x := by
  apply eq_of_getLsbD_eq
  intro i hi
  rw [getLsbD_place, getLsbD_place, getLsbD_field, Nat.zero_add]
  by_cases hb : i - k < b
  · rw [decide_eq_true hb, Bool.true_and]
  · rw [getLsbD_of_ge x (i - k) (by omega), Bool.and_false]

@[simp] theorem place_self (x : BitVec n) : place n 0 x = x := by
  rw [place, setWidth_eq, shiftLeft_zero]

end Bits
