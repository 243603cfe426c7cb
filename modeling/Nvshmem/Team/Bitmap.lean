import Mathlib

/-! # Availability bitmaps

Each PE keeps one bit for every team index in an array of bytes. Setting and
clearing a bit changes that bit only, the reduction intersects bitmaps, and the
scan returns the least bit that is set.
-/

namespace Nvshmem

open Function BitVec

abbrev Bytes := ℕ → BitVec 8

def bitSet (ptr : Bytes) (index : ℕ) : Bytes :=
  Function.update ptr (index / 8) (ptr (index / 8) ||| (1#8 <<< (index % 8)))

def bitClear (ptr : Bytes) (index : ℕ) : Bytes :=
  Function.update ptr (index / 8) (ptr (index / 8) &&& ~~~(1#8 <<< (index % 8)))

def bitFetch (ptr : Bytes) (index : ℕ) : Bool :=
  (ptr (index / 8) >>> (index % 8)) &&& 1#8 ≠ 0#8

/-- The inner loop of `nvshmemi_bit_1st_nonzero` over the bits of one byte. -/
def scanByte : ℕ → ℕ → BitVec 8 → Option ℕ
  | 0, _, _ => none
  | fuel + 1, j, bitVal =>
    if bitVal = 0#8 then none
    else if bitVal &&& 1#8 ≠ 0#8 then some j
    else scanByte fuel (j + 1) (bitVal >>> 1)

/-- The outer loop of `nvshmemi_bit_1st_nonzero` over the bytes. -/
def scanBytes (ptr : Bytes) : ℕ → ℕ → Option ℕ
  | 0, _ => none
  | fuel + 1, i =>
    match scanByte 8 0 (ptr i) with
    | some j => some (i * 8 + j)
    | none => scanBytes ptr fuel (i + 1)

def bit1stNonzero (ptr : Bytes) (size : ℕ) : Option ℕ := scanBytes ptr size 0

def reduceAnd (arrays : List Bytes) : Bytes :=
  fun b => arrays.foldr (fun ptr acc => ptr b &&& acc) (BitVec.allOnes 8)

section Bits

variable {ptr : Bytes} {i j size fuel : ℕ} {v : BitVec 8}

theorem and_one_ne_zero : v &&& 1#8 ≠ 0#8 ↔ v.getLsbD 0 = true := by
  rw [and_one_eq_setWidth_ofBool_getLsbD]
  cases v.getLsbD 0 <;> decide

theorem bitFetch_eq : bitFetch ptr i = (ptr (i / 8)).getLsbD (i % 8) := by
  rw [bitFetch, Bool.eq_iff_iff, decide_eq_true_iff, and_one_ne_zero, getLsbD_ushiftRight,
    Nat.add_zero]

theorem one_shiftLeft_getLsbD (hi : i < 8) :
    (1#8 <<< i).getLsbD j = decide (j = i) := by
  rw [getLsbD_shiftLeft, getLsbD_one, Bool.eq_iff_iff]
  simp only [Bool.and_eq_true, Bool.not_eq_true', decide_eq_true_iff, decide_eq_false_iff_not]
  omega

theorem bitFetch_bitSet : bitFetch (bitSet ptr i) j = (decide (j = i) || bitFetch ptr j) := by
  rw [bitFetch_eq, bitFetch_eq, bitSet]
  by_cases hbyte : j / 8 = i / 8
  · rw [hbyte, update_self, getLsbD_or,
      one_shiftLeft_getLsbD (Nat.mod_lt _ (by decide)), Bool.or_comm]
    congr 1
    exact decide_eq_decide.mpr (by omega)
  · rw [update_of_ne hbyte, decide_eq_false (by rintro rfl; exact hbyte rfl),
      Bool.false_or]

theorem bitFetch_bitClear : bitFetch (bitClear ptr i) j = (decide (j ≠ i) && bitFetch ptr j) := by
  rw [bitFetch_eq, bitFetch_eq, bitClear]
  by_cases hbyte : j / 8 = i / 8
  · rw [hbyte, update_self, getLsbD_and, getLsbD_not,
      one_shiftLeft_getLsbD (Nat.mod_lt _ (by decide)), Bool.and_comm,
      decide_eq_true (Nat.mod_lt _ (by decide)), Bool.true_and, ← decide_not]
    congr 1
    exact decide_eq_decide.mpr (by omega)
  · rw [update_of_ne hbyte, decide_eq_true (by rintro rfl; exact hbyte rfl),
      Bool.true_and]

theorem bitFetch_reduceAnd (arrays : List Bytes) :
    bitFetch (reduceAnd arrays) i = arrays.all fun ptr => bitFetch ptr i := by
  have hbit : i % 8 < 8 := Nat.mod_lt _ (by decide)
  induction arrays with
  | nil =>
    rw [bitFetch_eq, reduceAnd, List.foldr_nil, getLsbD_allOnes, decide_eq_true hbit,
      List.all_nil]
  | cons ptr arrays ih =>
    rw [List.all_cons, ← ih, bitFetch_eq, bitFetch_eq, bitFetch_eq, ← getLsbD_and]
    rfl

theorem scanByte_eq_some (h : scanByte fuel j v = some i) :
    j ≤ i ∧ i < j + fuel ∧ v.getLsbD (i - j) = true := by
  induction fuel generalizing j v with
  | zero => cases h
  | succ fuel ih =>
    rw [scanByte] at h
    split_ifs at h with hzero hbit
    · obtain rfl : j = i := Option.some.inj h
      rw [Nat.sub_self]
      exact ⟨le_rfl, by omega, and_one_ne_zero.mp hbit⟩
    · obtain ⟨hle, hlt, hset⟩ := ih h
      rw [getLsbD_ushiftRight, show 1 + (i - (j + 1)) = i - j by omega] at hset
      exact ⟨by omega, by omega, hset⟩

theorem bitFetch_of_bit1stNonzero (h : bit1stNonzero ptr size = some i) :
    bitFetch ptr i = true := by
  have hscan : ∀ fuel start, scanBytes ptr fuel start = some i → bitFetch ptr i = true := by
    intro fuel
    induction fuel with
    | zero => intro start h; cases h
    | succ fuel ih =>
      intro start h
      rw [scanBytes] at h
      cases hbyte : scanByte 8 0 (ptr start) with
      | none =>
        rw [hbyte] at h
        exact ih _ h
      | some j =>
        rw [hbyte] at h
        obtain rfl : start * 8 + j = i := Option.some.inj h
        obtain ⟨-, hlt, hset⟩ := scanByte_eq_some hbyte
        rw [bitFetch_eq, show (start * 8 + j) / 8 = start by omega,
          show (start * 8 + j) % 8 = j by omega]
        exact hset
  exact hscan size 0 h

end Bits

end Nvshmem
