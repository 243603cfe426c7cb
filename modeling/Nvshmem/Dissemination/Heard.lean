import Mathlib

/-! # Who has been heard of in a dissemination

Participants stand in a circle. In each phase everyone sends to those at certain distances
and waits for those at the same distances before it. If stores cannot be told from earlier
ones of the same sender, only a distance that occurs for the first time brings news: then
the participant hears of those whom its sender had heard of before the phase.
-/

namespace Dissemination

open Nat

variable {S : ℕ → ℕ → Prop} {k n i j d s : ℕ}

def Fresh (S : ℕ → ℕ → Prop) (i s : ℕ) : Prop := S i s ∧ ∀ j < i, ¬ S j s

inductive Heard (S : ℕ → ℕ → Prop) : ℕ → ℕ → Prop where
  | self {i : ℕ} : Heard S i 0
  | keep {i d : ℕ} : Heard S i d → Heard S (i + 1) d
  | news {i s d : ℕ} : Fresh S i s → Heard S i d → Heard S (i + 1) (s + d)

theorem Heard.mono (h : Heard S i d) (hij : i ≤ j) : Heard S j d := by
  induction hij with
  | refl => exact h
  | step _ ih => exact ih.keep

theorem Heard.congr {T : ℕ → ℕ → Prop} (h : Heard S i d) (hST : ∀ j < i, ∀ s, S j s ↔ T j s) :
    Heard T i d := by
  induction h with
  | self => exact .self
  | keep _ ih => exact (ih fun j hj => hST j (by omega)).keep
  | news hs _ ih =>
    refine .news ⟨(hST _ (by omega) _).mp hs.1, fun j hj hT => ?_⟩ (ih fun j hj => hST j (by omega))
    exact hs.2 j hj ((hST j (by omega) _).mpr hT)

theorem exists_fresh (h : S i s) : ∃ j ≤ i, Fresh S j s := by
  classical
  have hex : ∃ j, S j s := ⟨i, h⟩
  exact ⟨Nat.find hex, Nat.find_min' hex h, Nat.find_spec hex, fun j hj => Nat.find_min hex hj⟩

def Multiples (b k n i s : ℕ) : Prop := ∃ j, 0 < j ∧ j < k ∧ s = j * b ^ i ∧ s < n

theorem Multiples.unique (h : Multiples k k n i s) (h' : Multiples k k n j s) : i = j := by
  have aux : ∀ {i j : ℕ}, Multiples k k n i s → Multiples k k n j s → i ≤ j := by
    rintro i j ⟨a, ha, hak, hs, -⟩ ⟨b, hb, hbk, hs', -⟩
    by_contra hlt
    obtain ⟨c, rfl⟩ : ∃ c, i = j + 1 + c := ⟨i - (j + 1), by omega⟩
    have hpos : 0 < k ^ j := Nat.pow_pos (by omega)
    have hle : k * k ^ j ≤ s :=
      calc k * k ^ j = 1 * (k ^ (j + 1) * 1) := by ring
        _ ≤ a * (k ^ (j + 1) * k ^ c) :=
          Nat.mul_le_mul ha (Nat.mul_le_mul_left _ (Nat.pow_pos (by omega)))
        _ = s := by rw [hs, pow_add k (j + 1)]
    have hlt' : s < k * k ^ j := by
      rw [hs']
      exact Nat.mul_lt_mul_of_pos_right hbk hpos
    omega
  exact le_antisymm (aux h h') (aux h' h)

theorem heard_of_lt_pow (hd : d < n) (h : d < k ^ i) : Heard (Multiples k k n) i d := by
  induction i generalizing d with
  | zero =>
    obtain rfl : d = 0 := by simpa using h
    exact .self
  | succ i ih =>
    have hpos : 0 < k ^ i := by
      by_contra h0
      rw [pow_succ, Nat.eq_zero_of_not_pos h0, zero_mul] at h
      omega
    have hsplit := div_add_mod d (k ^ i)
    by_cases hj : d / k ^ i = 0
    · rw [hj, mul_zero, zero_add] at hsplit
      refine (ih hd ?_).keep
      rw [← hsplit]
      exact mod_lt _ hpos
    · have hs : Multiples k k n i (d / k ^ i * k ^ i) := by
        refine ⟨_, Nat.pos_of_ne_zero hj, ?_, rfl, (div_mul_le_self _ _).trans_lt hd⟩
        exact Nat.div_lt_of_lt_mul (by rwa [← pow_succ])
      have hheard := ih ((mod_le d (k ^ i)).trans_lt hd) (mod_lt d hpos)
      rw [← hsplit, mul_comm]
      refine .news ⟨hs, fun j hlt h => ?_⟩ hheard
      exact hlt.ne (h.unique hs)

theorem Heard.le_of_doubling (h : Heard (Multiples 2 k n) i d) : d ≤ (k - 1) * (2 ^ i - 1) := by
  induction h with
  | self => exact Nat.zero_le _
  | @keep i d _ ih =>
    refine ih.trans (Nat.mul_le_mul_left _ (Nat.sub_le_sub_right ?_ 1))
    exact Nat.pow_le_pow_right two_pos (le_succ i)
  | @news i s d hs _ ih =>
    obtain ⟨⟨j, -, hj, rfl, -⟩, -⟩ := hs
    have hpos : 0 < 2 ^ i := Nat.two_pow_pos i
    calc j * 2 ^ i + d ≤ (k - 1) * 2 ^ i + (k - 1) * (2 ^ i - 1) :=
          Nat.add_le_add (Nat.mul_le_mul_right _ (by omega)) ih
      _ = (k - 1) * (2 ^ (i + 1) - 1) := by
        rw [← Nat.mul_add]
        congr 1
        omega

theorem fresh_of_half_le (hs : Multiples 2 k n i (j * 2 ^ i)) (h : i = 0 ∨ k ≤ 2 * j) :
    Fresh (Multiples 2 k n) i (j * 2 ^ i) := by
  refine ⟨hs, ?_⟩
  rintro i' hlt ⟨j', -, hj', heq, -⟩
  obtain ⟨c, rfl⟩ : ∃ c, i = i' + 1 + c := ⟨i - (i' + 1), by omega⟩
  have hpos : 0 < 2 ^ i' := Nat.two_pow_pos i'
  have hcancel : j * (2 * 2 ^ c) = j' := by
    refine eq_of_mul_eq_mul_right hpos ?_
    rw [← heq]
    ring
  have hle : j * 2 ≤ j * (2 * 2 ^ c) :=
    Nat.mul_le_mul_left _ (Nat.le_mul_of_pos_right 2 (Nat.two_pow_pos c))
  omega

theorem exists_steps (hk : 2 ≤ k) (heven : 2 ∣ k) (hlt : (k - 1) * (2 ^ i - 1) < d)
    (hle : d ≤ (k - 1) * (2 ^ (i + 1) - 1)) : ∃ j r, d = j * 2 ^ i + r ∧ 0 < j ∧ j < k ∧
      r ≤ (k - 1) * (2 ^ i - 1) ∧ (i = 0 ∨ k ≤ 2 * j) := by
  have hpos : 0 < 2 ^ i := Nat.two_pow_pos i
  have hsplit := div_add_mod' d (2 ^ i)
  have htop : (k - 1) * (2 ^ (i + 1) - 1) = (k - 1) * 2 ^ i + (k - 1) * (2 ^ i - 1) := by
    rw [← Nat.mul_add]
    congr 1
    omega
  rcases Nat.lt_or_ge (d / 2 ^ i) (k - 1) with hq | hq
  · have hmod : d % 2 ^ i ≤ (k - 1) * (2 ^ i - 1) :=
      (le_sub_one_of_lt (mod_lt d hpos)).trans (Nat.le_mul_of_pos_left _ (by omega))
    refine ⟨d / 2 ^ i, d % 2 ^ i, hsplit.symm, ?_, by omega, hmod, ?_⟩
    · by_contra h0
      rw [Nat.eq_zero_of_not_pos h0] at hsplit
      omega
    · obtain ⟨h, rfl⟩ := heven
      cases i with
      | zero => exact .inl rfl
      | succ i =>
        refine .inr (Nat.mul_le_mul_left 2 ((Nat.le_div_iff_mul_le hpos).mpr ?_))
        obtain ⟨b, hb⟩ : ∃ b, 2 ^ i = b + 1 := ⟨2 ^ i - 1, by omega⟩
        obtain ⟨g, rfl⟩ : ∃ g, h = g + 1 := ⟨h - 1, by omega⟩
        rw [pow_succ, hb, show 2 * (g + 1) - 1 = 2 * g + 1 by omega,
          show (b + 1) * 2 - 1 = 2 * b + 1 by omega] at hlt
        rw [pow_succ]
        nlinarith
  · have hmul : (k - 1) * 2 ^ i ≤ d := (Nat.le_div_iff_mul_le hpos).mp hq
    exact ⟨k - 1, d - (k - 1) * 2 ^ i, by omega, by omega, by omega, by omega, by omega⟩

theorem heard_of_le_doubling (hk : 2 ≤ k) (heven : 2 ∣ k) (hd : d < n)
    (h : d ≤ (k - 1) * (2 ^ i - 1)) : Heard (Multiples 2 k n) i d := by
  induction i generalizing d with
  | zero =>
    obtain rfl : d = 0 := by simpa using h
    exact .self
  | succ i ih =>
    by_cases hle : d ≤ (k - 1) * (2 ^ i - 1)
    · exact (ih hd hle).keep
    · obtain ⟨j, r, rfl, hj, hjk, hr, hhalf⟩ := exists_steps hk heven (not_le.mp hle) h
      exact .news (fresh_of_half_le ⟨j, hj, hjk, rfl, by omega⟩ hhalf) (ih (by omega) hr)

end Dissemination
