import Mathlib

/-! # Strided loops

The indices `first`, `first + step`, `first + 2 * step`, … below a bound, as the threads of a group
divide a range among themselves. Starting thread `t` of `g` at `t` visits each index once.
-/

namespace Loops

open List Function Function

variable {first stop step n g t x : ℕ}

/-- The indices of `for (x = first; x < stop; x += step)`. -/
def strided (first stop step : ℕ) : List ℕ :=
  List.range' first ((stop - first + (step - 1)) / step) step

theorem mem_strided (hstep : 0 < step) :
    x ∈ strided first stop step ↔ x < stop ∧ ∃ k, x = first + step * k := by
  rw [strided, mem_range']
  constructor
  · rintro ⟨k, hk, rfl⟩
    refine ⟨?_, k, rfl⟩
    have hle : (k + 1) * step ≤ stop - first + (step - 1) := (Nat.le_div_iff_mul_le hstep).mp hk
    have hsucc : (k + 1) * step = step * k + step := by ring
    omega
  · rintro ⟨hx, k, rfl⟩
    have hle : (k + 1) * step ≤ stop - first + (step - 1) := by
      have hsucc : (k + 1) * step = step * k + step := by ring
      omega
    exact ⟨k, (Nat.le_div_iff_mul_le hstep).mpr hle, rfl⟩

/-- Thread `t` of a group of `g` visits the indices that are `t` modulo `g`. -/
theorem mem_strided_thread (ht : t < g) : x ∈ strided t n g ↔ x < n ∧ x % g = t := by
  rw [mem_strided (Nat.zero_lt_of_lt ht), and_congr_right_iff]
  intro _
  constructor
  · rintro ⟨k, rfl⟩
    rw [Nat.add_mul_mod_self_left, Nat.mod_eq_of_lt ht]
  · rintro rfl
    exact ⟨x / g, (Nat.mod_add_div x g).symm⟩

theorem exists_mem_strided (hg : 0 < g) (hx : x < n) : ∃ t < g, x ∈ strided t n g :=
  ⟨x % g, Nat.mod_lt x hg, (mem_strided_thread (Nat.mod_lt x hg)).mpr ⟨hx, rfl⟩⟩

/-- The indices below `n` in the order in which the threads of a group of `g` visit them. -/
def visits (g n : ℕ) : List ℕ := (List.range g).flatMap fun t => strided t n g

theorem mem_visits (hg : 0 < g) : x ∈ visits g n ↔ x < n := by
  simp only [visits, mem_flatMap, mem_range]
  constructor
  · rintro ⟨t, ht, hx⟩
    exact ((mem_strided_thread ht).mp hx).1
  · exact exists_mem_strided hg

theorem nodup_visits : (visits g n).Nodup := by
  rw [visits, nodup_flatMap]
  constructor
  · intro t ht
    exact nodup_range' _ (Nat.zero_lt_of_lt (mem_range.mp ht))
  · refine List.Pairwise.imp_of_mem ?_ pairwise_lt_range
    intro t u ht hu htu x hxt hxu
    have hxt := ((mem_strided_thread (mem_range.mp ht)).mp hxt).2
    have hxu := ((mem_strided_thread (mem_range.mp hu)).mp hxu).2
    omega

section Update

variable {β γ α : Type*} [DecidableEq γ] {φ : β → γ} {f : β → α → α} {l : List β} {a : γ → α}

theorem foldl_update_of_forall_ne {z : γ} (h : ∀ y ∈ l, φ y ≠ z) :
    l.foldl (fun a y => update a (φ y) (f y (a (φ y)))) a z = a z := by
  induction l generalizing a with
  | nil => rfl
  | cons y l ih =>
    rw [foldl_cons, ih fun y' hy' => h y' (mem_cons_of_mem _ hy'),
      update_of_ne (h y mem_cons_self).symm]

theorem foldl_update_of_mem {y : β} (hl : (l.map φ).Nodup) (hy : y ∈ l) :
    l.foldl (fun a y => update a (φ y) (f y (a (φ y)))) a (φ y) = f y (a (φ y)) := by
  induction l generalizing a with
  | nil => exact absurd hy not_mem_nil
  | cons y' l ih =>
    rw [map_cons, nodup_cons] at hl
    rw [foldl_cons]
    rcases mem_cons.mp hy with rfl | hy
    · rw [foldl_update_of_forall_ne, update_self]
      exact fun y' hy' heq => hl.1 (heq ▸ mem_map_of_mem hy')
    · rw [ih hl.2 hy, update_of_ne]
      exact fun heq => hl.1 (heq ▸ mem_map_of_mem hy)

end Update

/-- Replace each element below `n` of an array, from its old value, by the threads of a group. -/
def sweep {α : Type*} (g n : ℕ) (f : ℕ → α → α) (a : ℕ → α) : ℕ → α :=
  (visits g n).foldl (fun a x => update a x (f x (a x))) a

theorem sweep_apply {α : Type*} (hg : 0 < g) (f : ℕ → α → α) (a : ℕ → α) :
    sweep g n f a x = if x < n then f x (a x) else a x := by
  split
  · next h =>
    exact foldl_update_of_mem (φ := id) (by simpa using nodup_visits) ((mem_visits hg).mpr h)
  · next h =>
    refine foldl_update_of_forall_ne (φ := id) fun y hy heq => h ?_
    rw [← heq]
    exact (mem_visits hg).mp hy

end Loops
