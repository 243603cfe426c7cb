import Nvshmem.Loops.Strided

/-! # Two nested loops

The pairs that a loop over rows and, inside it, a loop over columns visit. They index an array by
rows or by columns; either way every pair has a place of its own. An array that the loops fill with
the numbers of the visits has a different number at every place.
-/

namespace Loops

open List

/-- The pairs of `for (i = first; i < first + rows; i++) for (j = 0; j < cols; j++)`. -/
def grid (first rows cols : ℕ) : List (ℕ × ℕ) := List.range' first rows ×ˢ List.range cols

def rowMajor (cols : ℕ) (p : ℕ × ℕ) : ℕ := p.1 * cols + p.2

def columnMajor (first rows : ℕ) (p : ℕ × ℕ) : ℕ := p.2 * rows + (p.1 - first)

variable {first rows cols : ℕ} {p q : ℕ × ℕ}

theorem mem_grid :
    p ∈ grid first rows cols ↔ (first ≤ p.1 ∧ p.1 < first + rows) ∧ p.2 < cols := by
  rw [grid, mem_product, mem_range'_1, mem_range]

theorem nodup_grid : (grid first rows cols).Nodup :=
  (nodup_range' 1).product nodup_range

theorem eq_and_eq_of_mul_add_eq {n a b a' b' : ℕ} (hb : b < n) (hb' : b' < n)
    (h : a * n + b = a' * n + b') : a = a' ∧ b = b' := by
  have hdiv : ∀ a {b}, b < n → (a * n + b) / n = a := by
    intro a b hb
    rw [Nat.mul_comm, Nat.mul_add_div (Nat.zero_lt_of_lt hb), Nat.div_eq_of_lt hb, Nat.add_zero]
  have ha : a = a' := by rw [← hdiv a hb, h, hdiv a' hb']
  subst ha
  exact ⟨rfl, Nat.add_left_cancel h⟩

theorem mul_add_lt {n i j total : ℕ} (hi : i < total) (hj : j < n) : i * n + j < total * n :=
  calc i * n + j < i * n + n := Nat.add_lt_add_left hj _
    _ = (i + 1) * n := by ring
    _ ≤ total * n := Nat.mul_le_mul_right n hi

theorem exists_mul_add {n total x : ℕ} (hn : 0 < n) (hx : x < total * n) :
    ∃ i < total, ∃ j < n, x = i * n + j :=
  ⟨x / n, Nat.div_lt_of_lt_mul (by rwa [Nat.mul_comm]), x % n, Nat.mod_lt x hn,
    (Nat.div_add_mod' x n).symm⟩

theorem rowMajor_inj (hp : p.2 < cols) (hq : q.2 < cols) (h : rowMajor cols p = rowMajor cols q) :
    p = q :=
  Prod.ext_iff.mpr (eq_and_eq_of_mul_add_eq hp hq h)

theorem nodup_map_rowMajor : ((grid first rows cols).map (rowMajor cols)).Nodup :=
  nodup_grid.map_on fun _ hp _ hq => rowMajor_inj (mem_grid.mp hp).2 (mem_grid.mp hq).2

theorem nodup_map_columnMajor : ((grid first rows cols).map (columnMajor first rows)).Nodup := by
  apply nodup_grid.map_on
  intro p hp q hq h
  obtain ⟨⟨hp, hp'⟩, -⟩ := mem_grid.mp hp
  obtain ⟨⟨hq, hq'⟩, -⟩ := mem_grid.mp hq
  obtain ⟨h2, h1⟩ := eq_and_eq_of_mul_add_eq (by omega) (by omega) h
  exact Prod.ext (by omega) h2

section Numbered

variable {α β γ : Type*} [DecidableEq γ] {φ : α → γ} {l : List α} {base : ℕ}

def fill (φ : α → γ) (f : α → ℕ → β) (l : List α) (base : ℕ) (a : γ → β) : γ → β :=
  (l.zipIdx base).foldl (fun a y => Function.update a (φ y.1) (f y.1 y.2)) a

theorem fill_of_getElem? {f : α → ℕ → β} {a : γ → β} (hl : (l.map φ).Nodup) {k : ℕ} {x : α}
    (hx : l[k]? = some x) : fill φ f l base a (φ x) = f x (base + k) := by
  have hnodup : ((l.zipIdx base).map fun y => φ y.1).Nodup := by
    have hmap : (l.zipIdx base).map (fun y => φ y.1) = l.map φ := by
      conv_rhs => rw [← zipIdx_map_fst base l, map_map]
      rfl
    rwa [hmap]
  have hmem : (x, base + k) ∈ l.zipIdx base := by
    rw [mk_mem_zipIdx_iff_le_and_getElem?_sub]
    exact ⟨Nat.le_add_right base k, by rwa [Nat.add_sub_cancel_left]⟩
  exact foldl_update_of_mem (φ := fun y : α × ℕ => φ y.1) (f := fun y _ => f y.1 y.2) hnodup hmem

theorem fill_of_forall_ne {f : α → ℕ → β} {a : γ → β} {z : γ} (h : ∀ x ∈ l, φ x ≠ z) :
    fill φ f l base a z = a z := by
  refine foldl_update_of_forall_ne (φ := fun y : α × ℕ => φ y.1) (f := fun y _ => f y.1 y.2) ?_
  intro y hy
  exact h y.1 (fst_mem_of_mem_zipIdx hy)

end Numbered

end Loops
