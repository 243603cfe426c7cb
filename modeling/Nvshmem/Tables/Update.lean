import Mathlib

/-! # Tables with two and three indices

Memory that is a table of cells, one for each owner and each peer, is a function of its
indices, and a store changes it at one place.
-/

namespace Tables

open Finset

variable {α β γ δ : Type*} [DecidableEq α] [DecidableEq β] [DecidableEq γ]

def set₂ (f : α → β → δ) (a : α) (b : β) (v : δ) : α → β → δ :=
  fun a' b' => if a' = a ∧ b' = b then v else f a' b'

def set₃ (f : α → β → γ → δ) (a : α) (b : β) (c : γ) (v : δ) : α → β → γ → δ :=
  fun a' b' c' => if a' = a ∧ b' = b ∧ c' = c then v else f a' b' c'

variable {f : α → β → δ} {a a' : α} {b b' : β} {v : δ}

@[grind =]
theorem set₂_apply : set₂ f a b v a' b' = if a' = a ∧ b' = b then v else f a' b' := rfl

@[grind =]
theorem set₃_apply {f : α → β → γ → δ} {c c' : γ} :
    set₃ f a b c v a' b' c' = if a' = a ∧ b' = b ∧ c' = c then v else f a' b' c' := rfl

@[simp]
theorem set₂_self : set₂ f a b v a b = v := if_pos ⟨rfl, rfl⟩

theorem sum_add_eq_of_eq_off {A : Finset α} (g h : α → ℕ) (ha : a ∈ A)
    (heq : ∀ z ∈ A, z ≠ a → h z = g z) : ∑ z ∈ A, h z + g a = ∑ z ∈ A, g z + h a := by
  have hrest : ∑ z ∈ A.erase a, h z = ∑ z ∈ A.erase a, g z :=
    sum_congr rfl fun z hz =>
      heq z (mem_of_mem_erase hz) (ne_of_mem_erase hz)
  have hg := add_sum_erase A g ha
  have hh := add_sum_erase A h ha
  omega

theorem sum_lt_sum_of_eq_off {A : Finset α} {g h : α → ℕ} (ha : a ∈ A)
    (heq : ∀ z, z ≠ a → h z = g z) (hlt : h a < g a) : ∑ z ∈ A, h z < ∑ z ∈ A, g z := by
  have := sum_add_eq_of_eq_off g h ha fun z _ hz => heq z hz
  omega

theorem sum_set₂ {A : Finset α} {B : α → Finset β} (ha : a ∈ A) (hb : b ∈ B a)
    (g : α → β → δ → ℕ) :
    ∑ x ∈ A, ∑ y ∈ B x, g x y (set₂ f a b v x y) + g a b (f a b) =
      ∑ x ∈ A, ∑ y ∈ B x, g x y (f x y) + g a b v := by
  have houter := sum_add_eq_of_eq_off (fun x => ∑ y ∈ B x, g x y (f x y))
    (fun x => ∑ y ∈ B x, g x y (set₂ f a b v x y)) ha fun x _ hx =>
      sum_congr rfl fun y _ => by rw [set₂_apply, if_neg fun h => hx h.1]
  have hinner := sum_add_eq_of_eq_off (fun y => g a y (f a y)) (fun y => g a y (set₂ f a b v a y))
    hb fun y _ hy => by rw [set₂_apply, if_neg fun h => hy h.2]
  rw [set₂_self] at hinner
  omega

theorem sum_set₃ {A : Finset α} {B : Finset β} {C : Finset γ} {f : α → β → γ → δ} {c : γ}
    (ha : a ∈ A) (hb : b ∈ B) (hc : c ∈ C) (g : δ → ℕ) :
    ∑ z ∈ A ×ˢ B ×ˢ C, g (set₃ f a b c v z.1 z.2.1 z.2.2) + g (f a b c) =
      ∑ z ∈ A ×ˢ B ×ˢ C, g (f z.1 z.2.1 z.2.2) + g v := by
  have hmem : (a, b, c) ∈ A ×ˢ B ×ˢ C := by simp [ha, hb, hc]
  have := sum_add_eq_of_eq_off (fun z : α × β × γ => g (f z.1 z.2.1 z.2.2))
    (fun z => g (set₃ f a b c v z.1 z.2.1 z.2.2)) hmem fun z _ hz => by
      rw [set₃_apply, if_neg]
      rintro ⟨h1, h2, h3⟩
      exact hz (Prod.ext h1 (Prod.ext h2 h3))
  simpa [set₃_apply] using this

end Tables
