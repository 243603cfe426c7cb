import Mathlib

/-! # Lists of disjoint regions

A region is a first address and a length. Pairwise disjoint regions below a bound
have lengths that sum to at most the bound.
-/

namespace Intervals

def Apart (r r' : ℕ × ℕ) : Prop := r.1 + r.2 ≤ r'.1 ∨ r'.1 + r'.2 ≤ r.1

instance (r r' : ℕ × ℕ) : Decidable (Apart r r') :=
  inferInstanceAs (Decidable (_ ∨ _))

def covered (rs : List (ℕ × ℕ)) : Set ℕ := {x | ∃ r ∈ rs, r.1 ≤ x ∧ x < r.1 + r.2}

variable {rs : List (ℕ × ℕ)} {r : ℕ × ℕ} {B x : ℕ}

@[simp] theorem covered_nil : covered [] = ∅ := by
  ext x
  simp [covered]

theorem covered_cons : covered (r :: rs) = covered rs ∪ Set.Ico r.1 (r.1 + r.2) := by
  ext x
  simp [covered, or_comm]

theorem notMem_covered_of_apart (h : ∀ r' ∈ rs, Apart r r') (hx : x ∈ covered rs) :
    x ∉ Set.Ico r.1 (r.1 + r.2) := by
  obtain ⟨r', hr', h₁, h₂⟩ := hx
  have := h r' hr'
  simp only [Apart, Set.mem_Ico] at *
  omega

def addresses (rs : List (ℕ × ℕ)) : Finset ℕ :=
  rs.foldr (fun r A => Finset.Ico r.1 (r.1 + r.2) ∪ A) ∅

theorem mem_addresses : x ∈ addresses rs ↔ x ∈ covered rs := by
  induction rs with
  | nil => simp [addresses]
  | cons r rs ih =>
    rw [covered_cons, Set.mem_union, ← ih]
    simp [addresses, or_comm]

theorem card_addresses (h : rs.Pairwise Apart) :
    (addresses rs).card = (rs.map Prod.snd).sum := by
  induction rs with
  | nil => rfl
  | cons r rs ih =>
    obtain ⟨hr, h⟩ := List.pairwise_cons.mp h
    have hd : Disjoint (Finset.Ico r.1 (r.1 + r.2)) (addresses rs) := by
      refine Finset.disjoint_left.mpr fun x hx hx' => ?_
      exact notMem_covered_of_apart hr (mem_addresses.mp hx') (by simpa using hx)
    rw [List.map_cons, List.sum_cons, ← ih h, addresses, List.foldr_cons]
    rw [show rs.foldr _ ∅ = addresses rs from rfl, Finset.card_union_of_disjoint hd,
      Nat.card_Ico, Nat.add_sub_cancel_left]

theorem sum_length_le (h : rs.Pairwise Apart) (hB : ∀ r ∈ rs, r.1 + r.2 ≤ B) :
    (rs.map Prod.snd).sum ≤ B := by
  have hsub : addresses rs ⊆ Finset.range B := fun x hx => by
    obtain ⟨r, hr, -, hx⟩ := mem_addresses.mp hx
    have := hB r hr
    simp only [Finset.mem_range]
    omega
  calc (rs.map Prod.snd).sum = (addresses rs).card := (card_addresses h).symm
    _ ≤ (Finset.range B).card := Finset.card_le_card hsub
    _ = B := Finset.card_range B

end Intervals
