import Mathlib

/-! # Stores to a memory

A store writes consecutive cells. When several stores agree on the cells that they have in
common, it does not matter in which order they are made.
-/

namespace Memory

open List

variable {β : Type*}

structure Store (β : Type*) where
  addr : ℕ
  len : ℕ
  value : ℕ → β

def Store.Covers (st : Store β) (b : ℕ) : Prop := st.addr ≤ b ∧ b < st.addr + st.len

instance (st : Store β) (b : ℕ) : Decidable (st.Covers b) := inferInstanceAs (Decidable (_ ∧ _))

def Store.apply (m : ℕ → β) (st : Store β) : ℕ → β :=
  fun b => if st.Covers b then st.value (b - st.addr) else m b

def applyAll (m : ℕ → β) (sts : List (Store β)) : ℕ → β := sts.foldl Store.apply m

variable {m g : ℕ → β} {sts : List (Store β)} {b : ℕ}

theorem applyAll_of_forall_not_covers (h : ∀ st ∈ sts, ¬ st.Covers b) : applyAll m sts b = m b := by
  induction sts generalizing m with
  | nil => rfl
  | cons st sts ih =>
    refine (ih fun st' hst' => h st' (mem_cons_of_mem _ hst')).trans ?_
    exact if_neg (h st mem_cons_self)

theorem applyAll_eq_of_covers {v : β} (h : ∃ st ∈ sts, st.Covers b)
    (hall : ∀ st ∈ sts, st.Covers b → st.value (b - st.addr) = v) : applyAll m sts b = v := by
  induction sts generalizing m with
  | nil =>
    obtain ⟨st, hst, -⟩ := h
    exact absurd hst not_mem_nil
  | cons st sts ih =>
    rw [applyAll, foldl_cons]
    by_cases hlater : ∃ st' ∈ sts, st'.Covers b
    · exact ih hlater fun st' hst' => hall st' (mem_cons_of_mem _ hst')
    · have hcov : st.Covers b := by
        obtain ⟨st', hst', hcov⟩ := h
        rcases mem_cons.mp hst' with rfl | hst'
        · exact hcov
        · exact absurd ⟨st', hst', hcov⟩ hlater
      push Not at hlater
      calc applyAll (Store.apply m st) sts b = Store.apply m st b :=
            applyAll_of_forall_not_covers hlater
        _ = st.value (b - st.addr) := if_pos hcov
        _ = v := hall st mem_cons_self hcov

theorem applyAll_of_agree (hagree : ∀ st ∈ sts, ∀ j < st.len, st.value j = g (st.addr + j))
    (h : ∃ st ∈ sts, st.Covers b) : applyAll m sts b = g b := by
  refine applyAll_eq_of_covers h fun st hst hcov => ?_
  obtain ⟨hlo, hhi⟩ := hcov
  rw [hagree st hst _ (by omega), Nat.add_sub_cancel' hlo]

end Memory
