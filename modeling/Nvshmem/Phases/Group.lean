import Nvshmem.Tables.Update

/-! # Groups of threads that work in phases

A thread executes the operations of one phase after the other. The threads of a group meet at the
end of some of the phases: none of them goes on before all have executed the phase.
-/

namespace Phases

open Tables List

/-- The phase in which a thread is, and the operations of the phase that it has not executed. -/
structure Thread (ω : Type*) where
  phase : ℕ
  todo : List ω
deriving DecidableEq

def Thread.Finished {ω : Type*} (th : Thread ω) (p : ℕ) : Prop :=
  p < th.phase ∨ p = th.phase ∧ th.todo = []

variable {γ ω : Type*}

def start (prog : γ → ℕ → ℕ → List ω) : γ → ℕ → Thread ω := fun g t => ⟨0, prog g t 0⟩

def Done (prog : γ → ℕ → ℕ → List ω) (threads : γ → ℕ → Thread ω) (g : γ) (t p : ℕ) (op : ω) :
    Prop :=
  op ∈ prog g t p ∧ (p < (threads g t).phase ∨ p = (threads g t).phase ∧ op ∉ (threads g t).todo)

variable {prog : γ → ℕ → ℕ → List ω} {threads : γ → ℕ → Thread ω} {g g' : γ} {t t' p q : ℕ}
  {op op' : ω} {rest : List ω}

instance [DecidableEq ω] {th : Thread ω} : Decidable (th.Finished p) :=
  inferInstanceAs (Decidable (_ ∨ _))

theorem Done.le_phase (h : Done prog threads g t p op) : p ≤ (threads g t).phase := by
  rcases h.2 with hlt | ⟨rfl, -⟩
  · exact hlt.le
  · exact le_rfl

theorem Thread.Finished.done (h : (threads g t).Finished p) (hop : op ∈ prog g t p) :
    Done prog threads g t p op := by
  refine ⟨hop, h.imp_right ?_⟩
  rintro ⟨hp, hnil⟩
  exact ⟨hp, hnil ▸ not_mem_nil⟩

theorem Thread.Finished.lt_phase {th : Thread ω} (h : th.Finished p) (hop : op ∈ th.todo) :
    p < th.phase := by
  rcases h with hlt | ⟨-, hnil⟩
  · exact hlt
  · exact absurd (hnil ▸ hop) not_mem_nil

theorem not_done_start : ¬ Done prog (start prog) g t p op := by
  rintro ⟨hop, hlt | ⟨rfl, hnot⟩⟩
  · exact Nat.not_lt_zero _ hlt
  · exact hnot hop

theorem not_done_of_mem (hop : op ∈ (threads g t).todo) :
    ¬ Done prog threads g t (threads g t).phase op := by
  rintro ⟨-, hlt | ⟨-, hnot⟩⟩
  · exact Nat.lt_irrefl _ hlt
  · exact hnot hop

/-- What holds of the threads of all groups: they have executed the operations of their phase in
order, and those that are past a phase at whose end the group meets have waited for the others. -/
structure Inv (prog : γ → ℕ → ℕ → List ω) (sync : ℕ → Prop) (size : γ → ℕ)
    (threads : γ → ℕ → Thread ω) : Prop where
  suffix : ∀ g t, (threads g t).todo <:+ prog g t (threads g t).phase
  barrier : ∀ g p, sync p → ∀ t < size g, p < (threads g t).phase →
    ∀ t' < size g, (threads g t').Finished p

variable {sync : ℕ → Prop} {size : γ → ℕ}

namespace Inv

theorem start : Inv prog sync size (start prog) where
  suffix := fun _ _ => suffix_rfl
  barrier := fun _ _ _ _ _ hlt => absurd hlt (Nat.not_lt_zero _)

variable (h : Inv prog sync size threads)

include h

theorem mem_prog (hop : op ∈ (threads g t).todo) : op ∈ prog g t (threads g t).phase :=
  (h.suffix g t).subset hop

theorem done (hsync : sync p) (ht : t < size g) (hlt : p < (threads g t).phase) (ht' : t' < size g)
    (hop : op ∈ prog g t' p) : Done prog threads g t' p op :=
  (h.barrier g p hsync t ht hlt t' ht').done hop

theorem phase_le (hsync : sync (threads g t').phase) (ht : t < size g) (ht' : t' < size g)
    (hop : op ∈ (threads g t').todo) : (threads g t).phase ≤ (threads g t').phase := by
  by_contra hlt
  have hfinished := h.barrier g _ hsync t ht (Nat.lt_of_not_le hlt) t' ht'
  exact Nat.lt_irrefl _ (hfinished.lt_phase hop)

end Inv

section Steps

variable [DecidableEq γ]

def exec (threads : γ → ℕ → Thread ω) (g : γ) (t : ℕ) : γ → ℕ → Thread ω :=
  set₂ threads g t ⟨(threads g t).phase, (threads g t).todo.tail⟩

def pass (prog : γ → ℕ → ℕ → List ω) (threads : γ → ℕ → Thread ω) (g : γ) (t : ℕ) :
    γ → ℕ → Thread ω :=
  set₂ threads g t ⟨(threads g t).phase + 1, prog g t ((threads g t).phase + 1)⟩

def CanPass (sync : ℕ → Prop) (size : γ → ℕ) (threads : γ → ℕ → Thread ω) (g : γ) (t : ℕ) : Prop :=
  (threads g t).todo = [] ∧ (sync (threads g t).phase →
    ∀ t' < size g, (threads g t').Finished (threads g t).phase)

instance [DecidableEq ω] [DecidablePred sync] :
    Decidable (CanPass sync size threads g t) :=
  inferInstanceAs (Decidable (_ ∧ (_ → _)))

theorem phase_exec : (exec threads g t g' t').phase = (threads g' t').phase := by
  rw [exec, set₂_apply]
  split_ifs with heq
  · rw [heq.1, heq.2]
  · rfl

theorem done_exec_iff (hsuffix : (threads g t).todo <:+ prog g t (threads g t).phase)
    (hnodup : (prog g t (threads g t).phase).Nodup) (htodo : (threads g t).todo = op :: rest) :
    Done prog (exec threads g t) g' t' q op' ↔ Done prog threads g' t' q op' ∨
      g' = g ∧ t' = t ∧ q = (threads g t).phase ∧ op' = op := by
  by_cases heq : g' = g ∧ t' = t
  · obtain ⟨rfl, rfl⟩ := heq
    have hop : op ∈ prog g' t' (threads g' t').phase :=
      hsuffix.subset (htodo ▸ mem_cons_self)
    have hnot : op ∉ rest := by
      have := hnodup.sublist hsuffix.sublist
      rw [htodo] at this
      exact (nodup_cons.mp this).1
    simp only [Done, exec, set₂_self, htodo, tail_cons, mem_cons, true_and]
    constructor
    · rintro ⟨hmem, hlt | ⟨rfl, hrest⟩⟩
      · exact Or.inl ⟨hmem, Or.inl hlt⟩
      · by_cases hop' : op' = op
        · exact Or.inr ⟨rfl, hop'⟩
        · exact Or.inl ⟨hmem, Or.inr ⟨rfl, fun h => h.elim hop' hrest⟩⟩
    · rintro (⟨hmem, hlt | ⟨hq, hnot'⟩⟩ | ⟨rfl, rfl⟩)
      · exact ⟨hmem, Or.inl hlt⟩
      · exact ⟨hmem, Or.inr ⟨hq, fun h => hnot' (Or.inr h)⟩⟩
      · exact ⟨hop, Or.inr ⟨rfl, hnot⟩⟩
  · have hthread : exec threads g t g' t' = threads g' t' := if_neg heq
    rw [Done, hthread]
    refine ⟨Or.inl, fun h => h.resolve_right ?_⟩
    rintro ⟨hg, ht, -⟩
    exact heq ⟨hg, ht⟩

theorem done_pass_iff (htodo : (threads g t).todo = []) :
    Done prog (pass prog threads g t) g' t' q op ↔ Done prog threads g' t' q op := by
  by_cases heq : g' = g ∧ t' = t
  · obtain ⟨rfl, rfl⟩ := heq
    simp only [Done, pass, set₂_self, htodo]
    refine and_congr_right fun hop => ⟨?_, ?_⟩
    · rintro (hlt | ⟨rfl, hnot⟩)
      · exact (Nat.lt_succ_iff_lt_or_eq.mp hlt).imp_right fun hq => ⟨hq, not_mem_nil⟩
      · exact absurd hop hnot
    · rintro (hlt | ⟨hq, -⟩)
      · exact Or.inl (Nat.lt_succ_of_lt hlt)
      · exact Or.inl (Nat.lt_succ_of_le hq.le)
  · have hthread : pass prog threads g t g' t' = threads g' t' := if_neg heq
    rw [Done, Done, hthread]

namespace Inv

theorem exec (h : Inv prog sync size threads) (htodo : (threads g t).todo = op :: rest) :
    Inv prog sync size (exec threads g t) where
  suffix := by
    intro g' t'
    rw [Phases.exec, set₂_apply]
    split_ifs with heq
    · obtain ⟨rfl, rfl⟩ := heq
      exact (tail_suffix _).trans (h.suffix _ _)
    · exact h.suffix g' t'
  barrier := by
    intro g' p hsync t₁ ht₁ hlt t₂ ht₂
    rw [phase_exec] at hlt
    have hfinished := h.barrier g' p hsync t₁ ht₁ hlt t₂ ht₂
    rw [Phases.exec, set₂_apply]
    split_ifs with heq
    · obtain ⟨rfl, rfl⟩ := heq
      exact Or.inl (hfinished.lt_phase (htodo ▸ mem_cons_self))
    · exact hfinished

theorem pass (h : Inv prog sync size threads) (hpass : CanPass sync size threads g t) :
    Inv prog sync size (pass prog threads g t) where
  suffix := by
    intro g' t'
    rw [Phases.pass, set₂_apply]
    split_ifs with heq
    · rw [heq.1, heq.2]
    · exact h.suffix g' t'
  barrier := by
    intro g' p hsync t₁ ht₁ hlt t₂ ht₂
    -- everyone had executed the phase before the step
    have hfinished : (threads g' t₂).Finished p := by
      rw [Phases.pass, set₂_apply] at hlt
      split_ifs at hlt with heq
      · obtain ⟨rfl, rfl⟩ := heq
        rcases Nat.lt_succ_iff_lt_or_eq.mp hlt with hlt | rfl
        · exact h.barrier g' p hsync t₁ ht₁ hlt t₂ ht₂
        · exact hpass.2 hsync t₂ ht₂
      · exact h.barrier g' p hsync t₁ ht₁ hlt t₂ ht₂
    rw [Phases.pass, set₂_apply]
    split_ifs with heq
    · obtain ⟨rfl, rfl⟩ := heq
      exact Or.inl (hfinished.elim Nat.lt_succ_of_lt fun hp => Nat.lt_succ_of_le hp.1.le)
    · exact hfinished

end Inv

end Steps

end Phases
