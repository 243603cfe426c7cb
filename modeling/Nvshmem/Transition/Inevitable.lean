import Nvshmem.Transition.Exec

/-! # What every execution has to reach

Some actions have to be taken at some time when they are enabled, others need not be. A
condition is inevitable if no execution can avoid it: it holds now, or an action that has
to be taken is enabled and the condition is inevitable after each enabled action. If every
action makes a measure smaller, it is enough that some such action is enabled where the
condition does not hold yet.
-/

namespace Transition

variable {σ α : Type*} {must : α → Prop} {step : σ → α → Option σ} {P : σ → Prop} {s : σ}

/-- Every execution that does not stop while an action that has to be taken is enabled reaches a
state with the condition. -/
inductive Inevitable (must : α → Prop) (step : σ → α → Option σ) (P : σ → Prop) : σ → Prop where
  | now {s : σ} : P s → Inevitable must step P s
  | later {s : σ} : (∃ a t, must a ∧ step s a = some t) →
      (∀ a t, step s a = some t → Inevitable must step P t) → Inevitable must step P s

theorem Inevitable.of_measure {I : σ → Prop} (μ : σ → ℕ)
    (next : ∀ {s a t}, I s → step s a = some t → I t)
    (decreasing : ∀ {s a t}, I s → ¬ P s → step s a = some t → μ t < μ s)
    (progress : ∀ {s}, I s → ¬ P s → ∃ a t, must a ∧ step s a = some t) (hs : I s) :
    Inevitable must step P s := by
  induction hn : μ s using Nat.strong_induction_on generalizing s with
  | _ n ih =>
    subst hn
    by_cases hP : P s
    · exact .now hP
    · exact .later (progress hs hP) fun a t ht => ih (μ t) (decreasing hs hP ht) (next hs ht) rfl

theorem Inevitable.exists_reachable (h : Inevitable must step P s) :
    ∃ t, Reachable step s t ∧ P t := by
  induction h with
  | now hP => exact ⟨_, ⟨[], rfl⟩, hP⟩
  | later hex _ ih =>
    obtain ⟨a, t, -, ht⟩ := hex
    obtain ⟨u, ⟨as, has⟩, hu⟩ := ih a t ht
    exact ⟨u, ⟨a :: as, exec_cons_eq_some.mpr ⟨t, ht, has⟩⟩, hu⟩

end Transition
