import Mathlib

/-! # Executions of a partial step function

A system is a step function that fails on a disabled action. `Reachable` states
are the results of executing a list of actions, and an invariant is proved by
one induction over that list.
-/

namespace Transition

variable {σ α : Type*}

def exec (step : σ → α → Option σ) : σ → List α → Option σ
  | s, [] => some s
  | s, a :: as => (step s a).bind fun t => exec step t as

/-- Disable the actions that do not meet a condition on the current state. -/
def restrict (ok : σ → α → Prop) [∀ s a, Decidable (ok s a)] (step : σ → α → Option σ) :
    σ → α → Option σ :=
  fun s a => if ok s a then step s a else none

def Reachable (step : σ → α → Option σ) (s t : σ) : Prop := ∃ as, exec step s as = some t

variable {step : σ → α → Option σ} {s t : σ}

theorem exec_cons_eq_some {a : α} {as : List α} :
    exec step s (a :: as) = some t ↔ ∃ u, step s a = some u ∧ exec step u as = some t := by
  simp [exec, Option.bind_eq_some_iff]

theorem exec_append {as bs : List α} :
    exec step s (as ++ bs) = (exec step s as).bind fun u => exec step u bs := by
  induction as generalizing s with
  | nil => rfl
  | cons a as ih => simp only [List.cons_append, exec, ih, Option.bind_assoc]

theorem restrict_eq_some {ok : σ → α → Prop} [∀ s a, Decidable (ok s a)] {a : α} :
    restrict ok step s a = some t ↔ ok s a ∧ step s a = some t := by
  simp [restrict]

theorem Reachable.of_exec {as : List α} (h : exec step s as = some t) : Reachable step s t :=
  ⟨as, h⟩

/-- What the last state of a run is like is found by evaluation. -/
theorem exists_of_exec {as : List α} (P : σ → Prop) [DecidablePred P] {Q : σ → Prop}
    (h : (exec step s as).any fun t => P t) (hQ : ∀ t, exec step s as = some t → P t → Q t) :
    ∃ t, exec step s as = some t ∧ Q t := by
  obtain ⟨t, ht, hP⟩ := (Option.any_eq_true _ _).mp h
  exact ⟨t, ht, hQ t ht (of_decide_eq_true hP)⟩

theorem Reachable.exists_of_exec (as : List α) (P : σ → Prop) [DecidablePred P] {Q : σ → Prop}
    (h : (exec step s as).any fun t => P t) (hQ : ∀ t, Reachable step s t → P t → Q t) :
    ∃ t, Reachable step s t ∧ Q t := by
  obtain ⟨t, ht, hq⟩ := Transition.exists_of_exec P h fun t ht => hQ t ⟨as, ht⟩
  exact ⟨t, ⟨as, ht⟩, hq⟩

theorem Reachable.trans {u : σ} (h : Reachable step s t) (h' : Reachable step t u) :
    Reachable step s u := by
  obtain ⟨as, h⟩ := h
  obtain ⟨bs, h'⟩ := h'
  exact ⟨as ++ bs, by rw [exec_append, h, Option.bind_some, h']⟩

theorem Reachable.tail {u : σ} {a : α} (h : Reachable step s t) (hu : step t a = some u) :
    Reachable step s u :=
  h.trans ⟨[a], exec_cons_eq_some.mpr ⟨u, hu, rfl⟩⟩

theorem Reachable.of_restrict {ok : σ → α → Prop} [∀ s a, Decidable (ok s a)]
    (h : Reachable (restrict ok step) s t) : Reachable step s t := by
  obtain ⟨as, h⟩ := h
  refine ⟨as, ?_⟩
  induction as generalizing s with
  | nil => exact h
  | cons a as ih =>
    obtain ⟨u, hu, h⟩ := exec_cons_eq_some.mp h
    exact exec_cons_eq_some.mpr ⟨u, (restrict_eq_some.mp hu).2, ih h⟩

theorem Reachable.invariant {I : σ → Prop} (h : Reachable step s t) (init : I s)
    (next : ∀ {u a v}, I u → step u a = some v → I v) : I t := by
  obtain ⟨as, h⟩ := h
  induction as generalizing s with
  | nil => exact Option.some.inj h ▸ init
  | cons a as ih =>
    obtain ⟨u, hu, h⟩ := exec_cons_eq_some.mp h
    exact ih (next init hu) h

end Transition
