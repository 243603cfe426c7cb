import Nvshmem.Transition.Exec

/-! # Simulation of one system by another

A map of states is a simulation if every action of the first system has the effect of an
action of the second one, or none. It takes executions to executions.
-/

namespace Transition

variable {σ τ α β : Type*} {step : σ → α → Option σ} {step' : τ → β → Option τ} {s t : σ}

/-- From a state in `I`, every action has the effect of the action that it stands for. -/
def Simulates (step : σ → α → Option σ) (step' : τ → β → Option τ) (I : σ → Prop)
    (label : α → Option β) (f : σ → τ) : Prop :=
  ∀ s a t, I s → step s a = some t → exec step' (f s) (label a).toList = some (f t)

theorem Simulates.exec_eq {I : σ → Prop} {label : α → Option β} {f : σ → τ}
    (h : Simulates step step' I label f) (next : ∀ {u a v}, I u → step u a = some v → I v)
    {as : List α} (hs : I s) (hrun : exec step s as = some t) :
    exec step' (f s) (as.filterMap label) = some (f t) := by
  induction as generalizing s with
  | nil => exact congrArg (some <| f ·) (Option.some.inj hrun)
  | cons a as ih =>
    obtain ⟨u, hu, hrun⟩ := exec_cons_eq_some.mp hrun
    have hlabel : (a :: as).filterMap label = (label a).toList ++ as.filterMap label := by
      rw [List.filterMap_cons]
      cases label a <;> rfl
    rw [hlabel, exec_append, h s a u hs hu]
    exact ih (next hs hu) hrun

end Transition
