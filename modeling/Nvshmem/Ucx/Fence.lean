import Nvshmem.Transition.Exec

/-! # Fences and atomics that the target performs

A put takes effect where it arrives. An atomic arrives as an active message that the target queues and
performs in a later call of its progress function. The fence of the UCX transport orders arrivals.
-/

namespace Nvshmem.Ucx

open Transition List

inductive Issue where
  | put
  | amo
  | fence
deriving DecidableEq

variable (ops : List Issue)

/-- The number of calls of `nvshmemt_ucx_fence` before a place of the sequence. -/
def epoch (i : ℕ) : ℕ := (ops.take i).count .fence

def Sends (i : ℕ) : Prop := ops[i]? = some .put ∨ ops[i]? = some .amo

instance (i : ℕ) : Decidable (Sends ops i) := inferInstanceAs (Decidable (_ ∨ _))

structure Target where
  arrived : List ℕ
  pendingRecvHeaders : List ℕ
  effects : List ℕ

inductive TargetAction where
  | arrive (i : ℕ)
  | processAmo

namespace Target

def init : Target := ⟨[], [], []⟩

/-- What `ucp_worker_fence` guarantees: operations before a fence arrive before those after it. -/
def MayArrive (s : Target) (i : ℕ) : Prop :=
  i ∉ s.arrived ∧ ∀ j < ops.length, Sends ops j → epoch ops j < epoch ops i → j ∈ s.arrived

instance (s : Target) (i : ℕ) : Decidable (s.MayArrive ops i) :=
  inferInstanceAs (Decidable (_ ∧ ∀ j < _, _ → _ → _))

/-- `nvshmemt_ucx_recv_send_am_data_cb`, and one round of the loop of `nvshmemt_ucx_process_amos`. -/
def step (s : Target) : TargetAction → Option Target
  | .arrive i =>
    if s.MayArrive ops i then
      match ops[i]? with
      | some .put => some { s with arrived := i :: s.arrived, effects := s.effects ++ [i] }
      | some .amo => some ⟨i :: s.arrived, s.pendingRecvHeaders ++ [i], s.effects⟩
      | some .fence | none => none
    else none
  | .processAmo =>
    match s.pendingRecvHeaders with
    | [] => none
    | i :: pending => some ⟨s.arrived, pending, s.effects ++ [i]⟩

end Target

/-- When an operation has taken effect, so has every operation before an earlier fence. -/
def KeepsOrder : Prop :=
  ∀ s, Reachable (Target.step ops) .init s → ∀ j ∈ s.effects, ∀ i, Sends ops i →
    epoch ops i < epoch ops j → i ∈ s.effects

variable {ops} {s t : Target} {i j : ℕ}

theorem epoch_le (h : i ≤ j) : epoch ops i ≤ epoch ops j :=
  (take_sublist_take_left h).count_le _

theorem Sends.lt (h : Sends ops i) : i < ops.length := by
  rcases h with h | h <;> exact (List.getElem?_eq_some_iff.mp h).1

namespace Target

/-- The atomics, performed or not, are in the order of the fences. -/
structure Inv (ops : List Issue) (s : Target) : Prop where
  closed : ∀ j ∈ s.arrived, ∀ i, Sends ops i → epoch ops i < epoch ops j → i ∈ s.arrived
  sends : ∀ i ∈ s.arrived, Sends ops i
  arrived : ∀ i, i ∈ s.effects ∨ i ∈ s.pendingRecvHeaders ↔ i ∈ s.arrived
  pending : ∀ i ∈ s.pendingRecvHeaders, ops[i]? = some .amo
  sorted : (s.effects.filter (ops[·]? = some .amo) ++ s.pendingRecvHeaders).Pairwise
    fun i j => epoch ops i ≤ epoch ops j

theorem Inv.closed_cons (h : s.Inv ops) (hmay : s.MayArrive ops i) : ∀ j ∈ i :: s.arrived,
    ∀ k, Sends ops k → epoch ops k < epoch ops j → k ∈ i :: s.arrived := by
  intro j hj k hk hlt
  rcases mem_cons.mp hj with rfl | hj
  · exact mem_cons_of_mem _ (hmay.2 k hk.lt hk hlt)
  · exact mem_cons_of_mem _ (h.closed j hj k hk hlt)

theorem Inv.step {a : TargetAction} (h : s.Inv ops) (hs : s.step ops a = some t) : t.Inv ops := by
  cases a with
  | arrive i =>
    obtain ⟨hmay, hs⟩ := Option.ite_none_right_eq_some.mp hs
    split at hs
    · next hput =>
      cases hs
      refine ⟨h.closed_cons hmay, forall_mem_cons.mpr ⟨.inl hput, h.sends⟩, fun k => ?_,
        h.pending, ?_⟩
      · simp only [mem_append, mem_cons, ← h.arrived]
        tauto
      · simpa [filter_append, hput] using h.sorted
    · next hamo =>
      cases hs
      refine ⟨h.closed_cons hmay, forall_mem_cons.mpr ⟨.inr hamo, h.sends⟩, fun k => ?_,
        fun k hk => ?_, ?_⟩
      · simp only [mem_append, mem_cons, ← h.arrived]
        tauto
      · rcases mem_append.mp hk with hk | hk
        · exact h.pending k hk
        · rwa [mem_singleton.mp hk]
      · rw [← append_assoc]
        refine pairwise_append.mpr ⟨h.sorted, pairwise_singleton _ _, fun k hk k' hk' => ?_⟩
        -- an operation of a later epoch would have waited for this one
        rw [mem_singleton.mp hk']
        have hk := (h.arrived k).mp ((mem_append.mp hk).imp_left fun hk => (mem_filter.mp hk).1)
        exact Nat.le_of_not_lt fun hlt => hmay.1 (h.closed k hk i (.inr hamo) hlt)
    · cases hs
    · cases hs
  | processAmo =>
    obtain ⟨arrived, _ | ⟨i, pending⟩, effects⟩ := s
    · cases hs
    · cases hs
      refine ⟨h.closed, h.sends, fun k => ?_, fun k hk => h.pending k (mem_cons_of_mem _ hk), ?_⟩
      · rw [← h.arrived, mem_append, mem_singleton, mem_cons, or_assoc]
      · have hamo := h.pending i mem_cons_self
        simpa [filter_append, hamo] using h.sorted

/-- The operations arrive one after the other and the target performs no atomic. -/
theorem exists_arrived (ops : List Issue) (n : ℕ) : ∃ s, Reachable (step ops) init s ∧
    (∀ i, i ∈ s.arrived ↔ i < n ∧ Sends ops i) ∧
      ∀ i, i ∈ s.effects ↔ i < n ∧ ops[i]? = some .put := by
  induction n with
  | zero => exact ⟨init, ⟨[], rfl⟩, by simp [init], by simp [init]⟩
  | succ n ih =>
    obtain ⟨s, hs, harrived, heffects⟩ := ih
    have hmay : s.MayArrive ops n := by
      refine ⟨by simp [harrived], fun j _ hop hlt => (harrived j).mpr ⟨?_, hop⟩⟩
      by_contra hle
      exact absurd (epoch_le (Nat.le_of_not_lt hle)) hlt.not_ge
    simp only [Sends, Nat.lt_succ_iff_lt_or_eq] at harrived ⊢
    by_cases hput : ops[n]? = some .put
    · refine ⟨_, hs.tail (a := .arrive n) (by rw [step, if_pos hmay, hput]), fun i => ?_,
        fun i => ?_⟩ <;> simp only [mem_cons, mem_append, harrived, heffects] <;> grind
    by_cases hamo : ops[n]? = some .amo
    · refine ⟨_, hs.tail (a := .arrive n) (by rw [step, if_pos hmay, hamo]), fun i => ?_,
        fun i => ?_⟩ <;> simp only [mem_cons, harrived, heffects] <;> grind
    · refine ⟨s, hs, fun i => ?_, fun i => ?_⟩ <;> simp only [harrived, heffects] <;> grind

end Target

/-- Fences order puts and atomics exactly if no put comes after a fence that follows an atomic. -/
theorem keepsOrder_iff (ops : List Issue) : KeepsOrder ops ↔
    ∀ i j, ops[i]? = some .amo → ops[j]? = some .put → epoch ops j ≤ epoch ops i := by
  constructor
  · intro h i j hi hj
    by_contra hlt
    obtain ⟨s, hs, -, heffects⟩ := Target.exists_arrived ops (j + 1)
    have hj' := (heffects j).mpr ⟨Nat.lt_succ_self j, hj⟩
    have hi' := h s hs j hj' i (.inr hi) (Nat.lt_of_not_le hlt)
    cases hi.symm.trans ((heffects i).mp hi').2
  · intro h s hs j hj i hop hlt
    have hinv : s.Inv ops := by
      refine hs.invariant (I := Target.Inv ops) ?_ Target.Inv.step
      constructor <;> simp [Target.init]
    have hj' := (hinv.arrived j).mp (.inl hj)
    refine ((hinv.arrived i).mpr (hinv.closed j hj' i hop hlt)).resolve_right fun hpending => ?_
    rcases hinv.sends j hj' with hput | hamo
    · exact (h i j (hinv.pending i hpending) hput).not_gt hlt
    · have hmem : j ∈ s.effects.filter (ops[·]? = some .amo) :=
        mem_filter.mpr ⟨hj, decide_eq_true hamo⟩
      exact ((pairwise_append.mp hinv.sorted).2.2 j hmem i hpending).not_gt hlt

theorem not_keepsOrder_amoThenPut : ¬ KeepsOrder [.amo, .fence, .put] := by
  intro h
  have h0 := h ⟨[2, 0], [0], [2]⟩ ⟨[.arrive 0, .arrive 2], rfl⟩ 2 (by decide) 0 (by decide)
    (by decide)
  revert h0
  decide

end Nvshmem.Ucx
