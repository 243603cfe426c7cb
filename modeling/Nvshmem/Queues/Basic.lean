import Nvshmem.Transition.Exec

/-! # Queues that deliver in order

Items are posted one after the other, each on a queue, and are named by their positions in the
order of posting. A queue applies its items in order and then completes them in order; nothing
relates the queues.
-/

namespace Queues

open Transition Function Option List

variable {ι : Type*} [DecidableEq ι]

def Among (posted : List ι) (count : ι → ℕ) (k : ℕ) : Prop :=
  ∃ i ∈ posted[k]?, (posted.take k).count i < count i

instance (posted : List ι) (count : ι → ℕ) (k : ℕ) : Decidable (Among posted count k) :=
  inferInstanceAs (Decidable (∃ i ∈ _, _))

structure Net (ι : Type*) where
  posted : List ι
  applied : ι → ℕ
  completed : ι → ℕ

inductive Event (ι : Type*) where
  | post (i : ι)
  | apply (i : ι)
  | complete (i : ι)

namespace Net

variable (n : Net ι)

def step : Event ι → Option (Net ι)
  | .post i => some { n with posted := n.posted ++ [i] }
  | .apply i =>
    if n.applied i < n.posted.count i then
      some { n with applied := update n.applied i (n.applied i + 1) }
    else none
  | .complete i =>
    if n.completed i < n.applied i then
      some { n with completed := update n.completed i (n.completed i + 1) }
    else none

def Applied (k : ℕ) : Prop := Among n.posted n.applied k

def Completed (k : ℕ) : Prop := Among n.posted n.completed k

def Drained (i : ι) : Prop := n.posted.count i ≤ n.completed i

instance (k : ℕ) : Decidable (n.Applied k) := inferInstanceAs (Decidable (Among ..))

instance (k : ℕ) : Decidable (n.Completed k) := inferInstanceAs (Decidable (Among ..))

instance (i : ι) : Decidable (n.Drained i) := inferInstanceAs (Decidable (_ ≤ _))

structure Wf : Prop where
  applied_le : ∀ i, n.applied i ≤ n.posted.count i
  completed_le : ∀ i, n.completed i ≤ n.applied i

end Net

section Among

variable {posted : List ι} {count : ι → ℕ} {k k' : ℕ} {i : ι}

theorem Among.lt_length (h : Among posted count k) : k < posted.length := by
  obtain ⟨i, hi, -⟩ := h
  exact (List.getElem?_eq_some_iff.mp hi).1

theorem Among.of_le (h : Among posted count k') (hk : k ≤ k') (hq : posted[k]? = posted[k']?) :
    Among posted count k := by
  obtain ⟨i, hi, hlt⟩ := h
  refine ⟨i, hq ▸ hi, (List.Sublist.count_le i ?_).trans_lt hlt⟩
  exact (take_prefix_take_left hk).sublist

theorem Among.mono {count' : ι → ℕ} (h : Among posted count k) (hle : ∀ i, count i ≤ count' i) :
    Among posted count' k := by
  obtain ⟨i, hi, hlt⟩ := h
  exact ⟨i, hi, hlt.trans_le (hle i)⟩

theorem count_take_lt (hi : posted[k]? = some i) : (posted.take k).count i < posted.count i := by
  obtain ⟨hk, rfl⟩ := List.getElem?_eq_some_iff.mp hi
  have hsplit := congrArg (count posted[k]) (take_append_drop k posted)
  rw [count_append, drop_eq_getElem_cons hk, count_cons_self] at hsplit
  omega

theorem among_of_count_le (hi : posted[k]? = some i) (hle : posted.count i ≤ count i) :
    Among posted count k :=
  ⟨i, hi, (count_take_lt hi).trans_le hle⟩

theorem among_append {l : List ι} (hk : k < posted.length) :
    Among (posted ++ l) count k ↔ Among posted count k := by
  rw [Among, Among, getElem?_append_left hk, take_append_of_le_length hk.le]

theorem not_among (hi : posted[k]? = some i) (hle : count i ≤ (posted.take k).count i) :
    ¬ Among posted count k := by
  rintro ⟨j, hj, hlt⟩
  cases hi.symm.trans hj
  omega

end Among

namespace Net

variable {n n' : Net ι} {e : Event ι} {i : ι} {k m : ℕ}

theorem step_apply : n.step (.apply i) = some n' ↔ n.applied i < n.posted.count i ∧
    { n with applied := update n.applied i (n.applied i + 1) } = n' := by
  rw [step, ite_none_right_eq_some, some.injEq]

theorem step_complete : n.step (.complete i) = some n' ↔ n.completed i < n.applied i ∧
    { n with completed := update n.completed i (n.completed i + 1) } = n' := by
  rw [step, ite_none_right_eq_some, some.injEq]

theorem posted_prefix_of_step (h : n.step e = some n') : n.posted <+: n'.posted := by
  cases e with
  | post i => exact some.inj h ▸ prefix_append _ _
  | apply i => exact (step_apply.mp h).2 ▸ prefix_rfl
  | complete i => exact (step_complete.mp h).2 ▸ prefix_rfl

theorem applied_le_of_step (h : n.step e = some n') (i : ι) : n.applied i ≤ n'.applied i := by
  cases e with
  | post j => exact (some.inj h ▸ le_rfl)
  | apply j =>
    rw [← (step_apply.mp h).2]
    simp only [update_apply]
    split
    · next heq => exact heq ▸ Nat.le_succ _
    · exact le_rfl
  | complete j => exact (step_complete.mp h).2 ▸ le_rfl

theorem completed_le_of_step (h : n.step e = some n') (i : ι) :
    n.completed i ≤ n'.completed i := by
  cases e with
  | post j => exact (some.inj h ▸ le_rfl)
  | apply j => exact (step_apply.mp h).2 ▸ le_rfl
  | complete j =>
    rw [← (step_complete.mp h).2]
    simp only [update_apply]
    split
    · next heq => exact heq ▸ Nat.le_succ _
    · exact le_rfl

theorem Wf.step (hw : n.Wf) (h : n.step e = some n') : n'.Wf := by
  cases e with
  | post j =>
    rw [← some.inj h]
    refine ⟨fun i => (hw.applied_le i).trans ?_, hw.completed_le⟩
    rw [count_append]
    exact Nat.le_add_right _ _
  | apply j =>
    obtain ⟨hlt, rfl⟩ := step_apply.mp h
    refine ⟨fun i => ?_, fun i => (hw.completed_le i).trans (applied_le_of_step h i)⟩
    simp only [update_apply]
    split
    · next heq => exact heq ▸ hlt
    · exact hw.applied_le i
  | complete j =>
    obtain ⟨hlt, rfl⟩ := step_complete.mp h
    refine ⟨hw.applied_le, fun i => ?_⟩
    simp only [update_apply]
    split
    · next heq => exact heq ▸ hlt
    · exact hw.completed_le i

theorem Completed.step (hc : n.Completed k) (h : n.step e = some n') : n'.Completed k := by
  obtain ⟨l, hl⟩ := posted_prefix_of_step h
  rw [Completed, ← hl, among_append hc.lt_length]
  exact hc.mono (completed_le_of_step h)

theorem Completed.applied (hc : n.Completed k) (hw : n.Wf) : n.Applied k :=
  hc.mono hw.completed_le

theorem reachable_apply (hlo : n.applied i ≤ m) (hhi : m ≤ n.posted.count i) :
    Reachable step n { n with applied := update n.applied i m } := by
  induction m, hlo using Nat.le_induction with
  | base => exact ⟨[], by simp [exec]⟩
  | succ m hlo ih =>
    refine (ih (by omega)).tail ((step_apply (i := i)).mpr ⟨by simpa using hhi, ?_⟩)
    simp

theorem reachable_complete (hlo : n.completed i ≤ m) (hhi : m ≤ n.applied i) :
    Reachable step n { n with completed := update n.completed i m } := by
  induction m, hlo using Nat.le_induction with
  | base => exact ⟨[], by simp [exec]⟩
  | succ m hlo ih =>
    refine (ih (by omega)).tail ((step_complete (i := i)).mpr ⟨by simpa using hhi, ?_⟩)
    simp

theorem Wf.exists_drained (hw : n.Wf) (i : ι) : ∃ n', Reachable Net.step n n' ∧ n'.Wf ∧
    n'.posted = n.posted ∧ n'.Drained i ∧
      (∀ j, n.Drained j → n'.Drained j) ∧ ∀ j, j ≠ i → n'.applied j = n.applied j := by
  have hcount : n.completed i ≤ n.posted.count i := (hw.completed_le i).trans (hw.applied_le i)
  have happly := reachable_apply (hw.applied_le i) (le_refl (n.posted.count i))
  have hcomplete := @reachable_complete _ _
    { n with applied := update n.applied i (n.posted.count i) } i (n.posted.count i)
    hcount (by simp)
  have hreach := happly.trans hcomplete
  refine ⟨_, hreach, hreach.invariant hw fun hw h => hw.step h, rfl, by simp [Drained],
    fun j hj => ?_, fun j hj => update_of_ne hj ..⟩
  simp only [Drained, update_apply] at hj ⊢
  split
  · next heq => exact heq ▸ le_rfl
  · exact hj

theorem Wf.not_applied (hw : n.Wf) (hpre : n.posted <+: n'.posted)
    (happ : n'.applied i = n.applied i) (hk : n.posted.length ≤ k)
    (hi : n'.posted[k]? = some i) : ¬ n'.Applied k := by
  refine not_among hi ?_
  have htake : n.posted <+: n'.posted.take k := prefix_take_iff.mpr ⟨hpre, hk⟩
  calc n'.applied i = n.applied i := happ
    _ ≤ n.posted.count i := hw.applied_le i
    _ ≤ (n'.posted.take k).count i := htake.sublist.count_le i

end Net

end Queues
