import Nvshmem.Ibgda.Rc
import Nvshmem.Transition.Exec

/-! # Quiet on chosen queue pairs

The threads of a group divide the queue pairs that a list of handles and a PE hint select among
themselves, and wait for each until what is ready on it when they look has completed. Meanwhile
others go on posting, and the NIC completes what is ready.
-/

namespace Nvshmem.Ibgda

open Loops Transition List Option Function Option List Nat Device

/-- The default handle or the handle for all queue pairs, as a list of one or by the count alone, or
handles of the user's queue pairs, which are named by their numbers. -/
inductive Argument where
  | default (null : Bool)
  | all (null : Bool)
  | user (ks : List ℕ)

/-- A call of `nvshmemi_ibgda_qp_quiet` by a group of threads. -/
structure Quiet where
  dev : Device
  arg : Argument
  peHint : ℕ
  groupSize : ℕ
  groupSize_pos : 0 < groupSize
  peHint_valid : peHint < dev.npes ∨ peHint = peAny
  user_valid : ∀ ks, arg = .user ks →
    ks ≠ [] ∧ ks.length ≤ intMax ∧ ∀ k ∈ ks, k < dev.numUserQps

namespace Quiet

variable (q : Quiet)

def qpHandle : Option (List ℕ) :=
  match q.arg with
  | .default true | .all true => none
  | .default false => some [qpDefault]
  | .all false => some [qpAll]
  | .user ks => some (ks.map q.dev.handle)

def numQps : ℕ :=
  match q.arg with
  | .default _ => 1
  | .all true => qpAll
  | .all false => 1
  | .user ks => ks.length

def handles : List ℕ :=
  match q.arg with
  | .default _ => [qpDefault]
  | .all _ => [qpAll]
  | .user ks => ks.map q.dev.handle

def firstIs (qpIndex : ℕ) : Prop := ∃ l, q.qpHandle = some l ∧ l.head? = some qpIndex

instance (qpIndex : ℕ) : Decidable (q.firstIs qpIndex) :=
  decidable_of_iff (q.qpHandle.bind head? = some qpIndex) bind_eq_some_iff

/-- `nrcs` and the list of handles that remains. -/
def selection : ℕ × Option (List ℕ) :=
  if q.numQps = qpAll ∨ q.firstIs qpAll then
    (q.dev.numRcPerPe * q.dev.numDevicesInitialized, none)
  else if q.numQps = qpDefault ∨ q.firstIs qpDefault then
    (q.dev.numDefaultRcPerPe * q.dev.numDevicesInitialized, none)
  else (min q.numQps (q.dev.numRcPerPe * q.dev.numDevicesInitialized), q.qpHandle)

def nrcs : ℕ := q.selection.1

def npes : ℕ := if q.peHint = peAny then q.dev.npes else 1

def startPe : ℕ := if q.peHint = peAny then 0 else q.peHint

def scopeSize : ℕ := if 32 < q.groupSize then 32 else q.groupSize

def qpOf (i : ℕ) : Option ℕ :=
  let qpIdx := i % q.nrcs
  let peIdx := i / q.nrcs + q.startPe
  if peIdx = q.dev.mype then none
  else if peIdx < q.startPe ∨ q.startPe + q.npes ≤ peIdx then none
  else
    match q.selection.2 with
    | none => some (qpIdx * q.dev.npes + peIdx)
    | some l => l[qpIdx]?.map (· + peIdx)

def polls (indexInScope : ℕ) : List ℕ :=
  if indexInScope < q.scopeSize then
    (strided indexInScope (q.nrcs * q.npes) q.scopeSize).filterMap q.qpOf
  else []

def Covers (pe : ℕ) : Prop := q.peHint = peAny ∨ pe = q.peHint

end Quiet

/-- An operation that was posted through `ibgda_get_rc`: its last WQE is the one before `last`. -/
structure Op where
  qpIndex : ℕ
  pe : ℕ
  rc : ℕ
  last : ℕ
deriving DecidableEq

namespace Quiet

structure State where
  switches : Switches
  readyHead : ℕ → ℕ
  completed : ℕ → ℕ
  ops : List Op
  /-- The operations from before the start of the quiet. -/
  earlier : Option (List Op)
  /-- The queue pairs that each thread still has to wait for. -/
  pending : ℕ → List ℕ
  /-- The ready head up to which a thread polls the first of them. -/
  target : ℕ → Option ℕ

inductive Action where
  | post (qpIndex pe numWqes : ℕ)
  | complete (rc : ℕ)
  | start
  | read (t : ℕ)
  | wait (t : ℕ)

namespace State

def init : State := ⟨fun _ => 0, fun _ => 0, fun _ => 0, [], none, fun _ => [], fun _ => none⟩

variable (q : Quiet) (s : State)

def Enabled : Action → Prop
  | .post qpIndex pe _ => q.dev.Valid qpIndex ∧ pe < q.dev.npes ∧ pe ≠ q.dev.mype
  | .complete rc => s.completed rc < s.readyHead rc
  | .start => s.earlier = none
  | .read t => s.pending t ≠ [] ∧ s.target t = none
  | .wait t => ∃ rc ∈ (s.pending t).head?, ∃ n ∈ s.target t, n ≤ s.completed rc

def effect : Action → State
  | .post qpIndex pe numWqes =>
    let rc := (q.dev.getRc s.switches pe qpIndex).1
    let last := s.readyHead rc + numWqes
    { s with
      switches := (q.dev.getRc s.switches pe qpIndex).2
      readyHead := update s.readyHead rc last
      ops := s.ops ++ [⟨qpIndex, pe, rc, last⟩] }
  | .complete rc => { s with completed := update s.completed rc (s.completed rc + 1) }
  | .start => { s with earlier := some s.ops, pending := q.polls }
  | .read t =>
    { s with target := update s.target t ((s.pending t).head?.map s.readyHead) }
  | .wait t =>
    { s with
      pending := update s.pending t (s.pending t).tail
      target := update s.target t none }

instance (a : Action) : Decidable (s.Enabled q a) := by
  cases a <;> unfold Enabled <;> infer_instance

def step (a : Action) : Option State := if s.Enabled q a then some (s.effect q a) else none

def Returned : Prop := s.earlier.isSome ∧ ∀ t < q.groupSize, s.pending t = []

end State

/-- Whenever all threads have returned, the operations from before the start with one of the handles
and towards a PE that the hint covers have completed. -/
def Quiets (q : Quiet) (handles : List ℕ) : Prop :=
  ∀ s, Reachable (State.step q) .init s → s.Returned q → ∀ l ∈ s.earlier, ∀ op ∈ l,
    op.qpIndex ∈ handles → q.Covers op.pe → op.last ≤ s.completed op.rc

def Remote (q : Quiet) : Prop := ∃ pe < q.dev.npes, q.Covers pe ∧ pe ≠ q.dev.mype

/-- A list of the user's handles has at least two entries, and those that count are all of them. -/
def Counted (q : Quiet) : Prop :=
  match q.arg with
  | .user ks =>
    ks.length ≠ 1 ∧
      if ks.length = intMax then
        ∀ k ∈ ks, k < q.dev.numUserQps / q.dev.numDevicesInitialized * q.dev.numDevicesInitialized
      else ∀ k ∈ ks, k ∈ ks.take (q.dev.numRcPerPe * q.dev.numDevicesInitialized)
  | _ => True

end Quiet

namespace Quiet

variable {q : Quiet} {qp pe i rc : ℕ}

def Polls (q : Quiet) (qp : ℕ) : Prop :=
  match q.selection.2 with
  | none => qp < q.nrcs
  | some l => ∃ i < q.nrcs, l[i]? = some (qp * q.dev.npes)

theorem covers_iff (hpe : pe < q.dev.npes) :
    q.Covers pe ↔ q.startPe ≤ pe ∧ pe < q.startPe + q.npes := by
  rw [Covers, startPe, npes]
  split
  · next h =>
    simp [h, hpe]
  · next h =>
    omega

theorem lt_npes_of_lt (h : pe < q.startPe + q.npes) : pe < q.dev.npes := by
  have hvalid := q.peHint_valid
  rw [startPe, npes] at h
  split at h
  · simpa using h
  · next hne =>
    have := hvalid.resolve_right hne
    omega

theorem exists_of_selection {l : List ℕ} {x : ℕ} (hl : q.selection.2 = some l) (hx : x ∈ l) :
    ∃ a, x = a * q.dev.npes := by
  rw [selection] at hl
  split at hl
  · simp at hl
  · next hall =>
    split at hl
    · simp at hl
    · next hdefault =>
      rw [not_or] at hall hdefault
      cases harg : q.arg with
      | default null => exact absurd (by simp [numQps, harg, qpDefault]) hdefault.1
      | all null =>
        cases null with
        | true => exact absurd (by simp [numQps, harg]) hall.1
        | false => exact absurd (by simp [numQps, harg, qpDefault]) hdefault.1
      | user ks =>
        simp only [qpHandle, harg, some.injEq] at hl
        rw [← hl] at hx
        obtain ⟨k, -, rfl⟩ := mem_map.mp hx
        exact ⟨_, rfl⟩

theorem scopeSize_pos : 0 < q.scopeSize ∧ q.scopeSize ≤ q.groupSize := by
  have := q.groupSize_pos
  rw [scopeSize]
  split <;> omega

theorem exists_mem_polls : (∃ t < q.groupSize, rc ∈ q.polls t) ↔
    ∃ i < q.nrcs * q.npes, q.qpOf i = some rc := by
  obtain ⟨hpos, hle⟩ := q.scopeSize_pos
  constructor
  · rintro ⟨t, -, hmem⟩
    rw [polls] at hmem
    split at hmem
    · next ht =>
      obtain ⟨i, hi, heq⟩ := mem_filterMap.mp hmem
      exact ⟨i, ((mem_strided_thread ht).mp hi).1, heq⟩
    · exact absurd hmem not_mem_nil
  · rintro ⟨i, hi, heq⟩
    obtain ⟨t, ht, hmem⟩ := exists_mem_strided hpos hi
    refine ⟨t, ht.trans_le hle, ?_⟩
    rw [polls, if_pos ht]
    exact mem_filterMap.mpr ⟨i, hmem, heq⟩

theorem qpOf_eq (hi : i < q.nrcs * q.npes) (hpe : pe < q.dev.npes) :
    q.qpOf i = some (qp * q.dev.npes + pe) ↔
      pe = i / q.nrcs + q.startPe ∧ pe ≠ q.dev.mype ∧
        match q.selection.2 with
        | none => qp = i % q.nrcs
        | some l => l[i % q.nrcs]? = some (qp * q.dev.npes) := by
  have hdiv : i / q.nrcs < q.npes := Nat.div_lt_of_lt_mul hi
  have hlt : i / q.nrcs + q.startPe < q.dev.npes := lt_npes_of_lt (by omega)
  simp only [qpOf]
  split_ifs with hmype hrange
  · refine iff_of_false id ?_
    rintro ⟨rfl, hne, -⟩
    exact hne hmype
  · generalize i / q.nrcs = d at *
    omega
  · cases hl : q.selection.2 with
    | none =>
      simp only [some.injEq]
      constructor
      · intro h
        obtain ⟨rfl, rfl⟩ := position_inj hlt hpe h
        exact ⟨rfl, hmype, rfl⟩
      · rintro ⟨rfl, -, rfl⟩
        rfl
    | some l =>
      simp only [map_eq_some_iff]
      constructor
      · rintro ⟨x, hx, h⟩
        obtain ⟨a, rfl⟩ := exists_of_selection hl (mem_of_getElem? hx)
        obtain ⟨rfl, rfl⟩ := position_inj hlt hpe h
        exact ⟨rfl, hmype, hx⟩
      · rintro ⟨rfl, -, hx⟩
        exact ⟨_, hx, rfl⟩

theorem mem_polls (hpe : pe < q.dev.npes) :
    (∃ t < q.groupSize, qp * q.dev.npes + pe ∈ q.polls t) ↔
      q.Polls qp ∧ q.Covers pe ∧ pe ≠ q.dev.mype := by
  rw [exists_mem_polls, covers_iff hpe, Polls]
  constructor
  · rintro ⟨i, hi, heq⟩
    obtain ⟨rfl, hne, hqp⟩ := (qpOf_eq hi hpe).mp heq
    have hpos : 0 < q.nrcs := Nat.pos_of_mul_pos_right (zero_lt_of_lt hi)
    have hdiv : i / q.nrcs < q.npes := Nat.div_lt_of_lt_mul hi
    have hmod := mod_lt i hpos
    refine ⟨?_, ⟨Nat.le_add_left _ _, by rw [Nat.add_comm]; exact Nat.add_lt_add_left hdiv _⟩, hne⟩
    cases hl : q.selection.2 with
    | none =>
      simp only [hl] at hqp
      exact hqp ▸ hmod
    | some l =>
      simp only [hl] at hqp
      exact ⟨_, hmod, hqp⟩
  · rintro ⟨hqp, ⟨hlo, hhi⟩, hne⟩
    -- the iteration for the queue pair at an index of the selection
    have key : ∀ j < q.nrcs, (pe - q.startPe) * q.nrcs + j < q.nrcs * q.npes ∧
        ((pe - q.startPe) * q.nrcs + j) / q.nrcs + q.startPe = pe ∧
        ((pe - q.startPe) * q.nrcs + j) % q.nrcs = j := by
      intro j hj
      refine ⟨?_, ?_, ?_⟩
      · calc (pe - q.startPe) * q.nrcs + j < (pe - q.startPe) * q.nrcs + q.nrcs := by omega
          _ = (pe - q.startPe + 1) * q.nrcs := by ring
          _ ≤ q.npes * q.nrcs := Nat.mul_le_mul_right _ (by omega)
          _ = q.nrcs * q.npes := Nat.mul_comm _ _
      · rw [Nat.mul_comm, mul_add_div (zero_lt_of_lt hj), div_eq_of_lt hj]
        omega
      · rw [mul_add_mod_self_right, mod_eq_of_lt hj]
    cases hl : q.selection.2 with
    | none =>
      simp only [hl] at hqp
      obtain ⟨hi, hdiv, hmod⟩ := key qp hqp
      refine ⟨_, hi, (qpOf_eq hi hpe).mpr ⟨hdiv.symm, hne, ?_⟩⟩
      simp only [hl, hmod]
    | some l =>
      simp only [hl] at hqp
      obtain ⟨j, hj, hqp⟩ := hqp
      obtain ⟨hi, hdiv, hmod⟩ := key j hj
      refine ⟨_, hi, (qpOf_eq hi hpe).mpr ⟨hdiv.symm, hne, ?_⟩⟩
      simp only [hl, hmod, hqp]

end Quiet

namespace Quiet.State

variable {q : Quiet} {s s' : State} {a : Action} {t rc : ℕ}

theorem step_eq_some : s.step q a = some s' ↔ s.Enabled q a ∧ s.effect q a = s' := by
  rw [step, ite_none_right_eq_some, some.injEq]

structure Inv (q : Quiet) (s : State) : Prop where
  ready : ∀ op ∈ s.ops, op.last ≤ s.readyHead op.rc
  selected : ∀ op ∈ s.ops, op.pe < q.dev.npes ∧ op.pe ≠ q.dev.mype ∧
    ∃ qp, q.dev.Selects op.qpIndex qp ∧ op.rc = qp * q.dev.npes + op.pe
  earlier : ∀ l ∈ s.earlier, ∀ op ∈ l, op ∈ s.ops
  target : ∀ t, ∀ n ∈ s.target t, ∃ rc ∈ (s.pending t).head?, ∀ l ∈ s.earlier, ∀ op ∈ l,
    op.rc = rc → op.last ≤ n
  done : ∀ l ∈ s.earlier, ∀ t, ∀ rc ∈ q.polls t, rc ∉ s.pending t → ∀ op ∈ l, op.rc = rc →
    op.last ≤ s.completed rc
  pending : s.earlier = none → ∀ t, s.pending t = []

theorem inv_init : Inv q init where
  ready _ h := absurd h not_mem_nil
  selected _ h := absurd h not_mem_nil
  earlier _ h := by simp [init] at h
  target _ _ h := by simp [init] at h
  done _ h := by simp [init] at h
  pending _ _ := rfl

theorem Inv.post (h : Inv q s) {qpIndex pe numWqes : ℕ}
    (he : s.Enabled q (.post qpIndex pe numWqes)) :
    Inv q (s.effect q (.post qpIndex pe numWqes)) := by
  obtain ⟨hvalid, hpe, hne⟩ := he
  have hmono : ∀ rc, s.readyHead rc ≤
      (s.effect q (.post qpIndex pe numWqes)).readyHead rc := by
    intro rc
    simp only [effect, update_apply]
    split
    · next heq => exact heq ▸ Nat.le_add_right _ _
    · exact le_rfl
  refine ⟨?_, ?_, ?_, h.target, h.done, h.pending⟩
  · intro op hop
    rcases mem_append.mp hop with hop | hop
    · exact (h.ready op hop).trans (hmono op.rc)
    · rw [mem_singleton.mp hop]
      simp [effect]
  · intro op hop
    rcases mem_append.mp hop with hop | hop
    · exact h.selected op hop
    · rw [mem_singleton.mp hop]
      exact ⟨hpe, hne, getRc_eq hvalid⟩
  · intro l hl op hop
    exact mem_append_left _ (h.earlier l hl op hop)

theorem Inv.complete (h : Inv q s) : Inv q (s.effect q (.complete rc)) := by
  refine ⟨h.ready, h.selected, h.earlier, h.target, ?_, h.pending⟩
  intro l hl t rc' hrc' hnot op hop heq
  refine (h.done l hl t rc' hrc' hnot op hop heq).trans ?_
  simp only [effect, update_apply]
  split
  · next hrc => exact hrc ▸ le_succ _
  · exact le_rfl

theorem Inv.start (h : Inv q s) (he : s.Enabled q .start) : Inv q (s.effect q .start) := by
  refine ⟨h.ready, h.selected, ?_, ?_, ?_, ?_⟩
  · rintro l hl op hop
    exact some.inj hl ▸ hop
  · intro t n hn
    obtain ⟨rc, hrc, -⟩ := h.target t n hn
    simp [h.pending he t] at hrc
  · intro l _ t rc hrc hnot
    exact absurd hrc hnot
  · intro hnone
    simp [effect] at hnone

theorem Inv.read (h : Inv q s) (he : s.Enabled q (.read t)) :
    Inv q (s.effect q (.read t)) := by
  refine ⟨h.ready, h.selected, h.earlier, ?_, h.done, h.pending⟩
  intro t' n hn
  simp only [effect, update_apply] at hn
  split at hn
  · next heq =>
    subst heq
    obtain ⟨rc, hrc, rfl⟩ := map_eq_some_iff.mp hn
    refine ⟨rc, hrc, fun l hl op hop heq => ?_⟩
    exact heq ▸ h.ready op (h.earlier l hl op hop)
  · exact h.target t' n hn

theorem Inv.wait (h : Inv q s) (he : s.Enabled q (.wait t)) :
    Inv q (s.effect q (.wait t)) := by
  obtain ⟨rc, hrc, n, hn, hle⟩ := he
  obtain ⟨rest, hpend⟩ : ∃ rest, s.pending t = rc :: rest := head?_eq_some_iff.mp hrc
  obtain ⟨rc', hrc', htarget⟩ := h.target t n hn
  obtain rfl : rc = rc' := some.inj (hrc.symm.trans hrc')
  refine ⟨h.ready, h.selected, h.earlier, ?_, ?_, ?_⟩
  · intro t' m hm
    simp only [effect, update_apply] at hm ⊢
    split at hm
    · simp at hm
    · next hne =>
      rw [if_neg hne]
      exact h.target t' m hm
  · intro l hl t' rc' hpoll hnot op hop heq
    simp only [effect, update_apply] at hnot
    split at hnot
    · next hteq =>
      rw [hpend] at hnot
      by_cases hrceq : rc' = rc
      · subst hrceq
        exact (htarget l hl op hop heq).trans hle
      · refine h.done l hl t' rc' hpoll ?_ op hop heq
        rw [hteq, hpend]
        exact not_mem_cons_of_ne_of_not_mem hrceq hnot
    · exact h.done l hl t' rc' hpoll hnot op hop heq
  · intro hnone t'
    simp only [effect, update_apply]
    split
    · rw [h.pending hnone t, tail_nil]
    · exact h.pending hnone t'

theorem Inv.step (h : Inv q s) (hs : State.step q s a = some s') : Inv q s' := by
  obtain ⟨he, rfl⟩ := step_eq_some.mp hs
  cases a with
  | post qpIndex pe numWqes => exact h.post he
  | complete rc => exact h.complete
  | start => exact h.start he
  | read t => exact h.read he
  | wait t => exact h.wait he

theorem inv_of_reachable (h : Reachable (step q) init s) : Inv q s :=
  h.invariant inv_init fun hi hs => hi.step hs

theorem exists_polled {l : List ℕ} (hp : s.pending t = l) (ht : s.target t = none)
    (hready : ∀ rc ∈ l, s.readyHead rc ≤ s.completed rc) :
    Reachable (step q) s { s with pending := update s.pending t [] } := by
  induction l generalizing s with
  | nil =>
    rw [← hp, update_eq_self]
    exact ⟨[], rfl⟩
  | cons rc l ih =>
    have hread : step q s (.read t) =
        some { s with target := update s.target t (some (s.readyHead rc)) } := by
      refine step_eq_some.mpr ⟨⟨by rw [hp]; exact cons_ne_nil _ _, ht⟩, ?_⟩
      simp [effect, hp]
    have hwait : step q { s with target := update s.target t (some (s.readyHead rc)) }
        (.wait t) = some { s with pending := update s.pending t l } := by
      refine step_eq_some.mpr ⟨⟨rc, by simp [hp], s.readyHead rc, by simp, ?_⟩, ?_⟩
      · exact hready rc mem_cons_self
      · simp only [effect, hp, tail_cons, update_idem]
        rw [← ht, update_eq_self]
    have hrest := @ih { s with pending := update s.pending t l } (update_self ..)
      ht fun rc' hrc' => hready rc' (mem_cons_of_mem _ hrc')
    simp only [update_idem] at hrest
    exact Reachable.trans ⟨[.read t, .wait t],
      exec_cons_eq_some.mpr ⟨_, hread, exec_cons_eq_some.mpr ⟨_, hwait, rfl⟩⟩⟩ hrest

theorem exists_returned (htarget : ∀ t, s.target t = none)
    {n : ℕ} (hready : ∀ t < n, ∀ rc ∈ s.pending t, s.readyHead rc ≤ s.completed rc) :
    Reachable (step q) s { s with pending := fun t => if t < n then [] else s.pending t } := by
  induction n with
  | zero => exact ⟨[], by simp [exec]⟩
  | succ n ih =>
    refine (ih fun t ht => hready t (by omega)).trans ?_
    have hnext := @exists_polled q { s with pending := fun t => if t < n then [] else s.pending t }
      n _ rfl (htarget n) fun rc hrc => hready n (by omega) rc (by simpa using hrc)
    convert hnext using 2
    funext t
    simp only [update_apply]
    split_ifs <;> first | rfl | omega

end Quiet.State

namespace Quiet

variable {q : Quiet} {qpIndex qp pe : ℕ}

theorem quiets_of_polls {handles : List ℕ}
    (h : ∀ qpIndex ∈ handles, ∀ qp, q.dev.Selects qpIndex qp → ∀ pe < q.dev.npes, q.Covers pe →
      pe ≠ q.dev.mype → q.Polls qp) : q.Quiets handles := by
  intro s hs hret l hl op hop hhandle hcovers
  have hi := State.inv_of_reachable hs
  obtain ⟨hpe, hne, qp, hsel, hrc⟩ := hi.selected op (hi.earlier l hl op hop)
  obtain ⟨t, ht, hmem⟩ :=
    (mem_polls hpe).mpr ⟨h _ hhandle qp hsel op.pe hpe hcovers hne, hcovers, hne⟩
  rw [← hrc] at hmem
  exact hi.done l hl t op.rc hmem (by simp [hret.2 t ht]) op hop rfl

theorem not_quiets_of_not_polls {handles : List ℕ} (hhandle : qpIndex ∈ handles)
    (hvalid : q.dev.Valid qpIndex) (hpe : pe < q.dev.npes) (hcovers : q.Covers pe)
    (hne : pe ≠ q.dev.mype)
    (hrc : (q.dev.getRc (fun _ => 0) pe qpIndex).1 = qp * q.dev.npes + pe) (hnot : ¬ q.Polls qp) :
    ¬ q.Quiets handles := by
  intro h
  set s₁ := State.init.effect q (.post qpIndex pe 1) with hs₁
  set s₂ := s₁.effect q .start with hs₂
  have hpost : State.step q .init (.post qpIndex pe 1) = some s₁ :=
    State.step_eq_some.mpr ⟨⟨hvalid, hpe, hne⟩, rfl⟩
  have hstart : State.step q s₁ .start = some s₂ := State.step_eq_some.mpr ⟨rfl, rfl⟩
  have hready : ∀ t < q.groupSize, ∀ rc ∈ s₂.pending t, s₂.readyHead rc ≤ s₂.completed rc := by
    intro t ht rc hmem
    have hrcne : rc ≠ qp * q.dev.npes + pe := by
      rintro rfl
      exact hnot ((mem_polls hpe).mp ⟨t, ht, hmem⟩).1
    simp [hs₂, hs₁, State.effect, State.init, hrc, hrcne]
  have hreturn := @State.exists_returned q s₂ (fun _ => rfl) q.groupSize hready
  have hreach := Reachable.trans ⟨[.post qpIndex pe 1, .start],
    exec_cons_eq_some.mpr ⟨s₁, hpost, exec_cons_eq_some.mpr ⟨s₂, hstart, rfl⟩⟩⟩ hreturn
  have hlast := h _ hreach ⟨rfl, fun t ht => if_pos ht⟩ _ rfl _ (mem_singleton_self _) hhandle
    hcovers
  simp [hs₂, hs₁, State.effect, State.init] at hlast

theorem selection_default {null : Bool} (h : q.arg = .default null) :
    q.selection = (q.dev.numDefault, none) := by
  have hnum : q.numQps = qpDefault := by simp [numQps, h, qpDefault]
  have hfirst : ¬ q.firstIs qpAll := by
    cases null with
    | true => simp [firstIs, qpHandle, h]
    | false => simp [firstIs, qpHandle, h, qpDefault, qpAll, intMax]
  rw [selection, if_neg (not_or.mpr ⟨by rw [hnum]; decide, hfirst⟩), if_pos (.inl hnum),
    numDefault]

theorem selection_all {null : Bool} (h : q.arg = .all null) :
    q.selection = (q.dev.numRcPerPe * q.dev.numDevicesInitialized, none) := by
  rw [selection, if_pos]
  cases null with
  | true => exact .inl (by simp [numQps, h])
  | false => exact .inr ⟨[qpAll], by simp [qpHandle, h], rfl⟩

section User

variable {ks : List ℕ} (h : q.arg = .user ks)

include h

theorem selection_user_max (hlen : ks.length = intMax) :
    q.selection = (q.dev.numRcPerPe * q.dev.numDevicesInitialized, none) := by
  have hnum : q.numQps = ks.length := by simp [numQps, h]
  rw [selection, if_pos (.inl (hnum.trans hlen))]

theorem not_firstIs {qpIndex : ℕ} (hne : ∀ k ∈ ks, q.dev.handle k ≠ qpIndex) :
    ¬ q.firstIs qpIndex := by
  rintro ⟨l, hl, hhead⟩
  simp only [qpHandle, h, some.injEq] at hl
  rw [← hl, head?_map] at hhead
  obtain ⟨k, hk, heq⟩ := map_eq_some_iff.mp hhead
  exact hne k (mem_of_head? hk) heq

theorem selection_user_one (hlen : ks.length = 1) : q.selection = (q.dev.numDefault, none) := by
  have hvalid := (q.user_valid ks h).2.2
  have hnum : q.numQps = ks.length := by simp [numQps, h]
  have hfirst : ¬ q.firstIs qpAll := not_firstIs h fun k hk => handle_ne_qpAny (hvalid k hk)
  rw [selection, if_neg (not_or.mpr ⟨by rw [hnum, hlen]; decide, hfirst⟩),
    if_pos (.inl (hnum.trans hlen)), numDefault]

variable (hnpes : 1 < q.dev.npes)

include hnpes

theorem selection_user (hone : ks.length ≠ 1) (hmax : ks.length ≠ intMax) :
    q.selection = (min ks.length (q.dev.numRcPerPe * q.dev.numDevicesInitialized),
      some (ks.map q.dev.handle)) := by
  have hvalid := (q.user_valid ks h).2.2
  have hnum : q.numQps = ks.length := by simp [numQps, h]
  have hall : ¬ q.firstIs qpAll := not_firstIs h fun k hk => handle_ne_qpAny (hvalid k hk)
  have hdefault := not_firstIs h fun k _ => handle_ne_qpDefault hnpes
  rw [selection, if_neg (not_or.mpr ⟨by rwa [hnum], hall⟩),
    if_neg (not_or.mpr ⟨by rwa [hnum], hdefault⟩), hnum]
  simp [qpHandle, h]

theorem polls_user {k : ℕ} : q.Polls (q.dev.numDefault + k) ↔
    ks.length ≠ 1 ∧ if ks.length = intMax then
      k < q.dev.numUserQps / q.dev.numDevicesInitialized * q.dev.numDevicesInitialized
    else k ∈ ks.take (q.dev.numRcPerPe * q.dev.numDevicesInitialized) := by
  by_cases hone : ks.length = 1
  · rw [Polls, nrcs, selection_user_one h hone]
    refine iff_of_false ?_ fun hne => hne.1 hone
    exact Nat.not_lt.mpr (Nat.le_add_right _ _)
  by_cases hmax : ks.length = intMax
  · rw [Polls, nrcs, selection_user_max h hmax, if_pos hmax, numRcPerPe_mul]
    simp [hone]
  · rw [Polls, nrcs, selection_user h hnpes hone hmax, if_neg hmax, mem_take_iff_getElem]
    simp only [getElem?_map, map_eq_some_iff, List.getElem?_eq_some_iff, handle,
      lt_min_iff]
    constructor
    · rintro ⟨i, ⟨hi, hi'⟩, k', ⟨hlt, hk'⟩, heq⟩
      have := eq_of_mul_eq_mul_right q.dev.npes_pos heq
      exact ⟨hone, i, by omega, by omega⟩
    · rintro ⟨-, i, hi, heq⟩
      exact ⟨i, by omega, k, ⟨by omega, heq⟩, rfl⟩

end User

end Quiet

/-- Quiet completes the operations of its handles exactly if nothing was to be waited for, or its
handles are not a list that is mistaken for another argument or cut short. -/
theorem quiets_iff (q : Quiet) : q.Quiets q.handles ↔ ¬ q.Remote ∨ q.Counted := by
  by_cases hremote : q.Remote
  swap
  · refine iff_of_true (Quiet.quiets_of_polls fun qpIndex _ qp _ pe hpe hcovers hne => ?_)
      (.inl hremote)
    exact absurd ⟨pe, hpe, hcovers, hne⟩ hremote
  rw [or_iff_right (not_not.mpr hremote), Quiet.Counted, Quiet.handles]
  obtain ⟨pe, hpe, hcovers, hne⟩ := hremote
  have hnpes : 1 < q.dev.npes := by
    have := q.dev.mype_lt
    omega
  cases harg : q.arg with
  | default null =>
    refine iff_of_true (Quiet.quiets_of_polls fun qpIndex hmem qp hsel _ _ _ _ => ?_) trivial
    rw [mem_singleton.mp hmem] at hsel
    rwa [Quiet.Polls, Quiet.nrcs, Quiet.selection_default harg]
  | all null =>
    refine iff_of_true (Quiet.quiets_of_polls fun qpIndex hmem qp hsel _ _ _ _ => ?_) trivial
    rw [mem_singleton.mp hmem] at hsel
    rw [Quiet.Polls, Quiet.nrcs, Quiet.selection_all harg]
    exact selects_qpAny.mp hsel
  | user ks =>
    have hvalid := (q.user_valid ks harg).2.2
    have hpolls : q.Quiets (ks.map q.dev.handle) ↔ ∀ k ∈ ks, q.Polls (q.dev.numDefault + k) := by
      constructor
      · intro h k hk
        by_contra hnot
        exact Quiet.not_quiets_of_not_polls (mem_map_of_mem hk)
          (.inr (.inr ⟨k, hvalid k hk, rfl⟩)) hpe hcovers hne
          (by rw [getRc_handle hnpes (hvalid k hk)]) hnot h
      · refine fun h => Quiet.quiets_of_polls fun qpIndex hmem qp hsel _ _ _ _ => ?_
        obtain ⟨k, hk, rfl⟩ := mem_map.mp hmem
        rw [(selects_handle hnpes (hvalid k hk)).mp hsel]
        exact h k hk
    have hne : ks ≠ [] := (q.user_valid ks harg).1
    rw [hpolls]
    simp only [Quiet.polls_user harg hnpes]
    obtain ⟨k, hk⟩ := exists_mem_of_ne_nil ks hne
    split
    · exact ⟨fun h => ⟨(h k hk).1, fun k hk => (h k hk).2⟩, fun h k hk => ⟨h.1, h.2 k hk⟩⟩
    · exact ⟨fun h => ⟨(h k hk).1, fun k hk => (h k hk).2⟩, fun h k hk => ⟨h.1, h.2 k hk⟩⟩

def oneHandle : Quiet where
  dev :=
    { npes := 2
      mype := 0
      numDevicesInitialized := 1
      numDefaultRcPerPe := 1
      numUserQps := 2
      mype_lt := Nat.two_pos
      numDevicesInitialized_pos := Nat.one_pos
      numDefaultRcPerPe_pos := Nat.one_pos
      numRcHandles_le := by decide }
  arg := .user [0]
  peHint := peAny
  groupSize := 1
  groupSize_pos := Nat.one_pos
  peHint_valid := .inr rfl
  user_valid := by
    rintro ks ⟨⟩
    decide

/-- It waits for the default queue pair at position 1, but not for its own at position 3. -/
theorem not_quiets_oneHandle :
    oneHandle.handles = [2] ∧ (oneHandle.dev.getRc (fun _ => 0) 1 2).1 = 3 ∧
      oneHandle.polls 0 = [1] ∧ ¬ oneHandle.Quiets oneHandle.handles := by
  refine ⟨by decide, by decide, by decide, ?_⟩
  refine @Quiet.not_quiets_of_not_polls oneHandle 2 1 1 _ (by decide) (by decide) (by decide)
    (.inl rfl) (by decide) (by decide) ?_
  change ¬ 1 < oneHandle.nrcs
  decide

end Nvshmem.Ibgda
