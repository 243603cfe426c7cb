import Nvshmem.Libfabric.PutSignalInvariant
import Nvshmem.Tables.Update

/-! # Put-signals are applied

As long as a put-signal has not been acknowledged, a message is in flight, an operation is queued or
something is still to be posted. Each of these steps makes the work that is left smaller.
-/

namespace Nvshmem.Libfabric

open Transition Function List Finset Function

instance : DecidablePred Action.Continues
  | .putSignal .. => isFalse id
  | .postWrite _ => isTrue trivial
  | .postSignal _ => isTrue trivial
  | .amo .. => isFalse id
  | .deliver _ => isTrue trivial
  | .processAmo _ => isTrue trivial

def Msg.cost : Msg → ℕ
  | .data _ _ _ (.ack _) => 1
  | _ => 4

theorem Msg.cost_of_not_isAck {m : Msg} (hm : ¬ m.IsAck) : m.cost = 4 := by
  match m, hm with
  | .data _ _ _ (.chunk _ _), _ => rfl
  | .signal .., _ => rfl
  | .amo .., _ => rfl
  | .data _ _ _ (.ack _), hm => exact absurd trivial hm

theorem Msg.cost_pos (m : Msg) : 0 < m.cost := by
  by_cases hm : m.IsAck
  · match m, hm with
    | .data _ _ _ (.ack _), _ => exact Nat.one_pos
  · rw [Msg.cost_of_not_isAck hm]
    decide

namespace State

def postCost (s : State) (j : ℕ) : ℕ :=
  5 * ((s.put j).numWrites - (s.history j).posted) +
    if (s.history j).signalled then 0 else 5

def measure (cfg : Config) (s : State) : ℕ :=
  ∑ j ∈ Finset.range s.issued, s.postCost j + ∑ m ∈ s.net, m.cost +
    ∑ pe ∈ Finset.range cfg.npes, 2 * (s.otherRecv pe).length

variable {cfg : Config} {s t : State} {j : ℕ}

theorem sum_cost_insert {net : Finset Msg} {m : Msg} :
    ∑ m' ∈ insert m net, m'.cost ≤ ∑ m' ∈ net, m'.cost + m.cost := by
  by_cases hm : m ∈ net
  · rw [insert_eq_of_mem hm]
    exact Nat.le_add_right _ _
  · rw [sum_insert hm, add_comm]

theorem sum_cost_erase {net : Finset Msg} {m : Msg} (hm : m ∈ net) :
    ∑ m' ∈ net.erase m, m'.cost + m.cost = ∑ m' ∈ net, m'.cost := by
  rw [add_comm]
  exact add_sum_erase net Msg.cost hm

theorem sum_length_update {pe : ℕ} (hpe : pe < cfg.npes) (l : List Op) :
    ∑ x ∈ range cfg.npes, 2 * (update s.otherRecv pe l x).length +
        2 * (s.otherRecv pe).length =
      ∑ x ∈ range cfg.npes, 2 * (s.otherRecv x).length + 2 * l.length := by
  have hsum := Tables.sum_add_eq_of_eq_off (fun x => 2 * (s.otherRecv x).length)
    (fun x => 2 * (update s.otherRecv pe l x).length) (mem_range.mpr hpe)
    fun x _ hx => by rw [update_of_ne hx]
  simpa using hsum

theorem measure_lt_of_post {m : Msg} (hj : j < s.issued) (hissued : t.issued = s.issued)
    (hother : ∀ i, i ≠ j → t.postCost i = s.postCost i) (hself : t.postCost j + 5 ≤ s.postCost j)
    (hnet : t.net = insert m s.net) (hqueue : t.otherRecv = s.otherRecv) (hm : m.cost ≤ 4) :
    t.measure cfg < s.measure cfg := by
  have hsum := Tables.sum_add_eq_of_eq_off s.postCost t.postCost (mem_range.mpr hj)
    fun i _ hi => hother i hi
  have hcost : ∑ m' ∈ insert m s.net, m'.cost ≤ _ := sum_cost_insert
  rw [measure, measure, hissued, hnet, hqueue]
  omega

theorem Delivered.measure_lt {m : Msg} (h : s.Delivered m t) (hinv : t.Inv cfg) (hm : m ∈ s.net) :
    t.measure cfg < s.measure cfg := by
  have hpost : t.postCost = s.postCost := by
    ext j
    rw [postCost, postCost, h.put, h.posted, h.signalled]
  have hnet := sum_cost_erase hm
  have hpos := m.cost_pos
  rw [measure, measure, h.issued, h.net, hpost]
  rcases h.otherRecv with hqueue | ⟨hack, pe, op, hqueue⟩
  · rw [hqueue]
    omega
  · have hpe : pe < cfg.npes := by
      refine (hinv.queue_sound pe op ?_).pe_lt
      rw [hqueue, Function.update_self]
      exact List.mem_append_right _ (List.mem_singleton_self op)
    have hlength := sum_length_update (s := s) hpe (s.otherRecv pe ++ [op])
    rw [List.length_append, List.length_singleton] at hlength
    rw [Msg.cost_of_not_isAck hack] at hnet
    rw [hqueue]
    omega

theorem issued_noteApplied (origin : Origin) : (s.noteApplied origin).issued = s.issued := by
  cases origin <;> rfl

theorem otherRecv_noteApplied (origin : Origin) :
    (s.noteApplied origin).otherRecv = s.otherRecv := by
  cases origin <;> rfl

theorem postCost_noteApplied (origin : Origin) : (s.noteApplied origin).postCost = s.postCost := by
  cases origin with
  | amo i => rfl
  | put i =>
    ext j
    by_cases hj : j = i
    · subst hj
      simp [noteApplied, postCost]
    · simp [noteApplied, postCost, s.history_setHistory_of_ne i _ hj]

theorem measure_performAmo (pe : ℕ) (op : Op) :
    (s.performAmo pe op).measure cfg ≤ s.measure cfg + 1 := by
  have hnet : ∑ m ∈ (s.performAmo pe op).net, m.cost ≤ ∑ m ∈ s.net, m.cost + 1 := sum_cost_insert
  have hissued : (s.performAmo pe op).issued = s.issued := s.issued_noteApplied op.origin
  have hqueue : (s.performAmo pe op).otherRecv = s.otherRecv := s.otherRecv_noteApplied op.origin
  have hpost : (s.performAmo pe op).postCost = s.postCost := s.postCost_noteApplied op.origin
  rw [measure, measure, hissued, hqueue, hpost]
  omega

theorem Inv.measure_performAmo_lt (h : s.Inv cfg) {pe : ℕ} {op : Op} {rest : List Op}
    (hqueue : s.otherRecv pe = op :: rest) :
    ({ s with otherRecv := update s.otherRecv pe rest }.performAmo pe op).measure cfg <
      s.measure cfg := by
  have hpe : pe < cfg.npes := (h.queue_sound pe op (hqueue ▸ mem_cons_self)).pe_lt
  have hlength := sum_length_update (s := s) hpe rest
  rw [hqueue, length_cons] at hlength
  refine (measure_performAmo pe op).trans_lt ?_
  show ∑ j ∈ range s.issued, s.postCost j + ∑ m ∈ s.net, m.cost +
    ∑ x ∈ range cfg.npes, 2 * (update s.otherRecv pe rest x).length + 1 < _
  rw [measure]
  omega

theorem Inv.measure_lt (h : s.Inv cfg) {a : Action} (ha : a.Continues)
    (hs : s.step cfg a = some t) : t.measure cfg < s.measure cfg := by
  cases a with
  | putSignal => exact absurd ha id
  | amo => exact absurd ha id
  | postWrite src =>
    simp only [State.step] at hs
    split at hs
    · next j i hposting =>
      split_ifs at hs with hi
      cases hs
      obtain ⟨hj, -, -, rfl⟩ := ((h.tracks j).posting src i).mp hposting
      refine measure_lt_of_post hj rfl (fun i hi => ?_) ?_ rfl rfl le_rfl
      · simp [State.postWrite, postCost, s.history_setHistory_of_ne j _ hi]
      · simp only [State.postWrite, postCost, history_setHistory_self, put_setHistory]
        omega
    · cases hs
  | postSignal src =>
    simp only [State.step] at hs
    split at hs
    · next j i hposting =>
      split_ifs at hs with hi
      cases hs
      obtain ⟨hj, -, hsignalled, rfl⟩ := ((h.tracks j).posting src i).mp hposting
      refine measure_lt_of_post hj rfl (fun i hi => ?_) ?_ rfl rfl le_rfl
      · simp [State.postSignal, postCost, s.history_setHistory_of_ne j _ hi]
      · simp [State.postSignal, postCost, hsignalled]
    · cases hs
  | deliver m =>
    simp only [State.step] at hs
    split_ifs at hs with hmem
    obtain ⟨u, hu, hinv, hdelivered⟩ := h.deliver hmem
    cases hu.symm.trans hs
    exact hdelivered.measure_lt hinv hmem
  | processAmo pe =>
    simp only [State.step] at hs
    split at hs
    · next op rest hqueue =>
      cases hs
      exact h.measure_performAmo_lt hqueue
    · cases hs

theorem Inv.exists_continues (h : s.Inv cfg) (hj : j < s.issued)
    (hacked : (s.history j).acked = false) : ∃ a t, a.Continues ∧ s.step cfg a = some t := by
  have hw := (h.tracks j).wf hj
  have hdeliver : ∀ m, m.origin = .put j → (s.put j).InFlight j (s.history j) m →
      ∃ a t, Action.Continues a ∧ s.step cfg a = some t := by
    intro m hm hflight
    have hmem := ((h.tracks j).net m hm).mpr ⟨hj, hflight⟩
    obtain ⟨t, ht, -⟩ := h.deliver hmem
    exact ⟨.deliver m, t, trivial, (if_pos hmem).trans ht⟩
  cases hsignalled : (s.history j).signalled with
  | false =>
    have hposting := ((h.tracks j).posting _ _).mpr ⟨hj, rfl, hsignalled, rfl⟩
    rcases hw.posted_le.lt_or_eq with hlt | heq
    · refine ⟨.postWrite (s.put j).src, s.postWrite (s.put j).src j (s.history j).posted,
        trivial, ?_⟩
      simp only [State.step, hposting, if_pos hlt]
    · refine ⟨.postSignal (s.put j).src, s.postSignal (s.put j).src j, trivial, ?_⟩
      simp only [State.step, hposting, if_pos heq]
  | true =>
    cases hmatched : (s.history j).matched with
    | false => exact hdeliver _ rfl (.inr (.inl ⟨hsignalled, hmatched, rfl⟩))
    | true =>
      by_cases hall : ∃ k < (s.history j).posted, k ∉ (s.history j).arrived
      · obtain ⟨k, hk, hnot⟩ := hall
        exact hdeliver _ rfl (.inl ⟨k, hk, hnot, rfl⟩)
      · push Not at hall
        have harrived : (s.history j).arrived = Finset.range (s.history j).posted :=
          hw.arrived_subset.antisymm fun k hk => hall k (Finset.mem_range.mp hk)
        have hc : (s.history j).Complete (s.put j).numWrites := by
          refine ⟨hmatched, ?_⟩
          rw [harrived, Finset.card_range, hw.posted_eq hsignalled]
        rcases Nat.eq_zero_or_pos (s.history j).applied with hzero | hpos
        · have hcount := (h.tracks j).queue (s.put j).pe ((s.put j).op j) rfl
          rw [if_pos ⟨hj, rfl, rfl, hc, hzero⟩] at hcount
          cases hqueue : s.otherRecv (s.put j).pe with
          | nil => simp [hqueue] at hcount
          | cons op rest =>
            have hsome : (s.step cfg (.processAmo (s.put j).pe)).isSome := by
              simp only [State.step, hqueue, Option.isSome_some]
            obtain ⟨t, ht⟩ := Option.isSome_iff_exists.mp hsome
            exact ⟨.processAmo (s.put j).pe, t, trivial, ht⟩
        · exact hdeliver _ rfl (.inr (.inr ⟨hpos, hacked, rfl⟩))

theorem Inv.exists_continues_of_not_settled (h : s.Inv cfg) (hsettled : ¬ s.Settled) :
    ∃ a t, a.Continues ∧ s.step cfg a = some t := by
  by_contra hnone
  refine hsettled ?_
  have hacked : ∀ j < s.issued, (s.history j).acked = true := by
    intro j hj
    by_contra hfalse
    exact hnone (h.exists_continues hj (by simpa using hfalse))
  have happlied : ∀ j < s.issued, 0 < (s.history j).applied :=
    fun j hj => ((h.tracks j).wf hj).applied (hacked j hj)
  refine ⟨fun j hj => ⟨?_, hacked j hj⟩, fun ep key => ?_⟩
  · have hle := ((h.tracks j).wf hj).applied_le
    have hpos := happlied j hj
    omega
  · by_contra hne
    obtain ⟨j, hj, -, -, hc⟩ := h.owner ep key hne
    exact hc (((h.tracks j).wf hj).complete (happlied j hj))

end State

/-- Whatever order the messages arrive in, signals are applied at most once and after their chunks.
When no more is issued, all signals have been applied after finitely many steps. -/
theorem putSignals_applied (cfg : Config) (s : State) (h : Reachable (State.step cfg) .init s) :
    s.Safe ∧ Inevitable (fun _ => True) (restrict (fun _ a => a.Continues) (State.step cfg))
      State.Settled s := by
  have hinv : s.Inv cfg := h.invariant State.Inv.init fun hi hs => hi.step hs
  refine ⟨hinv.safe, .of_measure (State.measure cfg) (fun hi hs => ?_) (fun hi _ hs => ?_)
    (fun hi hnot => ?_) hinv⟩
  · exact State.Inv.step hi (restrict_eq_some.mp hs).2
  · exact State.Inv.measure_lt hi (restrict_eq_some.mp hs).1 (restrict_eq_some.mp hs).2
  · obtain ⟨a, t, ha, ht⟩ := State.Inv.exists_continues_of_not_settled hi hnot
    exact ⟨a, t, trivial, restrict_eq_some.mpr ⟨ha, ht⟩⟩

/-- The proxy endpoint of the first of two PEs sends two chunks to the second one. The signal comes
first, and is applied after the chunks. -/
theorem putSignals_applied_twoChunks :
    ∃ s, Reachable (State.step ⟨2, by decide⟩) .init s ∧ (s.history 0).applied = 1 ∧
      s.mem 1 0 = 7 ∧ s.Safe := by
  let p : Put := ⟨1, 1, 2, .signalSet, 7, 0, 0⟩
  refine Reachable.exists_of_exec [.putSignal 1 1 2 .signalSet 7 0, .postWrite 1, .postWrite 1,
    .postSignal 1, .deliver (p.signalMsg 0), .deliver (p.chunkMsg 0 1), .deliver (p.chunkMsg 0 0),
    .processAmo 1] (fun s => (s.history 0).applied = 1 ∧ s.mem 1 0 = 7) (by decide +kernel) ?_
  rintro s hr ⟨happlied, hmem⟩
  exact ⟨happlied, hmem, (putSignals_applied _ s hr).1⟩

end Nvshmem.Libfabric
