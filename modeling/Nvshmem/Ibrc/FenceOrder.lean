import Nvshmem.Ibrc.Fence
import Nvshmem.Lists.Update

/-! # Fences order operations

With more than one queue pair a fence waits until everything that has been posted has
taken effect. With one queue pair it relies on the order of delivery, which does not hold
back a write that follows an atomic which waits to be processed.
-/

namespace Nvshmem.Ibrc

open Transition List Option Function

namespace State

variable {cfg : Config} {s t : State} {a : Action} {i j : ℕ}

def outstanding (s : State) : List ℕ := s.bqueueToprocess ++ s.recvCq ++ s.wire

/-- Whatever takes effect does so after everything that was posted before an earlier fence. -/
def FenceOrdered (s : State) : Prop :=
  ∀ pre i post, s.effects = pre ++ i :: post →
    ∀ j < s.posted.length, s.epochOf j < s.epochOf i → j ∈ pre

/-- With one queue pair, an operation that takes effect on arrival is posted only when all messages
from before the last fence have been processed. -/
def PostsAfterMessages (cfg : Config) (s : State) : Action → Prop
  | .post _ op => cfg.numRcPerDevice = 1 → op.opcode cfg ≠ some .send →
      ∀ j ∈ s.outstanding, s.opcode j = .send → s.epochOf j = s.epoch
  | _ => True

instance (a : Action) : Decidable (s.PostsAfterMessages cfg a) :=
  match a with
  | .post _ op =>
    inferInstanceAs (Decidable (cfg.numRcPerDevice = 1 → op.opcode cfg ≠ some .send →
      ∀ j ∈ s.outstanding, s.opcode j = .send → s.epochOf j = s.epoch))
  | .fence _ | .checkPollAvail _ | .deliver _ | .progressSend _ | .pollRecv _ | .processRecv _
  | .pollAck => .isTrue trivial

structure Accounted (cfg : Config) (s : State) : Prop where
  perm : (s.effects ++ s.outstanding).Perm (List.range s.posted.length)
  message : ∀ i ∈ s.bqueueToprocess ++ s.recvCq, s.opcode i = .send
  sorted : s.wire.Pairwise (· < ·)
  pipeline : cfg.numRcPerDevice = 1 → s.outstanding.Pairwise (· < ·)
  completions : ∀ q, s.tailOpId q + s.sendCq q + s.wire.countP (s.qp · = q) = s.headOpId q
  atomics : s.atomicsIssued =
    s.atomicsAcked + s.acks + s.outstanding.countP (s.opcode · = .send)

structure Fenced (cfg : Config) (s : State) : Prop where
  qp_lt : ∀ i < s.posted.length, s.qp i < cfg.numRcPerDevice
  epochOf_le : ∀ i, s.epochOf i ≤ s.epoch
  epochOf_mono : ∀ {i j}, i < j → j < s.posted.length → s.epochOf i ≤ s.epochOf j
  gdrcopy : ∀ i < s.posted.length, s.opcode i = .send → cfg.useGdrcopy
  delivered : 1 < cfg.numRcPerDevice → ∀ i ∈ s.wire, s.epochOf i < s.epoch → s.qp i ∈ s.waiting
  processed : 1 < cfg.numRcPerDevice → (∃ q < cfg.numRcPerDevice, q ∉ s.waiting) →
    ∀ i ∈ s.outstanding, s.opcode i = .send → s.epochOf i = s.epoch
  settled : 1 < cfg.numRcPerDevice → ∀ i ∈ s.outstanding, ∀ j ∈ s.outstanding,
    s.epochOf i ≤ s.epochOf j
  direct : cfg.numRcPerDevice = 1 → ∀ i ∈ s.wire, s.opcode i ≠ .send →
    ∀ j ∈ s.outstanding, s.opcode j = .send → s.epochOf i ≤ s.epochOf j

structure Inv (cfg : Config) (s : State) : Prop extends Accounted cfg s, Fenced cfg s where
  ordered : s.FenceOrdered

theorem Inv.init : Inv cfg init where
  perm := by simp [State.init, outstanding]
  message i h := by simp [State.init] at h
  sorted := List.Pairwise.nil
  pipeline _ := List.Pairwise.nil
  completions q := rfl
  atomics := rfl
  qp_lt i h := absurd h (Nat.not_lt_zero i)
  epochOf_le i := by simp [State.init, epochOf]
  epochOf_mono _ h := absurd h (Nat.not_lt_zero _)
  gdrcopy i h := absurd h (Nat.not_lt_zero i)
  delivered _ i h := by simp [State.init] at h
  processed _ _ i h := by simp [State.init, outstanding] at h
  settled _ i h := by simp [State.init, outstanding] at h
  direct _ i h := by simp [State.init] at h
  ordered pre i post h := by simp [State.init] at h

theorem Fenced.mono (hf : s.Fenced cfg) (hposted : t.posted = s.posted) (hepoch : t.epoch = s.epoch)
    (hwaiting : t.waiting = s.waiting) (hwire : t.wire ⊆ s.wire)
    (hout : t.outstanding ⊆ s.outstanding) : t.Fenced cfg := by
  obtain ⟨h1, h2, h3, h4, h5, h6, h7, h8⟩ := hf
  have hqp : t.qp = s.qp := by
    funext i
    rw [qp, qp, hposted]
  have hop : t.opcode = s.opcode := by
    funext i
    rw [opcode, opcode, hposted]
  have hep : t.epochOf = s.epochOf := by
    funext i
    rw [epochOf, epochOf, hposted]
  constructor <;> simp only [hqp, hop, hep, hposted, hepoch, hwaiting]
  · exact h1
  · exact h2
  · exact h3
  · exact h4
  · exact fun hn i hi => h5 hn i (hwire hi)
  · exact fun hn hq i hi => h6 hn hq i (hout hi)
  · exact fun hn i hi j hj => h7 hn i (hout hi) j (hout hj)
  · exact fun hn i hi hop j hj => h8 hn i (hwire hi) hop j (hout hj)

section Facts

variable (hi : s.Inv cfg)
include hi

theorem Inv.lt_of_outstanding (h : i ∈ s.outstanding) : i < s.posted.length :=
  mem_range.mp (hi.perm.mem_iff.mp (mem_append_right _ h))

theorem Inv.mem_effects_or (h : i < s.posted.length) : i ∈ s.effects ∨ i ∈ s.outstanding :=
  mem_append.mp (hi.perm.mem_iff.mpr (mem_range.mpr h))

theorem Inv.mem_effects_of_epoch (hout : i ∈ s.outstanding)
    (hfirst : cfg.numRcPerDevice = 1 → ∀ j ∈ s.outstanding, s.epochOf i ≤ s.epochOf j)
    (hj : j < s.posted.length) (h : s.epochOf j < s.epochOf i) : j ∈ s.effects := by
  rcases hi.mem_effects_or hj with hmem | hmem
  · exact hmem
  · have hle : s.epochOf i ≤ s.epochOf j := by
      rcases Nat.lt_or_eq_of_le (Nat.succ_le_of_lt cfg.numRcPerDevice_pos) with hn | hn
      · exact hi.settled hn i hout j hmem
      · exact hfirst hn.symm j hmem
    omega

omit hi in
theorem FenceOrdered.congr (h : s.FenceOrdered) (heff : t.effects = s.effects)
    (hposted : t.posted = s.posted) : t.FenceOrdered := by
  have hepoch : t.epochOf = s.epochOf := by
    funext j
    rw [epochOf, epochOf, hposted]
  unfold FenceOrdered
  rw [heff, hposted, hepoch]
  exact h

theorem Inv.ordered_concat {t : State} (heff : t.effects = s.effects ++ [i])
    (hposted : t.posted = s.posted)
    (hbefore : ∀ j < s.posted.length, s.epochOf j < s.epochOf i → j ∈ s.effects) :
    t.FenceOrdered := by
  have hepoch : t.epochOf = s.epochOf := by
    funext j
    rw [epochOf, epochOf, hposted]
  intro pre k post h j hj hlt
  rw [hposted] at hj
  rw [hepoch] at hlt
  rw [heff] at h
  rcases eq_nil_or_concat post with rfl | ⟨post, l, rfl⟩
  · obtain ⟨rfl, hk⟩ := append_inj' h rfl
    obtain rfl : i = k := by simpa using hk
    exact hbefore j hj hlt
  · rw [concat_eq_append, ← cons_append, ← append_assoc] at h
    exact hi.ordered pre k post (append_inj' h rfl).1 j hj hlt

theorem Inv.qp_eq (hn : cfg.numRcPerDevice = 1) (h : i ∈ s.outstanding) : s.qp i = 0 := by
  have := hi.qp_lt i (hi.lt_of_outstanding h)
  omega

omit hi in
theorem wire_subset_outstanding : s.wire ⊆ s.outstanding := subset_append_right _ _

theorem Inv.wire_of_deliver (he : s.Enabled cfg (.deliver i)) (hn : cfg.numRcPerDevice = 1) :
    s.wire = i :: s.wire.erase i := by
  refine Lists.eq_cons_erase_of_find? he fun j hj => decide_eq_true ?_
  have hmem : i ∈ s.wire := mem_of_find?_eq_some he
  rw [hi.qp_eq hn (wire_subset_outstanding hj), hi.qp_eq hn (wire_subset_outstanding hmem)]

theorem Inv.recvCq_of_pollRecv (he : s.Enabled cfg (.pollRecv i)) (hn : cfg.numRcPerDevice = 1) :
    s.recvCq = i :: s.recvCq.erase i := by
  have hout : s.recvCq ⊆ s.outstanding := fun j hj =>
    mem_append_left _ (mem_append_right _ hj)
  refine Lists.eq_cons_erase_of_find? he fun j hj => decide_eq_true ?_
  rw [hi.qp_eq hn (hout hj), hi.qp_eq hn (hout (mem_of_find?_eq_some he))]

theorem Inv.effects_of_deliver (he : s.Enabled cfg (.deliver i)) (hop : s.opcode i ≠ .send) :
    ∀ j < s.posted.length, s.epochOf j < s.epochOf i → j ∈ s.effects := by
  have hmem : i ∈ s.wire := mem_of_find?_eq_some he
  refine fun j hj hlt => hi.mem_effects_of_epoch (wire_subset_outstanding hmem) ?_ hj hlt
  intro hn j hout
  rcases mem_append.mp hout with hj | hj
  · exact hi.direct hn i hmem hop j hout (hi.message j hj)
  · have hle := Lists.le_of_find? hi.sorted he hj
      (decide_eq_true (by rw [hi.qp_eq hn hout, hi.qp_eq hn (wire_subset_outstanding hmem)]))
    rcases Nat.lt_or_eq_of_le hle with hlt | rfl
    · exact hi.epochOf_mono hlt (hi.lt_of_outstanding hout)
    · exact le_rfl

theorem Inv.completions_of_deliver (hmem : i ∈ s.wire) (q : ℕ) :
    s.tailOpId q + Function.update s.sendCq (s.qp i) (s.sendCq (s.qp i) + 1) q +
      (s.wire.erase i).countP (s.qp · = q) = s.headOpId q := by
  have hq := hi.completions q
  rw [(perm_cons_erase hmem).countP_eq, countP_cons] at hq
  by_cases h : q = s.qp i
  · subst h
    simp at hq ⊢
    omega
  · simp [h, Ne.symm h] at hq ⊢
    omega

theorem Inv.deliver_message (he : s.Enabled cfg (.deliver i)) (hop : s.opcode i = .send) :
    (s.effect cfg (.deliver i)).Inv cfg := by
  have hmem : i ∈ s.wire := mem_of_find?_eq_some he
  have hout : (s.effect cfg (.deliver i)).outstanding.Perm s.outstanding := by
    simp only [outstanding, effect, if_pos hop, append_assoc, singleton_append]
    exact ((perm_cons_erase hmem).symm.append_left _).append_left _
  have hfenced : (s.effect cfg (.deliver i)).Fenced cfg :=
    hi.toFenced.mono rfl rfl rfl erase_subset hout.subset
  refine { hfenced with perm := ?_, message := ?_, sorted := ?_, pipeline := ?_,
                        completions := ?_, atomics := ?_, ordered := ?_ }
  · rw [show (s.effect cfg (.deliver i)).effects = s.effects from if_pos hop]
    exact (hout.append_left _).trans hi.perm
  · intro j hj
    simp only [effect, if_pos hop, ← append_assoc] at hj
    rcases mem_append.mp hj with hj | hj
    · exact hi.message j hj
    · obtain rfl := mem_singleton.mp hj
      exact hop
  · exact hi.sorted.sublist erase_sublist
  · intro hn
    have hpipe := hi.pipeline hn
    rw [outstanding, hi.wire_of_deliver he hn] at hpipe
    simpa [outstanding, effect, hop] using hpipe
  · exact hi.completions_of_deliver hmem
  · rw [hout.countP_eq]
    exact hi.atomics
  · exact hi.ordered.congr (if_pos hop) rfl

theorem Inv.deliver_direct (he : s.Enabled cfg (.deliver i)) (hop : s.opcode i ≠ .send) :
    (s.effect cfg (.deliver i)).Inv cfg := by
  have hmem : i ∈ s.wire := mem_of_find?_eq_some he
  have hout : s.outstanding.Perm (i :: (s.effect cfg (.deliver i)).outstanding) := by
    simp only [outstanding, effect, if_neg hop]
    exact ((perm_cons_erase hmem).append_left _).trans perm_middle
  have hfenced : (s.effect cfg (.deliver i)).Fenced cfg :=
    hi.toFenced.mono rfl rfl rfl erase_subset fun j hj =>
      hout.symm.subset (mem_cons_of_mem _ hj)
  refine { hfenced with perm := ?_, message := ?_, sorted := ?_, pipeline := ?_,
                        completions := ?_, atomics := ?_, ordered := ?_ }
  · have hperm := (hout.append_left s.effects).symm.trans hi.perm
    simpa [effect, hop] using hperm
  · intro j hj
    rw [show (s.effect cfg (.deliver i)).recvCq = s.recvCq from if_neg hop] at hj
    exact hi.message j hj
  · exact hi.sorted.sublist erase_sublist
  · intro hn
    refine (hi.pipeline hn).sublist ?_
    simp only [outstanding, effect, if_neg hop]
    exact erase_sublist.append_left _
  · exact hi.completions_of_deliver hmem
  · have hcount := hi.atomics
    rw [hout.countP_eq, countP_cons_of_neg (by simpa using hop)] at hcount
    exact hcount
  · exact hi.ordered_concat (if_neg hop) rfl (hi.effects_of_deliver he hop)

theorem Inv.pollRecv (he : s.Enabled cfg (.pollRecv i)) :
    (s.effect cfg (.pollRecv i)).Inv cfg := by
  have hmem : i ∈ s.recvCq := mem_of_find?_eq_some he
  have hout : (s.effect cfg (.pollRecv i)).outstanding.Perm s.outstanding := by
    simp only [outstanding, effect, append_assoc, singleton_append]
    exact ((perm_cons_erase hmem).symm.append_right _).append_left _
  have hfenced : (s.effect cfg (.pollRecv i)).Fenced cfg :=
    hi.toFenced.mono rfl rfl rfl (List.Subset.refl _) hout.subset
  refine { hfenced with perm := ?_, message := ?_, sorted := hi.sorted, pipeline := ?_,
                        completions := hi.completions, atomics := ?_, ordered := hi.ordered }
  · exact (hout.append_left _).trans hi.perm
  · intro j hj
    refine hi.message j ?_
    simp only [effect, append_assoc, singleton_append] at hj
    exact ((perm_cons_erase hmem).symm.append_left _).subset hj
  · intro hn
    have hpipe := hi.pipeline hn
    rw [outstanding, hi.recvCq_of_pollRecv he hn] at hpipe
    simpa [outstanding, effect] using hpipe
  · rw [hout.countP_eq]
    exact hi.atomics

theorem Inv.processRecv (he : s.Enabled cfg (.processRecv i)) :
    (s.effect cfg (.processRecv i)).Inv cfg := by
  have hqueue : s.bqueueToprocess = i :: s.bqueueToprocess.tail :=
    eq_cons_of_mem_head? he
  have hout : s.outstanding = i :: (s.effect cfg (.processRecv i)).outstanding := by
    rw [outstanding, hqueue]
    rfl
  have hsend : s.opcode i = .send := by
    refine hi.message i (mem_append_left _ ?_)
    rw [hqueue]
    exact mem_cons_self
  have hfenced : (s.effect cfg (.processRecv i)).Fenced cfg :=
    hi.toFenced.mono rfl rfl rfl (List.Subset.refl _) (hout ▸ subset_cons_self _ _)
  refine { hfenced with perm := ?_, message := ?_, sorted := hi.sorted, pipeline := ?_,
                        completions := hi.completions, atomics := ?_, ordered := ?_ }
  · have hperm := hi.perm
    rw [hout] at hperm
    simpa [effect] using hperm
  · intro j hj
    refine hi.message j ?_
    rw [hqueue]
    exact mem_cons_of_mem _ hj
  · intro hn
    have hpipe := hi.pipeline hn
    rw [hout] at hpipe
    exact hpipe.of_cons
  · have hcount := hi.atomics
    rw [hout, countP_cons_of_pos (by simpa using hsend)] at hcount
    change s.atomicsIssued = s.atomicsAcked + (s.acks + 1) +
      (s.effect cfg (.processRecv i)).outstanding.countP (s.opcode · = .send)
    omega
  · refine hi.ordered_concat rfl rfl fun j hj hlt => ?_
    have hmem : i ∈ s.outstanding := hout ▸ mem_cons_self
    refine hi.mem_effects_of_epoch hmem ?_ hj hlt
    intro hn j hj
    have hpipe := hi.pipeline hn
    rw [hout] at hpipe hj
    rcases mem_cons.mp hj with rfl | hj
    · exact le_rfl
    · exact hi.epochOf_mono (rel_of_pairwise_cons hpipe hj)
        (hi.lt_of_outstanding (hout ▸ mem_cons_of_mem _ hj))

theorem Inv.progressSend {q : ℕ} (he : s.Enabled cfg (.progressSend q)) :
    (s.effect cfg (.progressSend q)).Inv cfg := by
  refine { hi with completions := fun k => ?_ }
  have hk := hi.completions k
  have hpos : 0 < s.sendCq q := he
  simp only [effect, update_apply]
  split_ifs with h
  · subst h
    change _ + _ + s.wire.countP (s.qp · = k) = _
    omega
  · exact hk

theorem Inv.pollAck (he : s.Enabled cfg .pollAck) : (s.effect cfg .pollAck).Inv cfg := by
  refine { hi with atomics := ?_ }
  have hpos : 0 < s.acks := he
  have hcount := hi.atomics
  change _ = s.atomicsAcked + 1 + (s.acks - 1) + s.outstanding.countP (s.opcode · = .send)
  change s.atomicsIssued = _
  omega

theorem Inv.checkPollAvail {q : ℕ} (he : s.Enabled cfg (.checkPollAvail q)) :
    (s.effect cfg (.checkPollAvail q)).Inv cfg := by
  obtain ⟨hhead, hids, hacked⟩ := he
  have hwaiting : s.waiting = q :: s.waiting.tail := eq_cons_of_mem_head? hhead
  have hwire : ∀ i ∈ s.wire, s.qp i ≠ q := by
    have hq := hi.completions q
    have hzero : s.wire.countP (s.qp · = q) = 0 := by omega
    intro i hmem heq
    exact countP_eq_zero.mp hzero i hmem (decide_eq_true heq)
  have hmessages : ∀ i ∈ s.outstanding, s.opcode i ≠ .send := by
    intro i hmem hsend
    have := hacked (hi.gdrcopy i (hi.lt_of_outstanding hmem) hsend)
    have hcount := hi.atomics
    have hzero : s.outstanding.countP (s.opcode · = .send) = 0 := by omega
    exact countP_eq_zero.mp hzero i hmem (decide_eq_true hsend)
  refine { hi with delivered := ?_, processed := ?_ }
  · intro hn i hmem hlt
    have hqp := hi.delivered hn i hmem hlt
    rw [hwaiting] at hqp
    exact (mem_cons.mp hqp).resolve_left (hwire i hmem)
  · exact fun _ _ i hmem hsend => absurd hsend (hmessages i hmem)

theorem Inv.fence {isMulti : Bool} : (s.effect cfg (.fence isMulti)).Inv cfg := by
  refine { hi with epochOf_le := ?_, delivered := ?_, processed := ?_ }
  · exact fun i => (hi.epochOf_le i).trans (Nat.le_succ _)
  · intro hn i hmem _
    simp only [effect, if_pos (Or.inl hn : _ ∨ (isMulti = true)), mem_range]
    exact hi.qp_lt i (hi.lt_of_outstanding (wire_subset_outstanding hmem))
  · rintro hn ⟨q, hq, hnot⟩
    simp only [effect, if_pos (Or.inl hn : _ ∨ (isMulti = true)), mem_range] at hnot
    exact absurd hq hnot

end Facts

section Post

variable {qp : ℕ} {op : Operation}

theorem useGdrcopy_of_opcode (h : op.opcode cfg = some .send) : cfg.useGdrcopy = true := by
  cases op with
  | put => simp [Operation.opcode] at h
  | p => simp [Operation.opcode] at h
  | amo verb elembytes isEgm =>
    simp only [Operation.opcode, amoOpcode] at h
    grind

theorem posted_post : (s.effect cfg (.post qp op)).posted =
    s.posted ++ [⟨qp, (op.opcode cfg).getD .rdmaWrite, s.epoch⟩] := rfl

theorem lookup_post (hi : i < s.posted.length) : (s.effect cfg (.post qp op)).qp i = s.qp i ∧
    (s.effect cfg (.post qp op)).opcode i = s.opcode i ∧
    (s.effect cfg (.post qp op)).epochOf i = s.epochOf i := by
  simp only [State.qp, opcode, epochOf, posted_post, getElem?_append_left hi, and_self]

theorem lookup_post_self : (s.effect cfg (.post qp op)).qp s.posted.length = qp ∧
    (s.effect cfg (.post qp op)).opcode s.posted.length = (op.opcode cfg).getD .rdmaWrite ∧
    (s.effect cfg (.post qp op)).epochOf s.posted.length = s.epoch := by
  simp [State.qp, opcode, epochOf, posted_post]

theorem outstanding_post :
    (s.effect cfg (.post qp op)).outstanding = s.outstanding ++ [s.posted.length] :=
  (append_assoc _ _ _).symm

theorem Inv.epochOf_eq (hi : s.Inv cfg) (hw : s.waiting = []) (hn : 1 < cfg.numRcPerDevice)
    (h : i ∈ s.outstanding) : s.epochOf i = s.epoch := by
  by_cases hop : s.opcode i = .send
  · refine hi.processed hn ⟨0, by omega, ?_⟩ i h hop
    rw [hw]
    exact not_mem_nil
  · rcases mem_append.mp h with h | h
    · exact absurd (hi.message i h) hop
    · by_contra hne
      have hlt := Nat.lt_of_le_of_ne (hi.epochOf_le i) hne
      have hqp := hi.delivered hn i h hlt
      rw [hw] at hqp
      exact not_mem_nil hqp

theorem Inv.post_accounted (hi : s.Inv cfg) : (s.effect cfg (.post qp op)).Accounted cfg where
  perm := by
    rw [outstanding_post, posted_post, length_append, length_singleton, range_succ,
      ← append_assoc]
    exact hi.perm.append_right _
  message i h := by
    have hlt := hi.lt_of_outstanding (mem_append_left _ h)
    rw [(lookup_post hlt).2.1]
    exact hi.message i h
  sorted := by
    refine pairwise_append.mpr ⟨hi.sorted, pairwise_singleton _ _, fun i h j hj => ?_⟩
    obtain rfl := mem_singleton.mp hj
    exact hi.lt_of_outstanding (wire_subset_outstanding h)
  pipeline hn := by
    rw [outstanding_post]
    refine pairwise_append.mpr
      ⟨hi.pipeline hn, pairwise_singleton _ _, fun i h j hj => ?_⟩
    obtain rfl := mem_singleton.mp hj
    exact hi.lt_of_outstanding h
  completions q := by
    have hq := hi.completions q
    have hcongr : s.wire.countP ((s.effect cfg (.post qp op)).qp · = q) =
        s.wire.countP (s.qp · = q) := by
      refine countP_congr fun i h => ?_
      rw [(lookup_post (hi.lt_of_outstanding (wire_subset_outstanding h))).1]
    change s.tailOpId q + s.sendCq q + (s.wire ++ [s.posted.length]).countP _ =
      update s.headOpId qp (s.headOpId qp + 1) q
    rw [countP_append, hcongr, countP_singleton, lookup_post_self.1,
      update_apply]
    by_cases h : q = qp
    · subst h
      simp
      omega
    · simp [h, Ne.symm h]
      omega
  atomics := by
    have hcount := hi.atomics
    have hcongr : s.outstanding.countP ((s.effect cfg (.post qp op)).opcode · = .send) =
        s.outstanding.countP (s.opcode · = .send) := by
      refine countP_congr fun i h => ?_
      rw [(lookup_post (hi.lt_of_outstanding h)).2.1]
    rw [outstanding_post, countP_append, hcongr, countP_singleton, lookup_post_self.2.1]
    change (if _ then _ else _) = s.atomicsAcked + s.acks + _
    by_cases h : (op.opcode cfg).getD .rdmaWrite = .send
    · simp [h]
      omega
    · simp [h]
      omega

theorem lt_or_eq_of_post (h : i < (s.effect cfg (.post qp op)).posted.length) :
    i < s.posted.length ∨ i = s.posted.length := by
  rw [posted_post, length_append, length_singleton] at h
  omega

theorem Inv.mem_outstanding_post (hi : s.Inv cfg)
    (h : i ∈ (s.effect cfg (.post qp op)).outstanding) :
    i < s.posted.length ∧ i ∈ s.outstanding ∨ i = s.posted.length := by
  rw [outstanding_post, mem_append, mem_singleton] at h
  exact h.imp_left fun h => ⟨hi.lt_of_outstanding h, h⟩

theorem Inv.mem_wire_post (hi : s.Inv cfg) (h : i ∈ (s.effect cfg (.post qp op)).wire) :
    i < s.posted.length ∧ i ∈ s.wire ∨ i = s.posted.length := by
  rcases mem_append.mp h with h | h
  · exact .inl ⟨hi.lt_of_outstanding (wire_subset_outstanding h), h⟩
  · exact .inr (mem_singleton.mp h)

theorem Inv.post_fenced (hi : s.Inv cfg) (ok : s.PostsAfterMessages cfg (.post qp op))
    (he : s.Enabled cfg (.post qp op)) : (s.effect cfg (.post qp op)).Fenced cfg := by
  obtain ⟨hwaiting, hqp, hop, -⟩ := he
  obtain ⟨hself, hself', hself''⟩ := @lookup_post_self cfg s qp op
  -- with more than one queue pair, all that is outstanding has been posted after the last fence
  have hcurrent : 1 < cfg.numRcPerDevice → ∀ i ∈ (s.effect cfg (.post qp op)).outstanding,
      (s.effect cfg (.post qp op)).epochOf i = s.epoch := by
    intro hn i h
    rcases hi.mem_outstanding_post h with ⟨hlt, h⟩ | rfl
    · rw [(lookup_post hlt).2.2]
      exact hi.epochOf_eq hwaiting hn h
    · exact hself''
  constructor
  · intro i h
    rcases lt_or_eq_of_post h with h | rfl
    · rw [(lookup_post h).1]
      exact hi.qp_lt i h
    · rwa [hself]
  · intro i
    by_cases h : i < (s.effect cfg (.post qp op)).posted.length
    · rcases lt_or_eq_of_post h with h | rfl
      · rw [(lookup_post h).2.2]
        exact hi.epochOf_le i
      · exact hself''.le
    · rw [epochOf, getElem?_eq_none (not_lt.mp h)]
      exact Nat.zero_le _
  · intro i j hij h
    rcases lt_or_eq_of_post h with h | rfl
    · rw [(lookup_post h).2.2, (lookup_post (hij.trans h)).2.2]
      exact hi.epochOf_mono hij h
    · rw [hself'', (lookup_post hij).2.2]
      exact hi.epochOf_le i
  · intro i h hsend
    rcases lt_or_eq_of_post h with h | rfl
    · rw [(lookup_post h).2.1] at hsend
      exact hi.gdrcopy i h hsend
    · rw [hself'] at hsend
      obtain ⟨opcode, hopcode⟩ := ne_none_iff_exists'.mp hop
      rw [hopcode] at hsend
      exact useGdrcopy_of_opcode (hopcode.trans (congrArg some hsend))
  · intro hn i h hlt
    exact absurd (hcurrent hn i (wire_subset_outstanding h)) hlt.ne
  · intro hn _ i h _
    exact hcurrent hn i h
  · intro hn i hout j hout'
    rw [hcurrent hn i hout, hcurrent hn j hout']
  · intro hn i hwire hdirect j hout hsend
    rcases hi.mem_outstanding_post hout with ⟨hlt', hout⟩ | rfl
    · rw [(lookup_post hlt').2.1] at hsend
      rw [(lookup_post hlt').2.2]
      rcases hi.mem_wire_post hwire with ⟨hlt, hwire⟩ | rfl
      · rw [(lookup_post hlt).2.1] at hdirect
        rw [(lookup_post hlt).2.2]
        exact hi.direct hn i hwire hdirect j hout hsend
      · rw [hself'']
        refine (ok hn (fun h => hdirect ?_) j hout hsend).ge
        rw [hself', h, getD_some]
    · rw [hself'']
      rcases hi.mem_wire_post hwire with ⟨hlt, -⟩ | rfl
      · rw [(lookup_post hlt).2.2]
        exact hi.epochOf_le i
      · exact hself''.le

theorem Inv.post (hi : s.Inv cfg) (ok : s.PostsAfterMessages cfg (.post qp op))
    (he : s.Enabled cfg (.post qp op)) : (s.effect cfg (.post qp op)).Inv cfg := by
  refine { hi.post_accounted, hi.post_fenced ok he with ordered := ?_ }
  intro pre i post h j hj hlt
  have hi' : i < s.posted.length := by
    refine mem_range.mp (hi.perm.mem_iff.mp (mem_append_left _ ?_))
    rw [show s.effects = pre ++ i :: post from h]
    exact mem_append_right _ mem_cons_self
  rw [(lookup_post hi').2.2] at hlt
  rw [posted_post, length_append] at hj
  rcases Nat.lt_succ_iff_lt_or_eq.mp hj with hj | rfl
  · rw [(lookup_post hj).2.2] at hlt
    exact hi.ordered pre i post h j hj hlt
  · rw [lookup_post_self.2.2] at hlt
    exact absurd hlt (not_lt.mpr (hi.epochOf_le i))

end Post

theorem Inv.step (hi : s.Inv cfg) (ok : s.PostsAfterMessages cfg a)
    (h : s.step cfg a = some t) : t.Inv cfg := by
  obtain ⟨he, rfl⟩ := step_eq_some.mp h
  cases a with
  | post qp op => exact hi.post ok he
  | fence isMulti => exact hi.fence
  | checkPollAvail qp => exact hi.checkPollAvail he
  | deliver i =>
    by_cases hop : s.opcode i = .send
    · exact hi.deliver_message he hop
    · exact hi.deliver_direct he hop
  | progressSend qp => exact hi.progressSend he
  | pollRecv i => exact hi.pollRecv he
  | processRecv i => exact hi.processRecv he
  | pollAck => exact hi.pollAck he

/-- A fence orders the operations of a run, if with one queue pair no write overtakes a message. -/
theorem fenceOrdered_of_reachable
    (h : Reachable (restrict (PostsAfterMessages cfg) (step cfg)) init s) : s.FenceOrdered := by
  have hinv : s.Inv cfg := by
    refine h.invariant Inv.init fun hi hs => ?_
    obtain ⟨ok, hs⟩ := restrict_eq_some.mp hs
    exact hi.step ok hs
  exact hinv.ordered

def oneQp : Config where
  numRcPerDevice := 1
  numRcPerDevice_pos := Nat.one_pos
  qpDepth := 1024
  srqDepth := 16384
  connectedQpCount := 2
  useIbNativeAtomics := false
  useGdrcopy := true
  device _ := 0

/-- An atomic, a fence, and a write that waits until the atomic has been processed. -/
theorem fenceOrdered_of_reachable_oneQp : ∃ s,
    exec (restrict (PostsAfterMessages oneQp) (step oneQp)) init
      [.post 0 (.amo .add 8 false), .fence false, .deliver 0, .pollRecv 0, .processRecv 0,
        .post 0 (.put true), .deliver 1] = some s ∧
    s.effects = [0, 1] ∧ s.FenceOrdered := by
  exact exists_of_exec (fun s => s.effects = [0, 1]) (by decide +kernel) fun _ hs heffects =>
    ⟨heffects, fenceOrdered_of_reachable (.of_exec hs)⟩

/-- The write arrives after the atomic, but takes effect before it. -/
theorem not_fenceOrdered_oneQp : ∃ s,
    exec (step oneQp) init
      [.post 0 (.amo .add 8 false), .fence false, .post 0 (.put true), .deliver 0, .deliver 1] =
        some s ∧ ¬ s.FenceOrdered := by
  refine exists_of_exec (fun s => s.effects = [1] ∧ s.posted.length = 2 ∧
    s.epochOf 0 < s.epochOf 1) (by decide +kernel) ?_
  rintro s - ⟨heffects, hlength, hepoch⟩ hord
  have hmem := hord [] 1 [] heffects 0 (by omega) hepoch
  exact not_mem_nil hmem

end State

end Nvshmem.Ibrc
