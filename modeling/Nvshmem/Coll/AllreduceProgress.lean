import Nvshmem.Coll.AllreduceValues

/-! # The allreduces end

Every step brings the packets, the signals and the PEs closer to the end. When nothing can be done,
the PE that is furthest behind has the signal of its neighbour, so it can go on. The calls are
right as long as the offsets of all slots fit an `int`.
-/

namespace Nvshmem.Allreduce

open Transition Mailbox Config Function Finset Nat Config Status Tables

namespace Config

variable {cfg : Config} {p : Packet} {q : Signal} {c : ℕ}

def packets (cfg : Config) : Finset Packet :=
  (Finset.range (cfg.calls.length + 1) ×ˢ Finset.range cfg.m ×ˢ Finset.range cfg.size ×ˢ
    Finset.univ ×ˢ Finset.range ((Finset.range (cfg.calls.length + 1)).sup fun c =>
      (cfg.call c).nbytes)).image fun z => ⟨z.1, z.2.1, z.2.2.1, z.2.2.2.1, z.2.2.2.2⟩

def signals (cfg : Config) : Finset Signal :=
  (Finset.range (cfg.calls.length + 1) ×ˢ Finset.range cfg.m ×ˢ Finset.range cfg.size).image
    fun z => ⟨z.1, z.2.1, z.2.2⟩

def maxReduce (cfg : Config) : ℕ :=
  (Finset.range (cfg.calls.length + 1)).sup fun c => (cfg.call c).reduceCount

theorem IsCall.mem_range (hc : cfg.IsCall c) : c ∈ Finset.range (cfg.calls.length + 1) :=
  Finset.mem_range.mpr (Nat.lt_succ_of_le hc.2)

theorem Valid.mem_packets (hp : cfg.Valid p) : p ∈ cfg.packets := by
  have hbyte : p.byte < (range (cfg.calls.length + 1)).sup fun c => (cfg.call c).nbytes :=
    hp.byte_lt.trans_le
      (le_sup (f := fun c => (cfg.call c).nbytes) (IsCall.mem_range hp.isCall))
  refine mem_image.mpr ⟨(p.call, p.phase, p.src, p.isCopy, p.byte), ?_, rfl⟩
  simp only [mem_product, mem_univ, true_and, mem_range (m := p.phase),
    mem_range (m := p.src), mem_range (m := p.byte)]
  exact ⟨IsCall.mem_range hp.isCall, hp.phase_lt, hp.src_lt, hbyte⟩

theorem ValidSignal.mem_signals (hq : cfg.ValidSignal q) : q ∈ cfg.signals := by
  refine mem_image.mpr ⟨(q.call, q.phase, q.src), ?_, rfl⟩
  simp only [mem_product, mem_range (m := q.phase), mem_range (m := q.src)]
  exact ⟨IsCall.mem_range hq.isCall, hq.phase_lt, hq.src_lt⟩

theorem IsCall.reduceCount_le (hc : cfg.IsCall c) : (cfg.call c).reduceCount ≤ cfg.maxReduce :=
  le_sup (f := fun c => (cfg.call c).reduceCount) hc.mem_range

end Config

namespace State

variable {cfg : Config} {s t : State cfg} {a : Action} {p : Packet} {q : Signal} {c i x pe e : ℕ}

def rounds (s : State cfg) (pe : ℕ) : ℕ :=
  (cfg.calls.length + 1 - s.call pe) * (cfg.m + 1) + (cfg.m - s.phase pe)

def peCost (s : State cfg) (pe : ℕ) : ℕ :=
  s.rounds pe * (cfg.maxReduce + 2) + (if s.waited pe then 0 else 1) +
    ∑ e ∈ Finset.range cfg.maxReduce, if s.reduced pe e then 0 else 1

def measure (s : State cfg) : ℕ :=
  ∑ p ∈ cfg.packets, (s.scratch.status p).remaining +
    ∑ q ∈ cfg.signals, (s.pSync.status q).remaining + ∑ pe ∈ Finset.range cfg.size, s.peCost pe

theorem measure_lt_of_packet (hp : cfg.Valid p) (hpSync : t.pSync = s.pSync)
    (hcost : t.peCost = s.peCost)
    (hne : ∀ r, r ≠ p → t.scratch.status r = s.scratch.status r)
    (hlt : (t.scratch.status p).remaining < (s.scratch.status p).remaining) :
    t.measure < s.measure := by
  have hsum := sum_lt_sum_of_eq_off (g := fun r => (s.scratch.status r).remaining)
    (h := fun r => (t.scratch.status r).remaining) hp.mem_packets
    (fun r hr => by rw [hne r hr]) hlt
  rw [measure, measure, hpSync, hcost]
  omega

theorem measure_lt_of_signal (hq : cfg.ValidSignal q) (hscratch : t.scratch = s.scratch)
    (hcost : t.peCost = s.peCost) (hne : ∀ r, r ≠ q → t.pSync.status r = s.pSync.status r)
    (hlt : (t.pSync.status q).remaining < (s.pSync.status q).remaining) :
    t.measure < s.measure := by
  have hsum := sum_lt_sum_of_eq_off (g := fun r => (s.pSync.status r).remaining)
    (h := fun r => (t.pSync.status r).remaining) hq.mem_signals
    (fun r hr => by rw [hne r hr]) hlt
  rw [measure, measure, hscratch, hcost]
  omega

theorem measure_lt_of_peCost (hpe : pe < cfg.size) (hscratch : t.scratch = s.scratch)
    (hpSync : t.pSync = s.pSync) (hne : ∀ x, x ≠ pe → t.peCost x = s.peCost x)
    (hlt : t.peCost pe < s.peCost pe) : t.measure < s.measure := by
  have hsum := sum_lt_sum_of_eq_off (mem_range.mpr hpe) hne hlt
  rw [measure, measure, hscratch, hpSync]
  omega

theorem peCost_congr (hcall : t.call x = s.call x) (hphase : t.phase x = s.phase x)
    (hwaited : t.waited x = s.waited x) (hreduced : t.reduced x = s.reduced x) :
    t.peCost x = s.peCost x := by
  rw [peCost, peCost, rounds, rounds, hcall, hphase, hwaited, hreduced]

theorem sum_reduced_le (s : State cfg) (pe : ℕ) :
    (∑ e ∈ range cfg.maxReduce, if s.reduced pe e then 0 else 1) ≤ cfg.maxReduce := by
  calc (∑ e ∈ range cfg.maxReduce, if s.reduced pe e then 0 else 1)
      ≤ ∑ _e ∈ range cfg.maxReduce, 1 := sum_le_sum fun e _ => by split <;> simp
    _ = cfg.maxReduce := by simp

theorem peCost_lt_of_rounds (hr : t.rounds pe + 1 = s.rounds pe) : t.peCost pe < s.peCost pe := by
  have hwaited : (if t.waited pe then 0 else 1) ≤ 1 := by split <;> simp
  have hreduced := sum_reduced_le t pe
  rw [peCost, peCost, ← hr, succ_mul]
  omega

namespace Proto

variable (h : s.Proto)
include h

theorem measure_lt (hs : State.step cfg s a = some t) : t.measure < s.measure := by
  obtain ⟨he, rfl⟩ := step_eq_some.mp hs
  cases a with
  | copy p =>
    obtain ⟨hin, -, hb, hst⟩ := he
    refine measure_lt_of_packet ⟨hin.2.1, hin.lt, hin.1, hb⟩ rfl rfl
      (fun r hr => update_of_ne hr ..) ?_
    simp [effect, hst, remaining]
  | put p =>
    obtain ⟨hin, -, hb, hst, -⟩ := he
    refine measure_lt_of_packet ⟨hin.2.1, hin.lt, hin.1, hb⟩ rfl rfl
      (fun r hr => update_of_ne hr ..) ?_
    simp [effect, hst, remaining]
  | fetch p =>
    have hst : s.scratch.status p = .posted := he
    refine measure_lt_of_packet (p := p) (h.sent (by simp [hst])).1 rfl rfl
      (fun r hr => update_of_ne hr ..) ?_
    simp [effect, Box.fetch, hst, remaining]
  | deliver p =>
    obtain ⟨w, hw⟩ := isFlying_iff.mp he
    refine measure_lt_of_packet (p := p) (h.sent (by simp [hw])).1 rfl rfl
      (fun r hr => (Box.status_deliver he).trans (if_neg hr)) ?_
    simp [effect, Box.status_deliver he, hw, remaining]
  | signal q =>
    obtain ⟨hin, -, hst⟩ := he
    refine measure_lt_of_signal hin.validSignal rfl rfl
      (fun r hr => update_of_ne hr ..) ?_
    simp [effect, hst, remaining]
  | deliverSignal q =>
    obtain ⟨hfly, -⟩ := he
    obtain ⟨w, hw⟩ := isFlying_iff.mp hfly
    refine measure_lt_of_signal (q := q) (h.signalled (by simp [hw])).1 rfl rfl
      (fun r hr => (Box.status_deliver hfly).trans (if_neg hr)) ?_
    simp [effect, Box.status_deliver hfly, hw, remaining]
  | wait pe =>
    obtain ⟨hin, -, hw, -⟩ := he
    refine measure_lt_of_peCost hin.1 rfl rfl
      (fun x hx => peCost_congr rfl rfl (update_of_ne hx ..) rfl) ?_
    refine Nat.add_lt_add_right (Nat.add_lt_add_left ?_ _) _
    simp [effect, hw]
  | reduce pe e =>
    obtain ⟨hpe, hw, hlt, hnot⟩ := he
    have hred : ∀ x e', (s.effect (.reduce pe e)).reduced x e' =
        if x = pe ∧ e' = e then true else s.reduced x e' := fun _ _ => rfl
    refine measure_lt_of_peCost hpe rfl rfl (fun x hx => peCost_congr rfl rfl rfl ?_) ?_
    · funext e'
      rw [hred, if_neg fun hand => hx hand.1]
    · have hmem : e ∈ range cfg.maxReduce :=
        mem_range.mpr (hlt.trans_le (h.waiting hpe hw).1.2.1.reduceCount_le)
      have hself : (s.effect (.reduce pe e)).reduced pe e = true := if_pos ⟨rfl, rfl⟩
      refine Nat.add_lt_add_left (sum_lt_sum_of_eq_off hmem (fun e' he' => ?_) ?_) _
      · have hother : ¬ (pe = pe ∧ e' = e) := fun hand => he' hand.2
        rw [hred, if_neg hother]
      · rw [hself, hnot]
        simp
  | nextPhase pe =>
    obtain ⟨hpe, hw, -⟩ := he
    have hlt := (h.waiting hpe hw).1.lt
    refine measure_lt_of_peCost hpe rfl rfl (fun x hx => peCost_congr rfl
      (update_of_ne hx ..) (update_of_ne hx ..) (update_of_ne hx ..)) ?_
    apply peCost_lt_of_rounds
    simp only [rounds, effect, update_self]
    omega
  | next pe =>
    obtain ⟨hpe, hend, hle⟩ := he
    rw [step2Nphases_eq hpe] at hend
    refine measure_lt_of_peCost hpe rfl rfl (fun x hx => peCost_congr
      (update_of_ne hx ..) (update_of_ne hx ..) rfl rfl) ?_
    apply peCost_lt_of_rounds
    simp only [rounds, effect, update_self, hend]
    rw [show cfg.calls.length + 1 - s.call pe =
      cfg.calls.length + 1 - (s.call pe + 1) + 1 by omega, succ_mul]
    omega

end Proto

section Progress

def Quiet (s : State cfg) : Prop := ∀ a, ¬ s.Enabled a

variable (h : s.Proto) (hq : s.Quiet)
include hq

theorem Quiet.arrived (hp : s.scratch.status p ≠ .idle) : s.scratch.status p = .arrived := by
  cases hst : s.scratch.status p with
  | idle => exact absurd hst hp
  | posted => exact absurd hst (hq (.fetch p))
  | flying w => exact absurd (isFlying_iff.mpr ⟨w, hst⟩) (hq (.deliver p))
  | arrived => rfl

theorem Quiet.hasPut (hin : s.InPhase pe c i) : s.HasPut c i pe := by
  intro b hb hidle
  refine hq (.put ⟨c, i, pe, false, b⟩) ⟨hin, rfl, hb, hidle, fun b' hb' => hq.arrived ?_⟩
  intro hidle'
  exact hq (.copy ⟨c, i, pe, true, b'⟩) ⟨hin, rfl, hb', hidle'⟩

include h

theorem Proto.signal_arrived_of_quiet (hsent : s.pSync.status q ≠ .idle) :
    s.pSync.status q = .arrived := by
  obtain ⟨-, -, hput, hposted⟩ := h.signalled hsent
  cases hst : s.pSync.status q with
  | idle => exact absurd hst hsent
  | posted => exact absurd hst hposted
  | flying w =>
    exact absurd ⟨isFlying_iff.mpr ⟨w, hst⟩, fun b hb => hq.arrived (hput b hb)⟩
      (hq (.deliverSignal q))
  | arrived => rfl

theorem Proto.signal_arrived_of_reached (hx : x < cfg.size) (hc : cfg.IsCall c) (hi : i < cfg.m)
    (hr : s.Reached c i x) : s.pSync.status ⟨c, i, x⟩ = .arrived := by
  refine h.signal_arrived_of_quiet hq fun hidle => ?_
  rcases hr with hlt | ⟨hcall, hle⟩
  · exact (h.past hx hc hi (.inl hlt)).1 hidle
  · rcases Nat.lt_or_eq_of_le hle with hlt | heq
    · exact (h.past hx hc hi (.inr ⟨hcall, hlt⟩)).1 hidle
    · have hin : s.InPhase x c i := ⟨hx, hc, hcall, heq, step2Nphases_eq hx ▸ hi⟩
      exact hq (.signal ⟨c, i, x⟩) ⟨hin, hq.hasPut hin, hidle⟩

theorem Proto.not_inPhase_of_quiet (hin : s.InPhase pe c i)
    (hnbr : s.Reached c i (cfg.nbr pe i)) : False := by
  obtain ⟨hpe, hc, rfl, rfl, -⟩ := id hin
  have hlt := nbr_lt hpe hin.lt
  have hsig := h.signal_arrived_of_reached hq hlt hc hin.lt hnbr
  have hown := h.signal_arrived_of_reached hq hpe hc hin.lt hin.reached
  have hmem := h.sync.kept hsig fun hret => Nat.lt_irrefl _ (hret pe hpe)
  rw [signalPlace, nbr_nbr hpe hin.lt] at hmem
  have hw : s.waited pe = true := by
    by_contra hw
    exact hq (.wait pe) ⟨hin, hq.hasPut hin, Bool.eq_false_of_not_eq_true hw, hmem.ge⟩
  refine hq (.nextPhase pe) ⟨hpe, hw, fun e he => ?_, by simp [hown]⟩
  by_contra hnot
  exact hq (.reduce pe e) ⟨hpe, hw, he, Bool.eq_false_of_not_eq_true hnot⟩

theorem Proto.finished_of_quiet : s.Finished := by
  by_contra hnot
  unfold Finished at hnot
  push Not at hnot
  obtain ⟨y, hy, hne⟩ := hnot
  -- The PE that is furthest behind.
  obtain ⟨x, hx, hmin⟩ := exists_min_image (range cfg.size)
    (fun x => s.call x * (cfg.m + 1) + s.phase x) ⟨y, mem_range.mpr hy⟩
  have hx := mem_range.mp hx
  have hreached : ∀ z < cfg.size, s.Reached (s.call x) (s.phase x) z := by
    intro z hz
    have hle := hmin z (mem_range.mpr hz)
    have := h.phase_le hz
    rcases Nat.lt_trichotomy (s.call x) (s.call z) with hlt | heq | hlt
    · exact .inl hlt
    · exact .inr ⟨heq, by rw [heq] at hle; omega⟩
    · have hmul : (s.call z + 1) * (cfg.m + 1) ≤ s.call x * (cfg.m + 1) :=
        Nat.mul_le_mul_right _ hlt
      rw [succ_mul] at hmul
      omega
  have hcall : s.call x ≤ cfg.calls.length := by
    have := h.call_le hy
    rcases hreached y hy with hlt | ⟨heq, -⟩ <;> omega
  have hphase : s.phase x < cfg.m := by
    refine Nat.lt_of_le_of_ne (h.phase_le hx) fun heq => ?_
    exact hq (.next x) ⟨hx, heq.trans (step2Nphases_eq hx).symm, hcall⟩
  have hpos : 0 < s.call x := by
    refine Nat.pos_of_ne_zero fun hzero => ?_
    exact hphase.ne (h.start hx hzero)
  exact h.not_inPhase_of_quiet hq ⟨hx, ⟨hpos, hcall⟩, rfl, rfl, step2Nphases_eq hx ▸ hphase⟩
    (hreached _ (nbr_lt hx hphase))

end Progress

theorem Proto.finishes (h : s.Proto) :
    Inevitable (fun _ => True) (State.step cfg) Finished s := by
  refine Inevitable.of_measure measure (fun hI hs => Proto.step hI hs)
    (fun hI _ hs => Proto.measure_lt hI hs) (fun {u} hI hfin => ?_) h
  by_contra hno
  push Not at hno
  refine hfin (hI.finished_of_quiet fun a he => ?_)
  exact hno a (u.effect a) trivial (step_eq_some.mpr ⟨he, rfl⟩)

/-- If the offsets of all slots fit an `int`, the calls end with the combination of all sources at
every PE, and no slot is overwritten before it has been read. -/
theorem allreduce_correct (cfg : Config) (hn : cfg.Narrow) (s : State cfg)
    (hs : Reachable (step cfg) (init cfg) s) :
    s.Correct ∧ Inevitable (fun _ => True) (step cfg) Finished s := by
  obtain ⟨h, v⟩ : s.Proto ∧ s.Values :=
    hs.invariant (I := fun s => s.Proto ∧ s.Values) ⟨proto_init, values_init⟩
      fun ⟨h, v⟩ ht => ⟨h.step ht, v.step h hn ht⟩
  exact ⟨v.correct h hn, h.finishes⟩

def xorCall (sizeofT nreduce : ℕ) (sizeofT_pos : 0 < sizeofT) (source : ℕ → ℕ → Byte) : Call where
  sizeofT := sizeofT
  nreduce := nreduce
  op x y i := x i ^^^ y i
  source := source
  sizeofT_pos := sizeofT_pos
  op_assoc x y z := funext fun i => BitVec.xor_assoc (x i) (y i) (z i)
  op_comm x y := funext fun i => BitVec.xor_comm (x i) (y i)

def twoCalls : Config where
  m := 1
  reduceScratchSize := 64
  calls := [xorCall 1 3 Nat.one_pos fun pe b => .ofNat 8 (pe + b),
    xorCall 2 1 Nat.two_pos fun pe b => .ofNat 8 (pe * b)]
  rdxnCount := 0
  syncCounter := 1
  scratch _ := 0
  pSync _ := 0
  pSync_lt _ := Nat.one_pos
  fits := by decide

theorem allreduce_correct_twoCalls : twoCalls.Narrow ∧
    ∃ s, Reachable (step twoCalls) (init twoCalls) s ∧ s.Finished ∧ s.Correct := by
  have hn : twoCalls.Narrow := by decide
  obtain ⟨s, hs, hfin⟩ := (allreduce_correct twoCalls hn _ ⟨[], rfl⟩).2.exists_reachable
  exact ⟨hn, s, hs, hfin, (allreduce_correct twoCalls hn s hs).1⟩

/-- Two PEs with one call for `2 ^ 30` bytes, whose second slot has the offset `2 ^ 31`. -/
def wideOffsets : Config where
  m := 1
  reduceScratchSize := 2 ^ 36
  calls := [xorCall 1 (2 ^ 30) Nat.one_pos fun pe _ => .ofNat 8 pe]
  rdxnCount := 0
  syncCounter := 1
  scratch _ := 0
  pSync _ := 0
  pSync_lt _ := Nat.one_pos
  fits := by decide

namespace Wide

variable {s t : State wideOffsets}

structure Inv (s : State wideOffsets) : Prop where
  proto : s.Proto
  mem : ∀ x < 2 ^ 35, s.scratch.mem (0, x) = 0
  dst : ∀ b, 1 ≤ s.call 0 → s.dst 1 0 b = 0

theorem eq_one (hc : wideOffsets.IsCall c) : c = 1 := Nat.le_antisymm hc.2 hc.1

theorem linearReduce_eq {x y : ℕ → Byte} {b : ℕ} :
    (wideOffsets.call 1).linearReduce x y b = x b ^^^ y b := by
  change x (b / 1 * 1 + b % 1) ^^^ y (b / 1 * 1 + b % 1) = _
  rw [Nat.div_one, Nat.mul_one, mod_one, Nat.add_zero]

theorem readAddr_eq :
    wideOffsets.readAddr 1 0 (recvSlot 0 (wideOffsets.nbr 0 0)) = 2 ^ 35 - 2 ^ 31 := by
  rw [nbr_eq (by decide) (by decide)]
  decide

theorem inv_init : Inv (init wideOffsets) where
  proto := proto_init
  mem _ _ := rfl
  dst _ hcall := absurd hcall (by decide)

namespace Inv

variable (h : Inv s)
include h

theorem mem_effect (he : s.Enabled a) {x : ℤ} (hx : x < 2 ^ 35) :
    (s.effect a).scratch.mem (0, x) = 0 := by
  cases a with
  | deliver p =>
    obtain ⟨w, hw⟩ := isFlying_iff.mp he
    obtain ⟨hv, -, -⟩ := h.proto.sent (show s.scratch.status p ≠ .idle by rw [hw]; simp)
    have hhalf : wideOffsets.half * ((wideOffsets.rdxnCount + 1) % 2) = 2 ^ 35 := by decide
    have hne : ((0, x) : ℕ × ℤ) ≠ wideOffsets.place p := by
      intro heq
      rw [place_eq hv, eq_one hv.isCall] at heq
      have := (Prod.mk.inj heq).2
      omega
    exact (Box.mem_deliver hw).trans ((if_neg hne).trans (h.mem x hx))
  | _ => exact h.mem x hx

theorem dst_effect (he : s.Enabled a) {b : ℕ} (hcall : 1 ≤ (s.effect a).call 0) :
    (s.effect a).dst 1 0 b = 0 := by
  cases a with
  | reduce pe e =>
    have hdst : (s.effect (.reduce pe e)).dst 1 0 =
        if 1 = s.call pe ∧ 0 = pe then s.reduceElem pe e else s.dst 1 0 := rfl
    rw [hdst]
    split
    next heq =>
      obtain ⟨hc, rfl⟩ := heq
      obtain ⟨hpe, hw, hlt, -⟩ := he
      have hphase : s.phase 0 = 0 := lt_one_iff.mp (h.proto.waiting hpe hw).1.lt
      rw [reduceElem, ← hc, hphase]
      split
      next hb =>
        have hb30 : b < 2 ^ 30 := by
          rw [← hc] at hlt
          have hcount : (wideOffsets.call 1).reduceCount = 2 ^ 30 := by decide
          rw [← hb] at hlt
          exact (Nat.div_one b).symm ▸ hlt
        rw [linearReduce_eq, h.dst b hcall, slot, readAddr_eq, h.mem _ (by omega)]
        rfl
      next => exact h.dst b hcall
    next => exact h.dst b hcall
  | next pe =>
    have hdst : (s.effect (.next pe)).dst 1 0 =
        if 1 = s.call pe + 1 ∧ 0 = pe then (wideOffsets.call (s.call pe + 1)).source pe
        else s.dst 1 0 := rfl
    have hcall0 : (s.effect (.next pe)).call 0 = if 0 = pe then s.call pe + 1 else s.call 0 :=
      update_apply ..
    rw [hdst]
    split
    next heq =>
      obtain ⟨hc, rfl⟩ := heq
      rw [← hc]
      rfl
    next hnot =>
      refine h.dst b ?_
      rw [hcall0] at hcall
      split at hcall
      next heq =>
        subst heq
        omega
      next => exact hcall
  | _ => exact h.dst b hcall

theorem step (hs : State.step wideOffsets s a = some t) : Inv t := by
  refine ⟨h.proto.step hs, ?_, ?_⟩
  all_goals obtain ⟨he, rfl⟩ := step_eq_some.mp hs
  · exact fun x hx => h.mem_effect he hx
  · exact fun b hcall => h.dst_effect he hcall

end Inv

end Wide

/-- PE 0 ends with its own source. -/
theorem not_correct_wideOffsets :
    ∃ s, Reachable (step wideOffsets) (init wideOffsets) s ∧ s.Finished ∧ ¬ s.Correct := by
  obtain ⟨s, hs, hfin⟩ := (show (init wideOffsets).Proto from proto_init).finishes.exists_reachable
  have hinv : Wide.Inv s := hs.invariant Wide.inv_init fun h ht => h.step ht
  have hcall : s.call 0 = 2 := hfin 0 (by decide)
  refine ⟨s, hs, hfin, fun hcorrect => ?_⟩
  have hcomb := hcorrect.complete 0 (by decide) 1 (by omega) (by decide) 0 (by decide)
  rw [hinv.dst 0 (by omega)] at hcomb
  exact absurd hcomb (by decide)

end State

end Nvshmem.Allreduce
