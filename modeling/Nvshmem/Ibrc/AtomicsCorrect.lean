import Nvshmem.Ibrc.AtomicsRefinement

/-! # Software atomics are performed once and in order

A message that is issued is performed once, in the order of its queue pair, on the memory that the
messages before it have left; its sender gets what it returns. The counters of a PE are those of
its messages and their answers, so a quiet that sees them equal has waited for all of them.
-/

namespace Nvshmem.Ibrc.Atomics

open Transition List Option

open Proxy (Amo)

open Rpc (Channel Call Flow callsOn)

def Pe.toPerform (p : Pe) : List ℕ :=
  if p.oldValue = none then p.bqueueToprocess else p.bqueueToprocess.tail

namespace State

/-- A message that has not been performed is in the queue of the target, in a buffer that has been
received, or on its queue pair. -/
def Pending (s : State) (m : Message) : Prop :=
  (∃ b ∈ (s.pe m.channel.dst).toPerform, (s.pe m.channel.dst).buf b = some (.op m)) ∨
    (∃ c ∈ (s.pe m.channel.dst).recvCq, c.imm = none ∧
      (s.pe m.channel.dst).buf c.buf = some (.op m)) ∨
    .send (.op m) ∈ s.wire m.channel

/-- An answer that has not been delivered is on the queue pair, or is going to be posted. -/
def AnswerPending (s : State) (m : Message) (r : Option Return) : Prop :=
  (∃ packet ∈ s.wire m.channel.back, packet.answer = some (m, r)) ∨
    ∃ old, (s.pe m.channel.dst).oldValue = some old ∧ r = m.request.ret old ∧
      (s.pe m.channel.dst).bqueueToprocess.head?.bind (s.pe m.channel.dst).buf = some (.op m)

/-- Messages are performed once, in the order of each queue pair and on one memory after the other,
what they return is what their senders get, and the buffers are divided among the free pool, the
shared receive queue and the queue of messages. -/
structure Correct (cfg : Config) (mem : ℕ → ℕ → Byte) (s : State) : Prop where
  once : s.issued.Nodup ∧ (s.performed.map Prod.fst).Nodup ∧
    ∀ m ∈ s.performed.map Prod.fst, m ∈ s.issued
  performed_iff : ∀ m ∈ s.issued, m ∈ s.performed.map Prod.fst ↔ ¬ s.Pending m
  order : ∀ ch, callsOn ch (s.performed.map Prod.fst) <+: callsOn ch s.issued
  memory : ∀ i, (s.pe i).mem = Flow.stateAfter serve mem (s.performed.map Prod.fst) i
  returned : ∀ before m r later, s.performed = before ++ (m, r) :: later → r = m.request.ret
    ((load (Flow.stateAfter serve mem (before.map Prod.fst) m.channel.dst) m.request.addr
      m.request.elembytes).setWidth 64)
  delivered : (s.delivered.map Prod.fst).Nodup ∧ ∀ x ∈ s.delivered, x ∈ s.performed
  delivered_iff : ∀ m r, (m, r) ∈ s.performed → ((m, r) ∈ s.delivered ↔ ¬ s.AnswerPending m r)
  buffers : ∀ i, ((s.pe i).bpoolFree ++ (s.pe i).posted ++ (s.pe i).bqueueToprocess).Perm
    (List.range cfg.srqDepth)
  quiet : ∀ i t, s.step cfg (.quietReturn i) = some t → ∀ m ∈ s.issued, m.channel.src = i →
    ∃ r, (m, r) ∈ s.performed ∧ (m, r) ∈ s.delivered

section Invariant

variable {cfg : Config} {mem : ℕ → ℕ → Byte} {s t : State} {a : Action}

structure Inv (cfg : Config) (mem : ℕ → ℕ → Byte) (s : State) : Prop where
  wf : ∀ i, (s.pe i).Wf cfg
  flow : Flow.Inv serve mem s.view
  issued_eq : ∀ i, (s.pe i).atomicsIssued = (s.issued.filter (·.channel.src = i)).length
  acked_eq : ∀ i, (s.pe i).atomicsAcked = (s.polled.filter (·.1.channel.src = i)).length

namespace Inv

theorem start : Inv cfg mem (State.start cfg mem) where
  wf i := .start (mem i)
  flow := Flow.Inv.start
  issued_eq _ := rfl
  acked_eq _ := rfl

theorem flow_of_moved (h : Inv cfg mem s) (ht : s.step cfg a = some t) :
    Flow.Inv serve mem t.view := by
  have hrun := simulates s a t h.wf ht
  exact (Reachable.of_exec hrun).invariant (I := Flow.Inv serve mem) h.flow
    fun hu hv => hu.moved (.of_step hv)

section Counter

variable {α : Type*} {g : Pe → ℕ} {f : α → ℕ} {xs : List α} {i : ℕ} {p : Pe}

theorem counter_updatePe (h : ∀ i, g (s.pe i) = (xs.filter (f · = i)).length)
    (hp : g p = g (s.pe i)) :
    ∀ j, g (Function.update s.pe i p j) = (xs.filter (f · = j)).length := by
  intro j
  rw [Function.update_apply, ← h j]
  split_ifs with hj
  · rw [hp, hj]
  · rfl

theorem counter_concat (h : ∀ i, g (s.pe i) = (xs.filter (f · = i)).length)
    (hp : g p = g (s.pe i) + 1) {x : α} (hx : f x = i) :
    ∀ j, g (Function.update s.pe i p j) = ((xs ++ [x]).filter (f · = j)).length := by
  intro j
  rw [Function.update_apply, filter_append, length_append, ← h j, filter_singleton,
    hx]
  by_cases hj : j = i
  · rw [if_pos hj, hp, hj, decide_eq_true rfl]
    rfl
  · rw [if_neg hj, decide_eq_false (Ne.symm hj)]
    rfl

end Counter

theorem counters (h : Inv cfg mem s) (hm : Moved cfg s a t) :
    (∀ i, (t.pe i).atomicsIssued = (t.issued.filter (·.channel.src = i)).length) ∧
      ∀ i, (t.pe i).atomicsAcked = (t.polled.filter (·.1.channel.src = i)).length := by
  cases hm with
  | @amo ch op =>
    exact ⟨counter_concat (g := Pe.atomicsIssued) h.issued_eq rfl rfl,
      counter_updatePe (g := Pe.atomicsAcked) h.acked_eq rfl⟩
  | @deliver ch b packet packets hwire hb =>
    have hsame : ((s.pe ch.dst).receive ch b packet).atomicsIssued = (s.pe ch.dst).atomicsIssued ∧
        ((s.pe ch.dst).receive ch b packet).atomicsAcked = (s.pe ch.dst).atomicsAcked := by
      cases packet <;> exact ⟨rfl, rfl⟩
    exact ⟨counter_updatePe h.issued_eq hsame.1, counter_updatePe h.acked_eq hsame.2⟩
  | refill i =>
    obtain ⟨hissued, hacked⟩ := Pe.counters_refillSrq cfg (s.pe i)
    exact ⟨counter_updatePe h.issued_eq hissued, counter_updatePe h.acked_eq hacked⟩
  | @pollRecv i c cq hcq =>
    obtain ⟨hissued, hacked⟩ :=
      Pe.counters_refillSrq cfg (((s.pe i).takeCompletion cq).pollCompletion c)
    refine ⟨counter_updatePe h.issued_eq (hissued.trans (Pe.view_takeCompletion _ _ _).2.2), ?_⟩
    cases Pe.polled_pollCompletion (h.wf i) hcq with
    | call m hinbox hqueue hacked' hanswer =>
      simp only [pollRecv, hanswer, toList_none, append_nil]
      exact counter_updatePe h.acked_eq (hacked.trans hacked')
    | answer m r hinbox hqueue hacked' hanswer =>
      -- an answer is polled by the sender of its message
      have hsrc : m.channel.src = i := by
        obtain ⟨hroute, hdst⟩ := h.flow.routed.inbox i (c.qpNum, .answer m r)
          (show _ ∈ (s.pe i).inbox from hinbox ▸ mem_cons_self)
        exact (congrArg Channel.dst hroute).trans hdst
      simp only [pollRecv, hanswer, toList_some]
      exact counter_concat h.acked_eq (hacked.trans hacked') hsrc
  | perform | answer | quiet i | quietReturn i =>
    exact ⟨counter_updatePe (g := Pe.atomicsIssued) h.issued_eq rfl,
      counter_updatePe (g := Pe.atomicsAcked) h.acked_eq rfl⟩

theorem step (h : Inv cfg mem s) (ht : s.step cfg a = some t) : Inv cfg mem t :=
  ⟨(Moved.of_step ht).wf h.wf, h.flow_of_moved ht, (h.counters (.of_step ht)).1,
    (h.counters (.of_step ht)).2⟩

end Inv

section Pending

variable {m : Message} {r : Option Return}

theorem mem_wireCalls : m ∈ s.view.wireCalls m.channel ↔ .send (.op m) ∈ s.wire m.channel := by
  simp only [Rpc.Flow.wireCalls, view, mem_filterMap, List.mem_map]
  constructor
  · rintro ⟨_, ⟨packet, hpacket, rfl⟩, hcall⟩
    cases packet with
    | send content =>
      cases content with
      | op m' =>
        rw [Packet.view, Rpc.Packet.callOn] at hcall
        split_ifs at hcall
        exact Option.some.inj hcall ▸ hpacket
      | ack m' => exact absurd hcall.symm (some_ne_none m)
    | writeWithImm m' r' => exact absurd hcall.symm (some_ne_none m)
  · exact fun h => ⟨_, ⟨_, h, rfl⟩, if_pos rfl⟩

theorem packetOf_eq_call {p : Pe} {c : Completion} :
    p.packetOf c = some (.call m) ↔ c.imm = none ∧ p.buf c.buf = some (.op m) := by
  rw [Pe.packetOf]
  split <;> simp_all

theorem mem_inboxCalls : m ∈ s.view.inboxCalls m.channel ↔
    ∃ c ∈ (s.pe m.channel.dst).recvCq, c.imm = none ∧
      (s.pe m.channel.dst).buf c.buf = some (.op m) := by
  simp only [Rpc.Flow.inboxCalls, view, Pe.inbox, mem_filterMap, ← packetOf_eq_call]
  constructor
  · rintro ⟨x, ⟨c, hc, hmap⟩, hcall⟩
    obtain ⟨packet, hpacket, rfl⟩ := map_eq_some_iff.mp hmap
    refine ⟨c, hc, hpacket.trans ?_⟩
    cases packet with
    | call m' =>
      rw [Rpc.Packet.callOn] at hcall
      split_ifs at hcall
      rw [Option.some.inj hcall]
    | answer m' r' => exact absurd hcall.symm (some_ne_none m)
  · rintro ⟨c, hc, hpacket⟩
    exact ⟨_, ⟨c, hc, map_eq_some_iff.mpr ⟨_, hpacket, rfl⟩⟩, if_pos rfl⟩

theorem messageOf_eq_some {p : Pe} {b : ℕ} {x : Channel ℕ × Message} :
    p.messageOf b = some x ↔ p.buf b = some (.op x.2) ∧ p.qpNum b = x.1 := by
  obtain ⟨ch, m⟩ := x
  rw [Pe.messageOf]
  split <;> simp_all [and_comm]

theorem waiting_eq (h : ∀ i, (s.pe i).Wf cfg) (i : ℕ) :
    s.view.waiting i = (s.pe i).toPerform.filterMap (s.pe i).messageOf := by
  change (if ((s.pe i).serving).isSome then (s.pe i).queue.tail else (s.pe i).queue) = _
  rw [Pe.toPerform, Pe.serving]
  cases hold : (s.pe i).oldValue with
  | none => rfl
  | some old =>
    obtain ⟨b, q, hq⟩ := exists_cons_of_ne_nil
      ((h i).performing (hold ▸ some_ne_none old))
    obtain ⟨m, hm⟩ := (h i).queued b (hq ▸ mem_cons_self)
    rw [if_neg (some_ne_none old), Pe.view_popFront hq hm]
    rfl

theorem mem_waitingCalls (h : ∀ i, (s.pe i).Wf cfg) : m ∈ s.view.waitingCalls m.channel ↔
    ∃ b ∈ (s.pe m.channel.dst).toPerform, (s.pe m.channel.dst).buf b = some (.op m) := by
  simp only [Rpc.Flow.waitingCalls, Rpc.mem_callsOn, and_true, List.mem_map, waiting_eq h,
    mem_filterMap, messageOf_eq_some]
  constructor
  · rintro ⟨x, ⟨b, hb, hbuf, -⟩, rfl⟩
    exact ⟨b, hb, hbuf⟩
  · rintro ⟨b, hb, hbuf⟩
    exact ⟨(_, m), ⟨b, hb, hbuf, rfl⟩, rfl⟩

theorem mem_wireAnswers : (m, r) ∈ s.view.wireAnswers m.channel ↔
    ∃ packet ∈ s.wire m.channel.back, packet.answer = some (m, r) := by
  simp only [Rpc.Flow.wireAnswers, view, mem_filterMap, List.mem_map]
  constructor
  · rintro ⟨_, ⟨packet, hpacket, rfl⟩, hanswer⟩
    refine ⟨packet, hpacket, ?_⟩
    cases packet with
    | send content =>
      cases content with
      | op m' => exact absurd hanswer.symm (some_ne_none _)
      | ack m' =>
        rw [Packet.view, Rpc.Packet.answerOn] at hanswer
        split_ifs at hanswer
        exact hanswer
    | writeWithImm m' r' =>
      rw [Packet.view, Rpc.Packet.answerOn] at hanswer
      split_ifs at hanswer
      exact hanswer
  · rintro ⟨packet, hpacket, hanswer⟩
    refine ⟨_, ⟨packet, hpacket, rfl⟩, ?_⟩
    cases packet with
    | send content =>
      cases content with
      | op m' => exact absurd hanswer.symm (some_ne_none _)
      | ack m' =>
        obtain ⟨rfl, rfl⟩ := Prod.mk.inj (Option.some.inj hanswer)
        exact if_pos rfl
    | writeWithImm m' r' =>
      obtain ⟨rfl, rfl⟩ := Prod.mk.inj (Option.some.inj hanswer)
      exact if_pos rfl

theorem mem_currentAnswers (h : ∀ i, (s.pe i).Wf cfg) : (m, r) ∈ s.view.currentAnswers m.channel ↔
    ∃ old, (s.pe m.channel.dst).oldValue = some old ∧ r = m.request.ret old ∧
      (s.pe m.channel.dst).bqueueToprocess.head?.bind (s.pe m.channel.dst).buf = some (.op m) := by
  rw [Rpc.Flow.currentAnswers, Rpc.mem_answersOn, and_iff_left rfl, Rpc.Flow.current]
  generalize m.channel.dst = i
  have hview : s.view.serving i = (s.pe i).serving := rfl
  cases hold : (s.pe i).oldValue with
  | none =>
    have hserving : (s.pe i).serving = none := by rw [Pe.serving, hold]
    simp [hview, hserving]
  | some old =>
    obtain ⟨b, q, hq⟩ := exists_cons_of_ne_nil
      ((h i).performing (hold ▸ some_ne_none old))
    obtain ⟨m', hm'⟩ := (h i).queued b (hq ▸ mem_cons_self)
    have hqueue : s.view.queue i = _ := Pe.view_popFront hq hm'
    have hserving : (s.pe i).serving = some (m'.request.ret old) := by
      rw [Pe.serving, hold, Pe.view_popFront hq hm']
    rw [hview, hserving, hqueue]
    simp only [mem_singleton, Prod.mk.injEq, Option.some.injEq, exists_eq_left', hq,
      head?_cons, bind_some, hm', Send.op.injEq]
    constructor
    · rintro ⟨rfl, rfl⟩
      exact ⟨rfl, rfl⟩
    · rintro ⟨rfl, rfl⟩
      exact ⟨rfl, rfl⟩

end Pending

/-- `serve` returns the value that it has found. -/
theorem serve_snd (op : AtomicOp) (mem : ℕ → Byte) :
    (serve op mem).2 = op.ret ((load mem op.addr op.elembytes).setWidth 64) := by
  obtain ⟨old, mem', hperform⟩ := op.exists_perform mem
  rw [serve, hperform]
  obtain ⟨new, -, hnew⟩ := map_eq_some_iff.mp hperform
  exact congrArg op.ret (Prod.mk.inj hnew).1.symm

theorem Inv.correct (h : Inv cfg mem s) : s.Correct cfg mem where
  once := ⟨h.flow.nodup_issued, h.flow.nodup_served, fun m hm => h.flow.mem_issued hm⟩
  performed_iff m hm := by
    refine (h.flow.mem_served_iff hm).trans (not_congr ?_)
    rw [mem_append, mem_append, mem_waitingCalls h.wf, mem_inboxCalls, mem_wireCalls,
      Pending]
  order := h.flow.served_prefix_issued
  memory := h.flow.replayed.state
  returned before m r later hsplit :=
    (h.flow.replayed.answer before m r later hsplit).trans (serve_snd _ _)
  delivered := ⟨h.flow.nodup_of_prefix_served h.flow.delivered_prefix_served,
    fun x hx => h.flow.mem_served_of_delivered hx⟩
  delivered_iff m r hr := by
    refine (h.flow.mem_delivered_iff hr).trans (not_congr ?_)
    rw [mem_append, mem_wireAnswers, mem_currentAnswers h.wf, AnswerPending]
  buffers i := (h.wf i).partition
  quiet i t ht m hm hsrc := by
    rw [State.step] at ht
    split at ht
    · next hquiet =>
      have hlen : (s.issued.filter (·.channel.src = i)).length ≤
          (s.polled.filter (·.1.channel.src = i)).length := by
        rw [← h.issued_eq i, ← h.acked_eq i]
        omega
      obtain ⟨r, hr⟩ := h.flow.exists_mem_polled hlen hm hsrc
      exact ⟨r, h.flow.mem_served hr, h.flow.mem_delivered hr⟩
    · exact absurd ht.symm (some_ne_none t)

end Invariant

end State

/-- In every run of any number of PEs, software atomics are correct. -/
theorem atomics_correct (cfg : Config) (mem : ℕ → ℕ → Byte) (s : State)
    (hs : Reachable (State.step cfg) (State.start cfg mem) s) : s.Correct cfg mem :=
  (hs.invariant (I := State.Inv cfg mem) .start fun h ht => h.step ht).correct

def twoBuffers : Config where
  numRcPerDevice := 1
  numRcPerDevice_pos := Nat.one_pos
  qpDepth := 1024
  srqDepth := 2
  connectedQpCount := 2
  useIbNativeAtomics := true
  useGdrcopy := true
  device _ := 0

theorem fetchAdd_implemented : Amo.fetchAdd ∉ [Amo.ack, .inc, .endOfNonfetch, .fetchInc] := by
  decide

theorem four_mem : 4 ∈ [2, 4, 8] := by decide

def AtomicOp.fetchAddFive : AtomicOp :=
  ⟨.fetchAdd, 16, 64, 7, 4, 0, 5, fetchAdd_implemented, four_mem⟩

/-- PE 0 gets the value 3 that the memory of PE 1 had, and then its quiet returns. -/
theorem atomics_correct_fetchAdd : ∃ s,
    Reachable (State.step twoBuffers)
        (State.start twoBuffers fun _ a => if a = 16 then 3 else 0) s ∧
      s.Correct twoBuffers (fun _ a => if a = 16 then 3 else 0) ∧
      s.delivered.map Prod.snd = [some ⟨64, 3, 7⟩] ∧ (s.pe 1).mem 16 = 8 := by
  exact Reachable.exists_of_exec [.pollRecv 0 false, .pollRecv 1 false,
    .issue ⟨1, 0, 1⟩ .fetchAddFive, .quiet 0, .deliver ⟨1, 0, 1⟩ 0, .pollRecv 1 true,
    .processRecv 1, .postAnswer 1, .deliver ⟨1, 1, 0⟩ 1, .pollRecv 0 true, .quietReturn 0]
    (fun s => s.delivered.map Prod.snd = [some ⟨64, 3, 7⟩] ∧ (s.pe 1).mem 16 = 8)
    (by decide +kernel) fun s hr h => ⟨atomics_correct _ _ s hr, h⟩

end Nvshmem.Ibrc.Atomics
