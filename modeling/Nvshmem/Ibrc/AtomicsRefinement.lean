import Nvshmem.Ibrc.Atomics
import Nvshmem.Transition.Simulation

/-! # Software atomics as calls and answers

The buffers of a PE are always divided among the free ones, the posted ones and the queue, so that
nothing is received into a buffer that still holds a message. Seen through the buffers, the atomics
are calls that the targets serve and answer.
-/

namespace Nvshmem.Ibrc.Atomics

open Transition List Option Function Option List

open Rpc (Channel Call Flow)

variable {cfg : Config}

def Packet.view : Packet → Rpc.Packet ℕ AtomicOp (Option Return)
  | .send (.op m) => .call m
  | .send (.ack m) => .answer m none
  | .writeWithImm m r => .answer m (some r)

namespace Pe

section Buffers

variable {p : Pe} {b : ℕ} {c : Completion} {cq : List Completion} {m : Message}

def posted (p : Pe) : List ℕ := p.srq ++ p.recvCq.map Completion.buf

structure Wf (cfg : Config) (p : Pe) : Prop where
  partition : (p.bpoolFree ++ p.posted ++ p.bqueueToprocess).Perm (List.range cfg.srqDepth)
  srqPosted_eq : p.srqPosted = p.posted.length
  received : ∀ c ∈ p.recvCq, c.imm = none → p.buf c.buf ≠ none
  queued : ∀ b ∈ p.bqueueToprocess, ∃ m, p.buf b = some (.op m)
  performing : p.oldValue ≠ none → p.bqueueToprocess ≠ []

theorem Wf.start (mem : ℕ → Byte) : (start cfg mem).Wf cfg where
  partition := by
    simp only [Pe.start, posted, map_nil, append_nil]
    exact reverse_perm _
  srqPosted_eq := rfl
  received := nofun
  queued := nofun
  performing h := absurd rfl h

/-- `refill_srq` posts free buffers. -/
theorem refill_spec (cfg : Config) (free : List ℕ) (p : Pe) : ∃ free' srq k,
    refill cfg free p = { p with bpoolFree := free', srq := srq, srqPosted := k } ∧
      (free' ++ srq).Perm (free ++ p.srq) ∧ k + p.srq.length = p.srqPosted + srq.length := by
  induction free generalizing p with
  | nil => exact ⟨[], p.srq, p.srqPosted, rfl, .rfl, rfl⟩
  | cons b free ih =>
    rw [refill]
    split_ifs with hlt
    · obtain ⟨free', srq, k, heq, hperm, hk⟩ :=
        ih { p with srq := p.srq ++ [b], srqPosted := p.srqPosted + 1 }
      refine ⟨free', srq, k, heq, hperm.trans ?_, ?_⟩
      · rw [← append_assoc]
        exact perm_append_singleton _ _
      · rw [length_append, length_singleton] at hk
        change _ = p.srqPosted + 1 + _ at hk
        omega
    · exact ⟨b :: free, p.srq, p.srqPosted, rfl, .rfl, rfl⟩

theorem Wf.refillSrq (h : p.Wf cfg) : (p.refillSrq cfg).Wf cfg := by
  obtain ⟨free', srq, k, heq, hperm, hk⟩ := refill_spec cfg p.bpoolFree p
  rw [Pe.refillSrq, heq]
  refine ⟨?_, ?_, h.received, h.queued, h.performing⟩
  · refine List.Perm.trans ?_ h.partition
    simp only [posted, ← append_assoc]
    exact (hperm.append_right _).append_right _
  · have hposted := h.srqPosted_eq
    simp only [posted, length_append] at hposted ⊢
    omega

theorem Wf.not_mem_of_mem_srq (h : p.Wf cfg) (hb : b ∈ p.srq) :
    b ∉ p.recvCq.map Completion.buf ∧ b ∉ p.bqueueToprocess := by
  have hnodup := h.partition.nodup_iff.mpr nodup_range
  rw [append_assoc, nodup_append', nodup_append', posted,
    nodup_append'] at hnodup
  exact ⟨hnodup.2.1.1.2.2 hb, hnodup.2.1.2.2 (mem_append_left _ hb)⟩

theorem Wf.not_mem_of_recvCq (h : p.Wf cfg) (hcq : p.recvCq = c :: cq) :
    c.buf ∉ cq.map Completion.buf ∧ c.buf ∉ p.bqueueToprocess := by
  have hnodup := h.partition.nodup_iff.mpr nodup_range
  rw [append_assoc, nodup_append', nodup_append', posted, nodup_append', hcq,
    map_cons, nodup_cons] at hnodup
  exact ⟨hnodup.2.1.1.2.1.1, hnodup.2.1.2.2 (mem_append_right _ mem_cons_self)⟩

theorem Wf.receive (h : p.Wf cfg) {ch : Channel ℕ} (hb : b ∈ p.srq) (packet : Packet) :
    (p.receive ch b packet).Wf cfg := by
  obtain ⟨hcq, hqueue⟩ := h.not_mem_of_mem_srq hb
  have hposted : (p.srq.erase b ++ (p.recvCq.map Completion.buf ++ [b])).Perm p.posted := by
    rw [← append_assoc]
    refine (perm_append_singleton _ _).trans ?_
    exact (perm_cons_erase hb).symm.append_right (p.recvCq.map Completion.buf)
  have hpartition : (p.bpoolFree ++ (p.srq.erase b ++ (p.recvCq.map Completion.buf ++ [b])) ++
      p.bqueueToprocess).Perm (range cfg.srqDepth) :=
    ((hposted.append_left _).append_right _).trans h.partition
  cases packet with
  | send snd =>
    refine ⟨?_, ?_, ?_, ?_, h.performing⟩
    · simpa only [posted, Pe.receive, map_append, map_singleton] using hpartition
    · simp only [posted, Pe.receive, map_append, map_singleton]
      exact h.srqPosted_eq.trans hposted.length_eq.symm
    · refine forall_mem_append.mpr
        ⟨fun c hc himm => ?_, forall_mem_singleton.mpr fun _ => ?_⟩
      · have hne : c.buf ≠ b := fun heq => hcq (heq ▸ mem_map_of_mem hc)
        simp only [Pe.receive, update_of_ne hne]
        exact h.received c hc himm
      · simp only [Pe.receive, update_self]
        exact some_ne_none snd
    · intro b' hb'
      have hne : b' ≠ b := fun heq => hqueue (heq ▸ hb')
      simp only [Pe.receive, update_of_ne hne]
      exact h.queued b' hb'
  | writeWithImm m r =>
    refine ⟨?_, ?_, ?_, h.queued, h.performing⟩
    · simpa only [posted, Pe.receive, map_append, map_singleton] using hpartition
    · simp only [posted, Pe.receive, map_append, map_singleton]
      exact h.srqPosted_eq.trans hposted.length_eq.symm
    · exact forall_mem_append.mpr ⟨h.received, forall_mem_singleton.mpr nofun⟩

theorem Wf.pollCompletion (h : p.Wf cfg) (hcq : p.recvCq = c :: cq) :
    ((p.takeCompletion cq).pollCompletion c).Wf cfg := by
  have hposted : p.posted.Perm (c.buf :: (p.srq ++ cq.map Completion.buf)) := by
    rw [posted, hcq]
    exact perm_middle
  have hlen : p.srqPosted - 1 = (p.srq ++ cq.map Completion.buf).length := by
    rw [h.srqPosted_eq, hposted.length_eq]
    rfl
  have hcount := fun x => h.partition.count_eq x
  have hpcount := fun x => hposted.count_eq x
  have hreceived : ∀ c' ∈ cq, c'.imm = none → p.buf c'.buf ≠ none :=
    fun c' hc' => h.received c' (hcq ▸ mem_cons_of_mem c hc')
  simp only [count_append, count_cons] at hcount hpcount
  rw [Pe.pollCompletion]
  split
  -- an acknowledgement, with or without a value
  · refine ⟨perm_iff_count.mpr fun x => ?_, hlen, hreceived, h.queued, h.performing⟩
    have := hcount x
    have := hpcount x
    simp only [takeCompletion, posted, count_append, count_cons]
    omega
  · refine ⟨perm_iff_count.mpr fun x => ?_, hlen, hreceived, h.queued, h.performing⟩
    have := hcount x
    have := hpcount x
    simp only [takeCompletion, posted, count_append, count_cons]
    omega
  -- a message
  · next himm hack =>
    refine ⟨perm_iff_count.mpr fun x => ?_, hlen, hreceived, ?_, fun _ => ?_⟩
    · have := hcount x
      have := hpcount x
      simp only [takeCompletion, posted, count_append, count_singleton]
      omega
    · refine forall_mem_append.mpr ⟨h.queued, forall_mem_singleton.mpr ?_⟩
      have hne := h.received c (hcq ▸ mem_cons_self) himm
      obtain ⟨snd, hsnd⟩ := ne_none_iff_exists'.mp hne
      cases snd with
      | op m => exact ⟨m, hsnd⟩
      | ack m => exact absurd hsnd (hack m)
    · exact append_ne_nil_of_right_ne_nil _ (cons_ne_nil _ _)

theorem Wf.popFront (h : p.Wf cfg) : p.popFront.Wf cfg := by
  refine ⟨List.Perm.trans ?_ h.partition, h.srqPosted_eq, h.received, fun b hb => ?_,
    fun hne => absurd rfl hne⟩
  · simp only [Pe.popFront]
    cases hq : p.bqueueToprocess with
    | nil => exact .rfl
    | cons b q =>
      refine perm_iff_count.mpr fun x => ?_
      simp only [head?_cons, toList_some, tail_cons, posted, count_append,
        count_cons, count_nil]
      omega
  · exact h.queued b (mem_of_mem_tail hb)

end Buffers

section View

variable (p : Pe)

def packetOf (c : Completion) : Option (Rpc.Packet ℕ AtomicOp (Option Return)) :=
  match c.imm, p.buf c.buf with
  | some (m, r), _ => some (.answer m (some r))
  | none, some (.ack m) => some (.answer m none)
  | none, some (.op m) => some (.call m)
  | none, none => none

def inbox : List (Channel ℕ × Rpc.Packet ℕ AtomicOp (Option Return)) :=
  p.recvCq.filterMap fun c => (p.packetOf c).map (c.qpNum, ·)

def messageOf (b : ℕ) : Option (Channel ℕ × Message) :=
  match p.buf b with
  | some (.op m) => some (p.qpNum b, m)
  | _ => none

def queue : List (Channel ℕ × Message) := p.bqueueToprocess.filterMap p.messageOf

def serving : Option (Option Return) :=
  match p.oldValue, p.queue with
  | some old, (_, m) :: _ => some (m.request.ret old)
  | _, _ => none

end View

section View

variable {p : Pe} {b : ℕ} {q : List ℕ} {m : Message} {old : BitVec 64} {cq : List Completion}
  {c : Completion}

theorem view_refillSrq (cfg : Config) (p : Pe) : (p.refillSrq cfg).inbox = p.inbox ∧
    (p.refillSrq cfg).queue = p.queue ∧ (p.refillSrq cfg).serving = p.serving ∧
    (p.refillSrq cfg).mem = p.mem := by
  obtain ⟨free', srq, k, heq, -⟩ := refill_spec cfg p.bpoolFree p
  rw [refillSrq, heq]
  exact ⟨rfl, rfl, rfl, rfl⟩

theorem counters_refillSrq (cfg : Config) (p : Pe) :
    (p.refillSrq cfg).atomicsIssued = p.atomicsIssued ∧
      (p.refillSrq cfg).atomicsAcked = p.atomicsAcked := by
  obtain ⟨free', srq, k, heq, -⟩ := refill_spec cfg p.bpoolFree p
  rw [refillSrq, heq]
  exact ⟨rfl, rfl⟩

theorem view_receive (h : p.Wf cfg) (ch : Channel ℕ) (hb : b ∈ p.srq) (packet : Packet) :
    (p.receive ch b packet).inbox = p.inbox ++ [(ch, packet.view)] ∧
      (p.receive ch b packet).queue = p.queue ∧ (p.receive ch b packet).serving = p.serving ∧
      (p.receive ch b packet).mem = p.mem := by
  obtain ⟨hcq, hqueue⟩ := h.not_mem_of_mem_srq hb
  cases packet with
  | send snd =>
    have hinbox : (p.receive ch b (.send snd)).inbox =
        p.inbox ++ [(ch, Packet.view (.send snd))] := by
      simp only [inbox, receive, filterMap_append]
      congr 1
      · refine filterMap_congr fun c hc => ?_
        have hne : c.buf ≠ b := fun heq => hcq (heq ▸ mem_map_of_mem hc)
        simp only [packetOf, update_of_ne hne]
      · cases snd <;> simp [packetOf, Packet.view]
    have hq : (p.receive ch b (.send snd)).queue = p.queue := by
      refine filterMap_congr fun b' hb' => ?_
      have hne : b' ≠ b := fun heq => hqueue (heq ▸ hb')
      simp only [messageOf, receive, update_of_ne hne]
    exact ⟨hinbox, hq, by rw [serving, hq]; rfl, rfl⟩
  | writeWithImm m r =>
    refine ⟨?_, rfl, rfl, rfl⟩
    simp only [inbox, receive, filterMap_append]
    rfl

theorem queue_ne_nil (h : p.Wf cfg) (hold : p.oldValue ≠ none) : p.queue ≠ [] := by
  obtain ⟨b, q, hq⟩ := exists_cons_of_ne_nil (h.performing hold)
  obtain ⟨m, hm⟩ := h.queued b (hq ▸ mem_cons_self)
  rw [queue, hq, filterMap_cons, messageOf, hm]
  exact cons_ne_nil _ _

theorem serving_of_queue_append {p' : Pe} (h : p.Wf cfg) (hold : p'.oldValue = p.oldValue)
    {x : Channel ℕ × Message} (hqueue : p'.queue = p.queue ++ [x]) : p'.serving = p.serving := by
  rw [serving, serving, hold, hqueue]
  cases hval : p.oldValue with
  | none => rfl
  | some old =>
    obtain ⟨y, ys, hys⟩ :=
      exists_cons_of_ne_nil (queue_ne_nil h (hval ▸ some_ne_none old))
    rw [hys]
    rfl

inductive Polled (p : Pe) (c : Completion) (p' : Pe) : Prop
  | call (m : Message) (hinbox : p.inbox = (c.qpNum, .call m) :: p'.inbox)
      (hqueue : p'.queue = p.queue ++ [(c.qpNum, m)]) (hacked : p'.atomicsAcked = p.atomicsAcked)
      (hanswer : p.answer c = none)
  | answer (m : Message) (r : Option Return)
      (hinbox : p.inbox = (c.qpNum, .answer m r) :: p'.inbox) (hqueue : p'.queue = p.queue)
      (hacked : p'.atomicsAcked = p.atomicsAcked + 1) (hanswer : p.answer c = some (m, r))

theorem inbox_cons (hcq : p.recvCq = c :: cq) {packet : Rpc.Packet ℕ AtomicOp (Option Return)}
    (hpacket : p.packetOf c = some packet) :
    p.inbox = (c.qpNum, packet) :: (p.takeCompletion cq).inbox := by
  rw [inbox, hcq, filterMap_cons, hpacket]
  rfl

theorem polled_pollCompletion (h : p.Wf cfg) (hcq : p.recvCq = c :: cq) :
    Polled p c ((p.takeCompletion cq).pollCompletion c) := by
  cases himm : c.imm with
  | some x =>
    obtain ⟨m, r⟩ := x
    have heq : (p.takeCompletion cq).pollCompletion c = { p.takeCompletion cq with
        atomicsAcked := p.atomicsAcked + 1, bpoolFree := c.buf :: p.bpoolFree } := by
      rw [pollCompletion, himm]
      rfl
    rw [heq]
    refine .answer m (some r) (inbox_cons hcq ?_) rfl rfl ?_
    · rw [packetOf, himm]
    · rw [answer, himm]
  | none =>
    obtain ⟨snd, hsnd⟩ := ne_none_iff_exists'.mp
      (h.received c (hcq ▸ mem_cons_self) himm)
    cases snd with
    | ack m =>
      have heq : (p.takeCompletion cq).pollCompletion c = { p.takeCompletion cq with
          atomicsAcked := p.atomicsAcked + 1, bpoolFree := c.buf :: p.bpoolFree } := by
        rw [pollCompletion, himm, takeCompletion, hsnd]
      rw [heq]
      refine .answer m none (inbox_cons hcq ?_) rfl rfl ?_
      · rw [packetOf, himm, hsnd]
      · rw [answer, himm, hsnd]
    | op m =>
      have heq : (p.takeCompletion cq).pollCompletion c = { p.takeCompletion cq with
          qpNum := update p.qpNum c.buf c.qpNum
          bqueueToprocess := p.bqueueToprocess ++ [c.buf] } := by
        rw [pollCompletion, himm, takeCompletion, hsnd]
      rw [heq]
      refine .call m (inbox_cons hcq ?_) ?_ rfl ?_
      · rw [packetOf, himm, hsnd]
      · rw [queue, filterMap_append]
        congr 1
        · refine filterMap_congr fun b hb => ?_
          have hne : b ≠ c.buf := fun hb' => (h.not_mem_of_recvCq hcq).2 (hb' ▸ hb)
          simp only [messageOf, takeCompletion, update_of_ne hne]
        · simp [messageOf, takeCompletion, hsnd]
      · rw [answer, himm, hsnd]

theorem view_takeCompletion (p : Pe) (cq : List Completion) (c : Completion) :
    ((p.takeCompletion cq).pollCompletion c).oldValue = p.oldValue ∧
      ((p.takeCompletion cq).pollCompletion c).mem = p.mem ∧
      ((p.takeCompletion cq).pollCompletion c).atomicsIssued = p.atomicsIssued := by
  rw [pollCompletion]
  split <;> exact ⟨rfl, rfl, rfl⟩

theorem view_popFront (hq : p.bqueueToprocess = b :: q) (hb : p.buf b = some (.op m)) :
    p.queue = (p.qpNum b, m) :: p.popFront.queue := by
  rw [queue, hq, filterMap_cons, messageOf, hb]
  simp only [queue, popFront, hq]
  rfl

end View

end Pe

def serve (op : AtomicOp) (mem : ℕ → Byte) : (ℕ → Byte) × Option Return :=
  match op.perform mem with
  | some (old, mem') => (mem', op.ret old)
  | none => (mem, none)

theorem AtomicOp.exists_perform (op : AtomicOp) (mem : ℕ → Byte) :
    ∃ old mem', op.perform mem = some (old, mem') := by
  have himpl := op.op_implemented
  rw [perform, newValue]
  cases hop : op.op <;> simp_all

namespace State

def view (s : State) : Flow ℕ AtomicOp (Option Return) (ℕ → Byte) where
  wire ch := (s.wire ch).map Packet.view
  inbox i := (s.pe i).inbox
  queue i := (s.pe i).queue
  serving i := (s.pe i).serving
  state i := (s.pe i).mem
  issued := s.issued
  served := s.performed
  delivered := s.delivered
  polled := s.polled

def Action.label : Action → Option (Rpc.Event ℕ AtomicOp)
  | .issue ch op => some (.issue ch op)
  | .deliver ch _ => some (.deliver ch)
  | .pollRecv i true => some (.poll i)
  | .processRecv i => some (.serve i)
  | .postAnswer i => some (.answer i)
  | .pollRecv _ false | .quiet _ | .quietReturn _ => none

section View

variable {s t : State}

theorem apply_update {ι α β : Type*} [DecidableEq ι] (g : α → β) (f : ι → α) (i : ι) (x : α) :
    (fun j => g (update f i x j)) = update (fun j => g (f j)) i (g x) :=
  funext fun j => Function.apply_update (fun _ => g) f i x j

theorem apply_update_of_eq {ι α β : Type*} [DecidableEq ι] {g : α → β} {f : ι → α} {i : ι} {x : α}
    (h : g x = g (f i)) : (fun j => g (update f i x j)) = fun j => g (f j) := by
  rw [apply_update, h]
  exact update_eq_self i _

theorem view_updatePe {i : ℕ} {p : Pe} (hinbox : p.inbox = (s.pe i).inbox)
    (hqueue : p.queue = (s.pe i).queue) (hserving : p.serving = (s.pe i).serving)
    (hmem : p.mem = (s.pe i).mem) : (s.updatePe i p).view = s.view :=
  Rpc.Flow.ext rfl (apply_update_of_eq hinbox) (apply_update_of_eq hqueue)
    (apply_update_of_eq hserving) (apply_update_of_eq hmem) rfl rfl rfl rfl

theorem view_amo (ch : Channel ℕ) (op : AtomicOp) : (s.amo ch op).view = s.view.issue ch op := by
  refine Rpc.Flow.ext ?_ (apply_update_of_eq (g := Pe.inbox) rfl)
    (apply_update_of_eq (g := Pe.queue) rfl) (apply_update_of_eq (g := Pe.serving) rfl)
    (apply_update_of_eq (g := Pe.mem) rfl) rfl rfl rfl rfl
  refine (apply_update (map Packet.view) s.wire ch _).trans ?_
  rw [map_append]
  rfl

theorem view_deliver {ch : Channel ℕ} {b : ℕ} {packet : Packet} {packets : List Packet}
    (h : (s.pe ch.dst).Wf cfg) (hb : b ∈ (s.pe ch.dst).srq) :
    (s.deliver ch b packet packets).view =
      s.view.deliver ch packet.view (packets.map Packet.view) := by
  obtain ⟨hinbox, hqueue, hserving, hmem⟩ := Pe.view_receive h ch hb packet
  refine Rpc.Flow.ext (apply_update (map Packet.view) s.wire ch _) ?_
    (apply_update_of_eq hqueue) (apply_update_of_eq hserving) (apply_update_of_eq hmem) rfl rfl ?_
    rfl
  · exact (apply_update Pe.inbox s.pe ch.dst _).trans (congrArg _ hinbox)
  · match packet with
    | .send (.op m) | .send (.ack m) | .writeWithImm m r => rfl

theorem view_pollRecv {i : ℕ} {c : Completion} {cq : List Completion} (h : (s.pe i).Wf cfg)
    (hcq : (s.pe i).recvCq = c :: cq) :
    s.view.step serve (.poll i) = some (s.pollRecv cfg i c cq).view := by
  obtain ⟨hinbox', hqueue', hserving', hmem'⟩ :=
    Pe.view_refillSrq cfg (((s.pe i).takeCompletion cq).pollCompletion c)
  obtain ⟨hold, hmem, -⟩ := Pe.view_takeCompletion (s.pe i) cq c
  have hview : (s.pollRecv cfg i c cq).view.inbox = update s.view.inbox i _ :=
    (apply_update Pe.inbox s.pe i _).trans (congrArg _ hinbox')
  cases Pe.polled_pollCompletion h hcq with
  | call m hinbox hqueue hacked hanswer =>
    have hcall : s.view.inbox i = (c.qpNum, .call m) :: _ := hinbox
    rw [Rpc.Flow.step, hcall]
    refine congrArg some (Rpc.Flow.ext rfl hview.symm ?_ ?_ ?_ rfl rfl rfl ?_)
    · exact ((apply_update Pe.queue s.pe i _).trans (congrArg _ (hqueue'.trans hqueue))).symm
    · exact (apply_update_of_eq (hserving'.trans (Pe.serving_of_queue_append h hold hqueue))).symm
    · exact (apply_update_of_eq (hmem'.trans hmem)).symm
    · simp only [pollRecv, view, hanswer, toList_none, append_nil]
      rfl
  | answer m r hinbox hqueue hacked hanswer =>
    have hans : s.view.inbox i = (c.qpNum, .answer m r) :: _ := hinbox
    rw [Rpc.Flow.step, hans]
    refine congrArg some (Rpc.Flow.ext rfl hview.symm ?_ ?_ ?_ rfl rfl rfl ?_)
    · exact (apply_update_of_eq (hqueue'.trans hqueue)).symm
    · have heq : (((s.pe i).takeCompletion cq).pollCompletion c).serving = (s.pe i).serving := by
        rw [Pe.serving, Pe.serving, hold, hqueue]
      exact (apply_update_of_eq (hserving'.trans heq)).symm
    · exact (apply_update_of_eq (hmem'.trans hmem)).symm
    · simp only [pollRecv, view, hanswer, toList_some]
      rfl

theorem view_perform {i b : ℕ} {q : List ℕ} {m : Message} {old : BitVec 64} {mem : ℕ → Byte}
    (hold : (s.pe i).oldValue = none) (hq : (s.pe i).bqueueToprocess = b :: q)
    (hb : (s.pe i).buf b = some (.op m)) (hmem : m.request.perform (s.pe i).mem = some (old, mem)) :
    s.view.step serve (.serve i) = some (s.perform i m old mem).view := by
  have hqueue : s.view.queue i = _ := Pe.view_popFront hq hb
  have hserving : s.view.serving i = none := by
    change (s.pe i).serving = none
    rw [Pe.serving, hold]
  have hserve : serve m.request (s.pe i).mem = (mem, m.request.ret old) := by
    rw [serve, hmem]
  let p : Pe := { s.pe i with mem := mem, oldValue := some old }
  have hserving' : p.serving = some (serve m.request (s.pe i).mem).2 := by
    have heq : p.queue = _ := Pe.view_popFront hq hb
    rw [Pe.serving, heq, hserve]
  rw [Rpc.Flow.step, hserving, hqueue]
  refine congrArg some (Rpc.Flow.ext rfl ?_ ?_ ?_ ?_ rfl ?_ rfl rfl)
  · exact (apply_update_of_eq (g := Pe.inbox) (f := s.pe) (x := p) rfl).symm
  · exact (apply_update_of_eq (g := Pe.queue) (f := s.pe) (x := p) rfl).symm
  · refine Eq.trans ?_ (apply_update Pe.serving s.pe i p).symm
    rw [hserving']
    rfl
  · refine Eq.trans ?_ (apply_update Pe.mem s.pe i p).symm
    exact congrArg (update _ i) (congrArg Prod.fst hserve)
  · exact congrArg (fun x => s.performed ++ [(m, x)]) (congrArg Prod.snd hserve)

theorem view_answer {i b : ℕ} {q : List ℕ} {m : Message} {old : BitVec 64}
    (hold : (s.pe i).oldValue = some old) (hq : (s.pe i).bqueueToprocess = b :: q)
    (hb : (s.pe i).buf b = some (.op m)) :
    s.view.step serve (.answer i) = some (s.answer i b m old).view := by
  have hqueue : s.view.queue i = _ := Pe.view_popFront hq hb
  have hserving : s.view.serving i = some (m.request.ret old) := by
    change (s.pe i).serving = _
    rw [Pe.serving, hold, Pe.view_popFront hq hb]
  have hpacket : (answerPacket m old).view = .answer m (m.request.ret old) := by
    rw [answerPacket]
    cases m.request.ret old <;> rfl
  rw [Rpc.Flow.step, hserving, hqueue]
  refine congrArg some (Rpc.Flow.ext ?_ ?_ ?_ ?_ ?_ rfl rfl rfl rfl)
  · refine Eq.trans ?_ (apply_update (map Packet.view) s.wire _ _).symm
    rw [map_append, map_singleton, hpacket]
    rfl
  · exact (apply_update_of_eq (g := Pe.inbox) (f := s.pe) (x := (s.pe i).popFront) rfl).symm
  · exact (apply_update Pe.queue s.pe i _).symm
  · exact (apply_update Pe.serving s.pe i (s.pe i).popFront).symm
  · exact (apply_update_of_eq (g := Pe.mem) (f := s.pe) (x := (s.pe i).popFront) rfl).symm

end View

section Moved

variable (cfg) (s : State)

inductive Moved : Action → State → Prop
  | amo {ch : Channel ℕ} {op : AtomicOp} : Moved (.issue ch op) (s.amo ch op)
  | deliver {ch : Channel ℕ} {b : ℕ} {packet : Packet} {packets : List Packet} :
      s.wire ch = packet :: packets → b ∈ (s.pe ch.dst).srq →
        Moved (.deliver ch b) (s.deliver ch b packet packets)
  | refill (i : ℕ) : Moved (.pollRecv i false) (s.updatePe i ((s.pe i).refillSrq cfg))
  | pollRecv {i : ℕ} {c : Completion} {cq : List Completion} :
      (s.pe i).recvCq = c :: cq → Moved (.pollRecv i true) (s.pollRecv cfg i c cq)
  | perform {i b : ℕ} {q : List ℕ} {m : Message} {old : BitVec 64} {mem : ℕ → Byte} :
      (s.pe i).oldValue = none → (s.pe i).bqueueToprocess = b :: q →
        (s.pe i).buf b = some (.op m) → m.request.perform (s.pe i).mem = some (old, mem) →
          Moved (.processRecv i) (s.perform i m old mem)
  | answer {i b : ℕ} {q : List ℕ} {m : Message} {old : BitVec 64} :
      (s.pe i).oldValue = some old → (s.pe i).bqueueToprocess = b :: q →
        (s.pe i).buf b = some (.op m) → Moved (.postAnswer i) (s.answer i b m old)
  | quiet (i : ℕ) : Moved (.quiet i) (s.updatePe i { s.pe i with quieting := true })
  | quietReturn (i : ℕ) : Moved (.quietReturn i) (s.updatePe i { s.pe i with quieting := false })

variable {cfg s} {a : Action} {t : State}

theorem Moved.of_step (h : s.step cfg a = some t) : Moved cfg s a t := by
  cases a with
  | issue ch op =>
    rw [step] at h
    split at h
    · exact some.inj h ▸ .amo
    · exact nomatch h
  | deliver ch b =>
    rw [step] at h
    split at h
    · exact nomatch h
    · next hwire =>
      split at h
      · next hb => exact some.inj h ▸ .deliver hwire hb
      · exact nomatch h
  | pollRecv i ne =>
    cases ne with
    | false => exact some.inj h ▸ .refill i
    | true =>
      rw [step] at h
      split at h
      · exact nomatch h
      · next hcq => exact some.inj h ▸ .pollRecv hcq
  | processRecv i =>
    rw [step] at h
    split at h
    · next m hold hbuf =>
      obtain ⟨b, hb, hm⟩ := bind_eq_some_iff.mp hbuf
      obtain ⟨q, hq⟩ := head?_eq_some_iff.mp hb
      obtain ⟨old, mem, hmem⟩ := m.request.exists_perform (s.pe i).mem
      rw [hmem] at h
      exact some.inj h ▸ .perform hold hq hm hmem
    · exact nomatch h
  | postAnswer i =>
    rw [step] at h
    split at h
    · next hold hq =>
      split at h
      · next hm => exact some.inj h ▸ .answer hold hq hm
      · exact nomatch h
    · exact nomatch h
  | quiet i =>
    rw [step] at h
    split at h
    · exact some.inj h ▸ .quiet i
    · exact nomatch h
  | quietReturn i =>
    rw [step] at h
    split at h
    · exact some.inj h ▸ .quietReturn i
    · exact nomatch h

theorem forall_updatePe {P : Pe → Prop} (h : ∀ i, P (s.pe i)) {i : ℕ} {p : Pe} (hp : P p) :
    ∀ j, P (update s.pe i p j) := by
  intro j
  rw [update_apply]
  split
  · exact hp
  · exact h j

theorem Moved.wf (hm : Moved cfg s a t) (h : ∀ i, (s.pe i).Wf cfg) : ∀ i, (t.pe i).Wf cfg := by
  cases hm with
  | amo =>
    exact forall_updatePe h ⟨(h _).partition, (h _).srqPosted_eq, (h _).received, (h _).queued,
      (h _).performing⟩
  | deliver hwire hb => exact forall_updatePe h ((h _).receive hb _)
  | refill i => exact forall_updatePe h (h i).refillSrq
  | @pollRecv i c cq hcq => exact forall_updatePe h ((h i).pollCompletion hcq).refillSrq
  | @perform i b q m old mem hold hq hb hmem =>
    exact forall_updatePe h ⟨(h i).partition, (h i).srqPosted_eq, (h i).received, (h i).queued,
      fun _ => hq ▸ cons_ne_nil _ _⟩
  | @answer i b q m old hold hq hb => exact forall_updatePe h (h i).popFront
  | quiet i | quietReturn i =>
    exact forall_updatePe h ⟨(h i).partition, (h i).srqPosted_eq, (h i).received, (h i).queued,
      (h i).performing⟩

theorem simulates : Simulates (step cfg) (Flow.step serve) (fun s => ∀ i, (s.pe i).Wf cfg)
    Action.label view := by
  intro s a t h ht
  have hone : ∀ {e : Rpc.Event ℕ AtomicOp}, s.view.step serve e = some t.view →
      exec (Flow.step serve) s.view [e] = some t.view :=
    fun he => exec_cons_eq_some.mpr ⟨_, he, rfl⟩
  cases Moved.of_step ht with
  | amo => exact hone (congrArg some (view_amo _ _).symm)
  | @deliver ch b packet packets hwire hb =>
    refine hone ?_
    have hview : s.view.wire ch = packet.view :: packets.map Packet.view :=
      congrArg (map Packet.view) hwire
    rw [Rpc.Flow.step, hview]
    exact congrArg some (view_deliver (h _) hb).symm
  | refill i =>
    obtain ⟨hinbox, hqueue, hserving, hmem⟩ := Pe.view_refillSrq cfg (s.pe i)
    exact congrArg some (view_updatePe hinbox hqueue hserving hmem).symm
  | pollRecv hcq => exact hone (view_pollRecv (h _) hcq)
  | perform hold hq hb hmem => exact hone (view_perform hold hq hb hmem)
  | answer hold hq hb => exact hone (view_answer hold hq hb)
  | quiet i =>
    exact congrArg some
      (view_updatePe (p := { s.pe i with quieting := true }) rfl rfl rfl rfl).symm
  | quietReturn i =>
    exact congrArg some
      (view_updatePe (p := { s.pe i with quieting := false }) rfl rfl rfl rfl).symm

end Moved

end State

end Nvshmem.Ibrc.Atomics
