import Nvshmem.Ibrc.Fence
import Nvshmem.Memory.Stores
import Nvshmem.Rpc.Flow

/-! # Atomics that the target performs

Where the network card cannot do an atomic, it is sent as a message. The target polls messages into
a queue, performs the first one on its memory and answers: with the old value and a flag, which
are written to the memory of the sender, or with an acknowledgement only. Both count there as
acknowledged. Messages are received into buffers that are free, posted to the shared receive
queue, or in the queue.
-/

namespace Nvshmem.Ibrc.Atomics

open Function

open Proxy (Amo)

open Rpc (Channel Call)

abbrev Byte := BitVec 8

/-- `struct ibrc_atomic_op`, for the verbs and the sizes that the target implements. -/
structure AtomicOp where
  op : Amo
  addr : ℕ
  retaddr : ℕ
  retflag : BitVec 64
  elembytes : ℕ
  compare : BitVec 64
  swapAdd : BitVec 64
  op_implemented : op ∉ [.ack, .inc, .endOfNonfetch, .fetchInc]
  elembytes_mem : elembytes ∈ [2, 4, 8]

def loadNat (mem : ℕ → Byte) (addr : ℕ) : ℕ → ℕ
  | 0 => 0
  | n + 1 => (mem addr).toNat + 256 * loadNat mem (addr + 1) n

def load (mem : ℕ → Byte) (addr elembytes : ℕ) : BitVec (8 * elembytes) :=
  BitVec.ofNat _ (loadNat mem addr elembytes)

def store (mem : ℕ → Byte) (addr elembytes : ℕ) (v : BitVec (8 * elembytes)) : ℕ → Byte :=
  Memory.Store.apply mem ⟨addr, elembytes, fun i => v.extractLsb' (8 * i) 8⟩

namespace AtomicOp

variable (op : AtomicOp)

def newValue {w : ℕ} (old : BitVec w) : Option (BitVec w) :=
  match op.op with
  | .signal | .signalSet | .set | .swap => some (op.swapAdd.setWidth w)
  | .add | .signalAdd | .fetchAdd => some (old + op.swapAdd.setWidth w)
  | .or | .fetchOr => some (old ||| op.swapAdd.setWidth w)
  | .and | .fetchAnd => some (old &&& op.swapAdd.setWidth w)
  | .xor | .fetchXor => some (old ^^^ op.swapAdd.setWidth w)
  | .compareSwap => some (if old = op.compare.setWidth w then op.swapAdd.setWidth w else old)
  | .fetch => some old
  | .ack | .inc | .endOfNonfetch | .fetchInc => none

def perform (mem : ℕ → Byte) : Option (BitVec 64 × (ℕ → Byte)) :=
  let old := load mem op.addr op.elembytes
  (op.newValue old).map fun new => (old.setWidth 64, store mem op.addr op.elembytes new)

def isFetch : Bool := Amo.endOfNonfetch.code < op.op.code

end AtomicOp

/-- What is written to the memory of the sender: `g_elem_t` at the address that it has sent. -/
structure Return where
  retaddr : ℕ
  data : BitVec 64
  flag : BitVec 64
deriving DecidableEq

def AtomicOp.ret (op : AtomicOp) (old : BitVec 64) : Option Return :=
  if op.isFetch then some ⟨op.retaddr, old, op.retflag⟩ else none

abbrev Message := Call ℕ AtomicOp

/-- What `IBV_WR_SEND` puts into a buffer. -/
inductive Send where
  | op (m : Message)
  | ack (m : Message)

/-- Work requests: a send, or `IBV_WR_RDMA_WRITE_WITH_IMM`. -/
inductive Packet where
  | send (s : Send)
  | writeWithImm (m : Message) (r : Return)

/-- An entry of the queue for receptions: the buffer, the queue pair, and for a write with immediate
data what was written. -/
structure Completion where
  buf : ℕ
  qpNum : Channel ℕ
  imm : Option (Message × Return)

structure Pe where
  mem : ℕ → Byte
  atomicsIssued : ℕ
  atomicsAcked : ℕ
  /-- The last element of the vector comes first. -/
  bpoolFree : List ℕ
  /-- The posted buffers into which nothing has been received. -/
  srq : List ℕ
  srqPosted : ℕ
  recvCq : List Completion
  buf : ℕ → Option Send
  qpNum : ℕ → Channel ℕ
  bqueueToprocess : List ℕ
  /-- `old_value`, while the first message of the queue is performed. -/
  oldValue : Option (BitVec 64)
  quieting : Bool

namespace Pe

variable (cfg : Config) (p : Pe)

def start (mem : ℕ → Byte) : Pe where
  mem := mem
  atomicsIssued := 0
  atomicsAcked := 0
  bpoolFree := (List.range cfg.srqDepth).reverse
  srq := []
  srqPosted := 0
  recvCq := []
  buf _ := none
  qpNum _ := ⟨0, 0, 0⟩
  bqueueToprocess := []
  oldValue := none
  quieting := false

/-- The loop of `refill_srq`. -/
def refill : List ℕ → Pe → Pe
  | [], p => { p with bpoolFree := [] }
  | b :: free, p =>
    if p.srqPosted < cfg.srqDepth then
      refill free { p with srq := p.srq ++ [b], srqPosted := p.srqPosted + 1 }
    else { p with bpoolFree := b :: free }

def refillSrq : Pe := refill cfg p.bpoolFree p

/-- A packet arrives. A write with immediate data does not use the buffer that it takes. -/
def receive (ch : Channel ℕ) (b : ℕ) : Packet → Pe
  | .send s =>
    { p with
      srq := p.srq.erase b
      recvCq := p.recvCq ++ [⟨b, ch, none⟩]
      buf := update p.buf b (some s) }
  | .writeWithImm m r =>
    { p with
      srq := p.srq.erase b
      recvCq := p.recvCq ++ [⟨b, ch, some (m, r)⟩] }

def takeCompletion (cq : List Completion) : Pe :=
  { p with recvCq := cq, srqPosted := p.srqPosted - 1 }

/-- What `poll_recv` does with a completion. -/
def pollCompletion (c : Completion) : Pe :=
  match c.imm, p.buf c.buf with
  | some _, _ | none, some (.ack _) =>
    { p with atomicsAcked := p.atomicsAcked + 1, bpoolFree := c.buf :: p.bpoolFree }
  | none, _ =>
    { p with
      qpNum := update p.qpNum c.buf c.qpNum
      bqueueToprocess := p.bqueueToprocess ++ [c.buf] }

def answer (c : Completion) : Option (Message × Option Return) :=
  match c.imm, p.buf c.buf with
  | some (m, r), _ => some (m, some r)
  | none, some (.ack m) => some (m, none)
  | none, _ => none

def popFront : Pe :=
  { p with
    bqueueToprocess := p.bqueueToprocess.tail
    bpoolFree := p.bqueueToprocess.head?.toList ++ p.bpoolFree
    oldValue := none }

end Pe

/-- All PEs and their queue pairs, and the history: the messages issued, those performed with what
they return, and the answers that have been delivered and polled. -/
structure State where
  pe : ℕ → Pe
  wire : Channel ℕ → List Packet
  issued : List Message
  performed : List (Message × Option Return)
  delivered : List (Message × Option Return)
  polled : List (Message × Option Return)

inductive Action where
  | issue (ch : Channel ℕ) (op : AtomicOp)
  /-- A packet is received into a posted buffer. -/
  | deliver (ch : Channel ℕ) (b : ℕ)
  /-- `poll_recv`, with or without a completion. -/
  | pollRecv (pe : ℕ) (ne : Bool)
  /-- `perform_gdrcopy_amo` up to the wait for a send request, and from there on. -/
  | processRecv (pe : ℕ)
  | postAnswer (pe : ℕ)
  | quiet (pe : ℕ)
  | quietReturn (pe : ℕ)

def Packet.answer : Packet → Option (Message × Option Return)
  | .send (.op _) => none
  | .send (.ack m) => some (m, none)
  | .writeWithImm m r => some (m, some r)

def answerPacket (m : Message) (old : BitVec 64) : Packet :=
  match m.request.ret old with
  | some r => .writeWithImm m r
  | none => .send (.ack m)

namespace State

variable (cfg : Config) (s : State)

def start (mem : ℕ → ℕ → Byte) : State where
  pe i := Pe.start cfg (mem i)
  wire _ := []
  issued := []
  performed := []
  delivered := []
  polled := []

def updatePe (i : ℕ) (p : Pe) : State := { s with pe := update s.pe i p }

def CanIssue (ch : Channel ℕ) (op : AtomicOp) : Prop :=
  amoOpcode cfg op.op op.elembytes false = some .send ∧ (s.pe ch.src).oldValue = none ∧
    (s.pe ch.src).quieting = false ∧
    (s.pe ch.src).atomicsIssued - (s.pe ch.src).atomicsAcked ≤
      cfg.srqDepth / (cfg.connectedQpCount + 1)

instance (ch : Channel ℕ) (op : AtomicOp) : Decidable (s.CanIssue cfg ch op) :=
  inferInstanceAs (Decidable (_ ∧ _ ∧ _ ∧ _))

/-- `nvshmemt_ibrc_amo` -/
def amo (ch : Channel ℕ) (op : AtomicOp) : State :=
  { s.updatePe ch.src { s.pe ch.src with atomicsIssued := (s.pe ch.src).atomicsIssued + 1 } with
    wire := update s.wire ch (s.wire ch ++ [.send (.op ⟨s.issued.length, ch, op⟩)])
    issued := s.issued ++ [⟨s.issued.length, ch, op⟩] }

def deliver (ch : Channel ℕ) (b : ℕ) (packet : Packet) (packets : List Packet) : State :=
  { s.updatePe ch.dst ((s.pe ch.dst).receive ch b packet) with
    wire := update s.wire ch packets
    delivered := s.delivered ++ packet.answer.toList }

def pollRecv (i : ℕ) (c : Completion) (cq : List Completion) : State :=
  { s.updatePe i ((((s.pe i).takeCompletion cq).pollCompletion c).refillSrq cfg) with
    polled := s.polled ++ ((s.pe i).answer c).toList }

/-- `perform_gdrcopy_amo` up to the store of the new value. -/
def perform (i : ℕ) (m : Message) (old : BitVec 64) (mem : ℕ → Byte) : State :=
  { s.updatePe i { s.pe i with mem := mem, oldValue := some old } with
    performed := s.performed ++ [(m, m.request.ret old)] }

/-- The rest of `perform_gdrcopy_amo`, when a send request is available, and of `process_recv`. -/
def answer (i b : ℕ) (m : Message) (old : BitVec 64) : State :=
  { s.updatePe i (s.pe i).popFront with
    wire := update s.wire ((s.pe i).qpNum b).back
      (s.wire ((s.pe i).qpNum b).back ++ [answerPacket m old]) }

def step : Action → Option State
  | .issue ch op => if s.CanIssue cfg ch op then some (s.amo ch op) else none
  | .deliver ch b =>
    match s.wire ch with
    | [] => none
    | packet :: packets =>
      if b ∈ (s.pe ch.dst).srq then some (s.deliver ch b packet packets) else none
  | .pollRecv i false => some (s.updatePe i ((s.pe i).refillSrq cfg))
  | .pollRecv i true =>
    match (s.pe i).recvCq with
    | [] => none
    | c :: cq => some (s.pollRecv cfg i c cq)
  | .processRecv i =>
    match (s.pe i).oldValue, (s.pe i).bqueueToprocess.head?.bind (s.pe i).buf with
    | none, some (.op m) =>
      match m.request.perform (s.pe i).mem with
      | some (old, mem) => some (s.perform i m old mem)
      -- the verb is not implemented: there is no answer
      | none => some (s.updatePe i (s.pe i).popFront)
    | _, _ => none
  | .postAnswer i =>
    match (s.pe i).oldValue, (s.pe i).bqueueToprocess with
    | some old, b :: _ =>
      match (s.pe i).buf b with
      | some (.op m) => some (s.answer i b m old)
      | _ => none
    | _, _ => none
  | .quiet i =>
    if (s.pe i).oldValue = none ∧ (s.pe i).quieting = false then
      some (s.updatePe i { s.pe i with quieting := true })
    else none
  -- `progress_recv` returns when no atomic is outstanding
  | .quietReturn i =>
    if (s.pe i).oldValue = none ∧ (s.pe i).quieting = true ∧
        (s.pe i).atomicsIssued - (s.pe i).atomicsAcked = 0 then
      some (s.updatePe i { s.pe i with quieting := false })
    else none

end State

end Nvshmem.Ibrc.Atomics
