import Nvshmem.Libfabric.SeqCounter
import Nvshmem.Transition.Inevitable

/-! # Put with signal over an unordered provider

The write chunks and the signal of a put-signal are separate messages that arrive in any order.
The target counts what has arrived in an entry for the sender and the sequence number, and queues
the signal when nothing is missing. The signal is applied from the queue and acknowledged then.
-/

namespace Nvshmem.Libfabric

open Transition Function

/-- `NVSHMEMT_LIBFABRIC_DEFAULT_NUM_EPS`: the host endpoint and the proxy endpoint. -/
def numEps : ℕ := 2

def targetEp (pe src : ℕ) : ℕ := pe * numEps + src % numEps

/-- The operations of `perform_gdrcopy_amo`. -/
inductive Amo where
  | signal | signalSet | set | swap | add | signalAdd | fetchAdd | or | fetchOr | and | fetchAnd
  | xor | fetchXor | compareSwap | fetch
deriving DecidableEq, Inhabited

/-- The new value of `perform_gdrcopy_amo` for eight bytes. -/
def Amo.newValue (op : Amo) (oldValue swapAdd comp : UInt64) : UInt64 :=
  match op with
  | .signal | .signalSet | .set | .swap => swapAdd
  | .add | .signalAdd | .fetchAdd => oldValue + swapAdd
  | .or | .fetchOr => oldValue ||| swapAdd
  | .and | .fetchAnd => oldValue &&& swapAdd
  | .xor | .fetchXor => oldValue ^^^ swapAdd
  | .compareSwap => if oldValue = comp then swapAdd else oldValue
  | .fetch => oldValue

inductive Origin where
  | put (j : ℕ)
  | amo (i : ℕ)
deriving DecidableEq

/-- `nvshmemt_libfabric_recv_t`, apart from the responses of fetching atomics. -/
inductive RecvType where
  | send
  | matched
deriving DecidableEq

/-- `nvshmemt_libfabric_gdr_signal_op_t` -/
structure SignalOp where
  op : Amo
  numWrites : ℕ
  sigVal : UInt64
  targetAddr : ℕ
  sequenceCount : ℕ
deriving DecidableEq

/-- `nvshmemt_libfabric_gdr_op_ctx_t` with an atomic. -/
structure Op where
  type : RecvType
  ep : ℕ
  srcAddr : ℕ
  op : Amo
  targetAddr : ℕ
  swapAdd : UInt64
  comp : UInt64
  sequenceCount : ℕ
  origin : Origin
deriving DecidableEq

/-- `nvshmemt_inplace_copy_sig_op_to_gdr_op` -/
def SignalOp.toOp (sig : SignalOp) (ep srcAddr : ℕ) (origin : Origin) : Op where
  type := .matched
  ep := ep
  srcAddr := srcAddr
  op := sig.op
  targetAddr := sig.targetAddr
  swapAdd := sig.sigVal
  comp := 0
  sequenceCount := sig.sequenceCount
  origin := origin

/-- What a write with immediate data is for. The code tells it from the data. -/
inductive Part where
  | chunk (j k : ℕ)
  | ack (origin : Origin)
deriving DecidableEq

inductive Msg where
  /-- A write with immediate data. -/
  | data (src dst imm : ℕ) (part : Part)
  | signal (src dst : ℕ) (sig : SignalOp) (j : ℕ)
  | amo (src dst : ℕ) (op : Amo) (targetAddr : ℕ) (swapAdd comp : UInt64) (i : ℕ)
deriving DecidableEq

/-- The arguments of a call of `nvshmemt_put_signal_unordered` and its sequence number. -/
structure Put where
  src : ℕ
  pe : ℕ
  numWrites : ℕ
  sigOp : Amo
  sigVal : UInt64
  sigAddr : ℕ
  sequenceCount : ℕ
deriving Inhabited

namespace Put

variable (p : Put) (j : ℕ)

def dst : ℕ := targetEp p.pe p.src

/-- The message of `nvshmemt_libfabric_gdr_signal`. -/
def signalOp : SignalOp where
  op := p.sigOp
  numWrites := p.numWrites % 2 ^ 16
  sigVal := p.sigVal
  targetAddr := p.sigAddr
  sequenceCount := p.sequenceCount

def chunkMsg (k : ℕ) : Msg := .data p.src p.dst p.sequenceCount (.chunk j k)

def signalMsg : Msg := .signal p.src p.dst p.signalOp j

def op : Op := p.signalOp.toOp p.dst p.src (.put j)

end Put

/-- The immediate data of `gdrcopy_amo_ack`. -/
def ackImm (sequenceCount : ℕ) : ℕ := 1 <<< seqCntrBitShift ||| sequenceCount

/-- `map_key` -/
def mapKey (addr sequenceCount : ℕ) : ℕ := (addr <<< 32 ||| sequenceCount) % 2 ^ 64

def nextEntry (op : Option Op) (progressCount : ℤ) : Option (Option Op × ℤ) → Option Op × ℤ
  | some (first, second) => (op.or first, second + progressCount)
  | none => (op, progressCount)

/-- What has happened to a put-signal. The code does not read it. -/
structure History where
  /-- How many chunks have been posted. -/
  posted : ℕ
  /-- The chunks that have arrived at the target. -/
  arrived : Finset ℕ
  /-- The signal message has been posted. -/
  signalled : Bool
  /-- The signal message has arrived. -/
  matched : Bool
  /-- How often the signal has been applied. -/
  applied : ℕ
  acked : Bool

def History.start : History := ⟨0, ∅, false, false, 0, false⟩

/-- The number of PEs is an `int`. -/
structure Config where
  npes : ℕ
  npes_lt : npes < 2 ^ 31

structure State where
  /-- How many put-signals have been issued, what they are and what has happened to them. -/
  issued : ℕ
  put : ℕ → Put
  history : ℕ → History
  amos : ℕ
  /-- For each endpoint the put-signal it is posting and how many chunks it has posted. -/
  posting : ℕ → Option (ℕ × ℕ)
  counter : ℕ → SeqCounter
  /-- `proxy_put_signal_comp_map` of each endpoint. -/
  compMap : ℕ → ℕ → Option (Option Op × ℤ)
  /-- `other_recv` of each PE. -/
  otherRecv : ℕ → List Op
  mem : ℕ → ℕ → UInt64
  /-- The messages that have been posted and have not arrived. -/
  net : Finset Msg

inductive Action where
  /-- `nvshmemt_put_signal_unordered` asks for a sequence number. -/
  | putSignal (src pe numWrites : ℕ) (sigOp : Amo) (sigVal : UInt64) (sigAddr : ℕ)
  /-- The next chunk is posted. -/
  | postWrite (src : ℕ)
  | postSignal (src : ℕ)
  /-- An atomic that is not part of a put-signal. -/
  | amo (src pe : ℕ) (op : Amo) (targetAddr : ℕ) (swapAdd comp : UInt64)
  /-- The completion of a message is processed at its destination. -/
  | deliver (m : Msg)
  /-- An operation of the queue is processed. -/
  | processAmo (pe : ℕ)

namespace State

def init : State where
  issued := 0
  put _ := default
  history _ := .start
  amos := 0
  posting _ := none
  counter _ := .reset
  compMap _ _ := none
  otherRecv _ := []
  mem _ _ := 0
  net := ∅

variable (s : State)

def setHistory (j : ℕ) (h : History) : State :=
  { s with history := update s.history j h }

def setEntry (ep key : ℕ) (entry : Option (Option Op × ℤ)) : State :=
  { s with compMap := update s.compMap ep (update (s.compMap ep) key entry) }

def putToRecv (pe : ℕ) (op : Op) : State :=
  { s with otherRecv := update s.otherRecv pe (s.otherRecv pe ++ [op]) }

/-- `nvshmemt_libfabric_put_signal_completion`. Without a result the code queues a null pointer. -/
def putSignalCompletion (ep key : ℕ) (op : Option Op) (progressCount : ℤ) : Option State :=
  let entry := nextEntry op progressCount (s.compMap ep key)
  if entry.2 = 0 then entry.1.map fun op => (s.putToRecv (ep / numEps) op).setEntry ep key none
  else some (s.setEntry ep key (some entry))

/-- `nvshmemt_libfabric_put_signal_ack_completion` -/
def ackCompletion (ep imm : ℕ) : State :=
  let seqNum := imm &&& sequenceMask
  if seqNum ≠ stagedAmoSeqNum then
    { s with counter := update s.counter ep ((s.counter ep).returnAckedSeqNum seqNum) }
  else s

def noteData : Part → State
  | .chunk j k =>
    s.setHistory j { s.history j with arrived := insert k (s.history j).arrived }
  | .ack (.put j) => s.setHistory j { s.history j with acked := true }
  | .ack (.amo _) => s

/-- `nvshmemt_libfabric_gdr_process_completion` -/
def processCompletion : Msg → Option State
  | .data src dst imm part =>
    let s := s.noteData part
    match (imm % 2 ^ 32) >>> seqCntrBitShift with
    | 0 => s.putSignalCompletion dst (mapKey src (imm % 2 ^ 32)) none (-1)
    | 1 => some (s.ackCompletion dst imm)
    | _ => none
  | .signal src dst sig j =>
    let s := s.setHistory j { s.history j with matched := true }
    s.putSignalCompletion dst (mapKey src sig.sequenceCount) (some (sig.toOp dst src (.put j)))
      sig.numWrites
  | .amo src dst op targetAddr swapAdd comp i =>
    some (s.putToRecv (dst / numEps)
      ⟨.send, dst, src, op, targetAddr, swapAdd, comp, 0, .amo i⟩)

def noteApplied : Origin → State
  | .put j => s.setHistory j { s.history j with applied := (s.history j).applied + 1 }
  | .amo _ => s

/-- The sequence number that `nvshmemt_libfabric_gdr_process_amos` passes on. -/
def ackSeqNum (op : Op) : ℕ :=
  match op.type with
  | .send => stagedAmoSeqNum
  | .matched => op.sequenceCount

/-- `perform_gdrcopy_amo`, which also sends the acknowledgement. -/
def performAmo (pe : ℕ) (op : Op) : State :=
  let newValue := op.op.newValue (s.mem pe op.targetAddr) op.swapAdd op.comp
  let ack := Msg.data op.ep op.srcAddr (ackImm (ackSeqNum op)) (.ack op.origin)
  { s.noteApplied op.origin with
    mem := update s.mem pe (update (s.mem pe) op.targetAddr newValue)
    net := insert ack s.net }

def issue (p : Put) : State :=
  { s with
    issued := s.issued + 1
    put := update s.put s.issued p
    history := update s.history s.issued .start
    posting := update s.posting p.src (some (s.issued, 0)) }

def setCounter (src : ℕ) (c : SeqCounter) : State :=
  { s with counter := update s.counter src c }

def postWrite (src j i : ℕ) : State :=
  { s.setHistory j { s.history j with posted := i + 1 } with
    posting := update s.posting src (some (j, i + 1))
    net := insert ((s.put j).chunkMsg j i) s.net }

def postSignal (src j : ℕ) : State :=
  { s.setHistory j { s.history j with signalled := true } with
    posting := update s.posting src none
    net := insert ((s.put j).signalMsg j) s.net }

/-- The message of `nvshmemt_libfabric_gdr_amo`. -/
def postAmo (src pe : ℕ) (op : Amo) (targetAddr : ℕ) (swapAdd comp : UInt64) : State :=
  { s with
    amos := s.amos + 1
    net := insert (.amo src (targetEp pe src) op targetAddr swapAdd comp s.amos) s.net }

def step (cfg : Config) (s : State) : Action → Option State
  | .putSignal src pe numWrites sigOp sigVal sigAddr =>
    if src < cfg.npes * numEps ∧ pe < cfg.npes ∧ numWrites < 2 ^ 16 ∧ s.posting src = none then
      match (s.counter src).nextSeqNum with
      | (c, none) => some (s.setCounter src c)
      | (c, some q) =>
        some ((s.setCounter src c).issue ⟨src, pe, numWrites, sigOp, sigVal, sigAddr, q⟩)
    else none
  | .postWrite src =>
    match s.posting src with
    | some (j, i) => if i < (s.put j).numWrites then some (s.postWrite src j i) else none
    | none => none
  | .postSignal src =>
    match s.posting src with
    | some (j, i) => if i = (s.put j).numWrites then some (s.postSignal src j) else none
    | none => none
  | .amo src pe op targetAddr swapAdd comp =>
    if src < cfg.npes * numEps ∧ pe < cfg.npes then
      some (s.postAmo src pe op targetAddr swapAdd comp)
    else none
  | .deliver m => if m ∈ s.net then { s with net := s.net.erase m }.processCompletion m else none
  | .processAmo pe =>
    match s.otherRecv pe with
    | op :: rest =>
      some ({ s with otherRecv := update s.otherRecv pe rest }.performAmo pe op)
    | [] => none

/-- Signals are applied at most once and after their chunks, only what has not been applied has an
entry, and the sequence numbers of a sender that are not acknowledged are different. -/
structure Safe : Prop where
  applied_le : ∀ j < s.issued, (s.history j).applied ≤ 1
  arrived : ∀ j < s.issued, 0 < (s.history j).applied →
    (s.history j).arrived = Finset.range (s.put j).numWrites
  entry : ∀ ep key, s.compMap ep key ≠ none → ∃ j < s.issued, (s.put j).dst = ep ∧
    mapKey (s.put j).src (s.put j).sequenceCount = key ∧ (s.history j).applied = 0
  removed : ∀ j < s.issued, 0 < (s.history j).applied → (s.history j).acked = false →
    s.compMap (s.put j).dst (mapKey (s.put j).src (s.put j).sequenceCount) = none
  distinct : ∀ i < s.issued, ∀ j < s.issued, (s.put i).src = (s.put j).src →
    (s.history i).acked = false → (s.history j).acked = false →
    (s.put i).sequenceCount = (s.put j).sequenceCount → i = j

/-- Every signal has been applied once and acknowledged, and the maps are empty. -/
def Settled : Prop :=
  (∀ j < s.issued, (s.history j).applied = 1 ∧ (s.history j).acked = true) ∧
    ∀ ep key, s.compMap ep key = none

end State

def Action.Continues : Action → Prop
  | .putSignal .. | .amo .. => False
  | .postWrite _ | .postSignal _ | .deliver _ | .processAmo _ => True

end Nvshmem.Libfabric
