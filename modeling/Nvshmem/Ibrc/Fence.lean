import Nvshmem.Proxy.Request
import Nvshmem.Transition.Exec

/-! # Fences on the queue pairs of a target

A PE posts operations for one target on its default queue pairs. A queue pair delivers in
order. A write or a native atomic takes effect when it arrives; an atomic that is sent as
a message takes effect when the target has polled it from its completion queue and then
processes it, and is acknowledged. A fence waits only if there is more than one
queue pair.
-/

namespace Nvshmem.Ibrc

open Function

open Proxy (Amo)

/-- The settings of the transport. The default queue pairs are numbered from 0, and each belongs to
a device. -/
structure Config where
  numRcPerDevice : ℕ
  numRcPerDevice_pos : 0 < numRcPerDevice
  qpDepth : ℕ
  srqDepth : ℕ
  connectedQpCount : ℕ
  useIbNativeAtomics : Bool
  useGdrcopy : Bool
  device : ℕ → ℕ

inductive Opcode where
  | rdmaWrite | fetchAndAdd | send
deriving DecidableEq

inductive Operation where
  | put (isNbi : Bool)
  | p
  | amo (verb : Amo) (elembytes : ℕ) (isEgm : Bool)
deriving DecidableEq

/-- The work request of `nvshmemt_ibrc_amo`, if the verb is implemented. -/
def amoOpcode (cfg : Config) (verb : Amo) (elembytes : ℕ) (isEgm : Bool) : Option Opcode :=
  if cfg.useIbNativeAtomics ∧ verb = .signalAdd ∧ elembytes = 8 then some .fetchAndAdd
  else if cfg.useGdrcopy ∧ ¬ isEgm then some .send
  else if cfg.useIbNativeAtomics then
    if verb = .add then if elembytes = 8 then some .fetchAndAdd else none
    else if verb = .signal ∨ verb = .signalSet then some .rdmaWrite
    else none
  else none

def Operation.opcode (cfg : Config) : Operation → Option Opcode
  | .put _ | .p => some .rdmaWrite
  | .amo verb elembytes isEgm => amoOpcode cfg verb elembytes isEgm

structure Posted where
  qp : ℕ
  opcode : Opcode
  epoch : ℕ
deriving DecidableEq

/-- The posting PE and the target. Operations are named by their position in `posted`. -/
structure State where
  posted : List Posted
  epoch : ℕ
  /-- The queue pairs that `nvshmemt_ib_common_check_poll_avail` still has to wait for. -/
  waiting : List ℕ
  headOpId : ℕ → ℕ
  tailOpId : ℕ → ℕ
  /-- Completions that `progress_send` has not polled. -/
  sendCq : ℕ → ℕ
  atomicsIssued : ℕ
  atomicsAcked : ℕ
  /-- Acknowledgements that the posting PE has not polled. -/
  acks : ℕ
  wire : List ℕ
  /-- Messages that `poll_recv` has not polled. -/
  recvCq : List ℕ
  bqueueToprocess : List ℕ
  /-- The operations in the order in which they have taken effect. -/
  effects : List ℕ

inductive Action where
  | post (qp : ℕ) (op : Operation)
  | fence (isMulti : Bool)
  | checkPollAvail (qp : ℕ)
  | deliver (i : ℕ)
  | progressSend (qp : ℕ)
  | pollRecv (i : ℕ)
  | processRecv (i : ℕ)
  | pollAck

namespace State

def init : State where
  posted := []
  epoch := 0
  waiting := []
  headOpId _ := 0
  tailOpId _ := 0
  sendCq _ := 0
  atomicsIssued := 0
  atomicsAcked := 0
  acks := 0
  wire := []
  recvCq := []
  bqueueToprocess := []
  effects := []

variable (cfg : Config) (s : State)

def qp (i : ℕ) : ℕ := (s.posted[i]?.map Posted.qp).getD 0

def opcode (i : ℕ) : Opcode := (s.posted[i]?.map Posted.opcode).getD .rdmaWrite

def epochOf (i : ℕ) : ℕ := (s.posted[i]?.map Posted.epoch).getD 0

def outstandingAtomics : ℕ := cfg.srqDepth / (cfg.connectedQpCount + 1)

def Enabled : Action → Prop
  -- `nvshmemt_ib_common_check_poll_avail` has waited for any request to become available
  | .post qp op => s.waiting = [] ∧ qp < cfg.numRcPerDevice ∧ op.opcode cfg ≠ none ∧
      s.headOpId qp - s.tailOpId qp < cfg.qpDepth ∧
      (cfg.useGdrcopy → s.atomicsIssued - s.atomicsAcked ≤ outstandingAtomics cfg)
  | .fence _ => s.waiting = []
  | .checkPollAvail qp => s.waiting.head? = some qp ∧ s.headOpId qp = s.tailOpId qp ∧
      (cfg.useGdrcopy → s.atomicsIssued - s.atomicsAcked = 0)
  | .deliver i => s.wire.find? (s.qp · = s.qp i) = some i
  | .progressSend qp => 0 < s.sendCq qp
  | .pollRecv i =>
      s.recvCq.find? (fun j => cfg.device (s.qp j) = cfg.device (s.qp i)) = some i
  | .processRecv i => s.bqueueToprocess.head? = some i
  | .pollAck => 0 < s.acks

def effect : Action → State
  | .post qp op =>
    let opcode := (op.opcode cfg).getD .rdmaWrite
    { s with
      posted := s.posted ++ [⟨qp, opcode, s.epoch⟩]
      headOpId := update s.headOpId qp (s.headOpId qp + 1)
      atomicsIssued := if opcode = .send then s.atomicsIssued + 1 else s.atomicsIssued
      wire := s.wire ++ [s.posted.length]
      -- a blocking put waits for its queue pair
      waiting := if op = .put false then [qp] else [] }
  | .fence isMulti =>
    { s with
      epoch := s.epoch + 1
      waiting := if 1 < cfg.numRcPerDevice ∨ isMulti then List.range cfg.numRcPerDevice else [] }
  | .checkPollAvail _ => { s with waiting := s.waiting.tail }
  | .deliver i =>
    { s with
      wire := s.wire.erase i
      sendCq := update s.sendCq (s.qp i) (s.sendCq (s.qp i) + 1)
      recvCq := if s.opcode i = .send then s.recvCq ++ [i] else s.recvCq
      effects := if s.opcode i = .send then s.effects else s.effects ++ [i] }
  | .progressSend qp =>
    { s with
      sendCq := update s.sendCq qp (s.sendCq qp - 1)
      tailOpId := update s.tailOpId qp (s.tailOpId qp + 1) }
  | .pollRecv i =>
    { s with
      recvCq := s.recvCq.erase i
      bqueueToprocess := s.bqueueToprocess ++ [i] }
  | .processRecv i =>
    { s with
      bqueueToprocess := s.bqueueToprocess.tail
      effects := s.effects ++ [i]
      acks := s.acks + 1 }
  | .pollAck =>
    { s with
      acks := s.acks - 1
      atomicsAcked := s.atomicsAcked + 1 }

instance (a : Action) : Decidable (s.Enabled cfg a) := by
  cases a <;> unfold Enabled <;> infer_instance

def step (a : Action) : Option State := if s.Enabled cfg a then some (s.effect cfg a) else none

variable {cfg s} {t : State} {a : Action}

theorem step_eq_some : s.step cfg a = some t ↔ s.Enabled cfg a ∧ s.effect cfg a = t := by
  rw [step, Option.ite_none_right_eq_some, Option.some.injEq]

end State

end Nvshmem.Ibrc
