import Nvshmem.Proxy.Request

/-! # Atomics of the network in the UCX transport

`nvshmemt_ucx_remote_amo` maps a verb to an operation of UCX. UCX reads the operand from a buffer at
some time before it completes the operation, and calls the callback, which returns the old value,
only if it completes the operation later.
-/

namespace Nvshmem.Ucx

open Proxy

/-- `ucp_atomic_op_t`. -/
inductive Opcode where
  | add | and | or | xor | swap | cswap

/-- What UCX does to the remote word. -/
def Opcode.apply {w : ℕ} (old operand swap : BitVec w) : Opcode → BitVec w
  | .add => old + operand
  | .and => old &&& operand
  | .or => old ||| operand
  | .xor => old ^^^ operand
  | .swap => operand
  | .cswap => if old = operand then swap else old

/-- The operands of `amo_memdesc_t`. -/
structure Memdesc where
  val : BitVec 64
  cmp : BitVec 64
  retflag : BitVec 64

/-- The operand is passed as a value or as a pointer into a bounce buffer, which is kept until the
operation is complete, or into the descriptor of the caller. -/
inductive Operand where
  | value (v : BitVec 64)
  | bounce (v : BitVec 64)
  | caller
  | null

structure Submitted where
  opcode : Opcode
  operand : Operand
  /-- What `retvalue` of the bounce buffer holds before the operation. -/
  reply : Option (BitVec 64)

def isFetch (verb : Amo) : Bool := Amo.endOfNonfetch.code < verb.code

/-- The verbs of `ucp_atomic_post`. -/
def postOpcode : Amo → Option Opcode
  | .add | .signalAdd => some .add
  | .and => some .and
  | .or => some .or
  | .xor => some .xor
  | _ => none

/-- The verbs of `ucp_atomic_op_nbx`. -/
def fetchOpcode : Amo → Option Opcode
  | .signal | .signalSet | .set | .swap => some .swap
  | .fetch | .fetchOr => some .or
  | .fetchAdd => some .add
  | .fetchAnd => some .and
  | .fetchXor => some .xor
  | .compareSwap => some .cswap
  | _ => none

def remoteAmo (remote : Memdesc) (verb : Amo) : Option Submitted :=
  match postOpcode verb with
  | some opcode => some ⟨opcode, .value remote.val, none⟩
  | none =>
    (fetchOpcode verb).map fun opcode =>
      { opcode := opcode
        operand :=
          if verb = .fetch then .null
          else if verb = .compareSwap then .bounce remote.cmp
          else if isFetch verb then .bounce remote.val
          else .caller
        reply :=
          if verb = .compareSwap then some remote.val else if isFetch verb then some 0 else none }

/-- How UCX completes an operation: at once or later, and what the descriptor of the caller then
holds. A descriptor is not changed before the call returns. -/
inductive Completion where
  | now
  | later (val : BitVec 64)

namespace Submitted

variable {w : ℕ} (sub : Submitted) (remote : Memdesc) (c : Completion) (old : BitVec w)

def readOperand : Option (BitVec 64) :=
  match sub.operand, c with
  | .value v, _ | .bounce v, _ => some v
  | .caller, .now => some remote.val
  | .caller, .later val => some val
  | .null, _ => none

/-- The remote word; there is none if the operand is read from the null pointer. -/
def newValue : Option (BitVec w) :=
  (sub.readOperand remote c).map fun operand =>
    sub.opcode.apply old (operand.setWidth w) ((sub.reply.getD 0).setWidth w)

/-- What `nvshmemt_ucx_atomic_request_cb` writes to the return slot: the element and the flag. -/
def returned : List (BitVec w × BitVec 64) :=
  match c, sub.reply with
  | .later _, some _ => [(old, remote.retflag)]
  | _, _ => []

end Submitted

/-- The effect of a verb, as in `nvshmemt_ucx_handle_amo`. -/
def effect {w : ℕ} (remote : Memdesc) (old : BitVec w) : Amo → Option (BitVec w)
  | .signal | .signalSet | .set | .swap => some (remote.val.setWidth w)
  | .add | .signalAdd | .fetchAdd => some (old + remote.val.setWidth w)
  | .or | .fetchOr => some (old ||| remote.val.setWidth w)
  | .and | .fetchAnd => some (old &&& remote.val.setWidth w)
  | .xor | .fetchXor => some (old ^^^ remote.val.setWidth w)
  | .compareSwap => some (if old = remote.cmp.setWidth w then remote.val.setWidth w else old)
  | .fetch => some old
  | .ack | .inc | .endOfNonfetch | .fetchInc => none

/-- The remote word and the return slot get what the verb asks for. -/
def Performs (w : ℕ) (remote : Memdesc) (verb : Amo) (sub : Submitted) (c : Completion) : Prop :=
  ∀ old : BitVec w, sub.newValue remote c old = effect remote old verb ∧
    sub.returned remote c old = if isFetch verb then [(old, remote.retflag)] else []

section Accepted

variable {w : ℕ} {remote : Memdesc} {verb : Amo} {sub : Submitted} {c : Completion}
  {old : BitVec w} (h : remoteAmo remote verb = some sub)
include h

theorem newValue_eq_effect_iff : sub.newValue remote c old = effect remote old verb ↔
    verb ≠ .fetch ∧ (verb ∈ [.signal, .signalSet, .set] →
      ∀ val, c = .later val → val.setWidth w = remote.val.setWidth w) := by
  cases verb <;> cases h <;> cases c <;>
    simp [Submitted.newValue, Submitted.readOperand, Opcode.apply, effect, isFetch, Amo.code]

theorem returned_eq_iff : sub.returned remote c old =
    (if isFetch verb then [(old, remote.retflag)] else []) ↔ (isFetch verb → c ≠ .now) := by
  cases verb <;> cases h <;> cases c <;> simp [Submitted.returned, isFetch, Amo.code]

end Accepted

end Nvshmem.Ucx
