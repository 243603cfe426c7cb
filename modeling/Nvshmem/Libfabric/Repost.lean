import Nvshmem.Libfabric.PutSignal
import Nvshmem.Proxy.Request

/-! # The receive buffer of a staged atomic

The target performs an atomic out of the buffer in which it arrived and posts the buffer again
before it answers. From then on the provider may receive the next message into it.
-/

namespace Nvshmem.Repost

open Function

open Proxy (Amo)

open Libfabric (ackImm)

/-- The part of `nvshmemt_libfabric_gdr_op_ctx_t` that the provider writes. -/
structure Wire where
  ep : ℕ
  op : Amo
  targetAddr : ℕ
  retAddr : ℕ
  retflag : BitVec 64
  swapAdd : BitVec 64
  comp : BitVec 64
  srcPe : ℕ

/-- What a statement reads or writes of the buffer. -/
inductive Field where
  | ep | sendAmo | srcAddr
deriving DecidableEq

inductive Sent (w : ℕ) where
  | response (dest retAddr : ℕ) (data : BitVec w) (flag : BitVec 64)
  | ack (dest pe imm : ℕ)

/-- What the calls return after their retries: zero is success. `arriving` is the message that the
provider writes into the buffer between `fi_recv` and the next use of the buffer. -/
structure Env where
  handleInfo : ℕ → Bool
  fiRecv : ℤ
  fiSend : ℤ
  fiWritedata : ℤ
  arriving : Option Wire

structure Outcome (w : ℕ) where
  status : ℤ
  /-- What is written to the target address. -/
  stored : Option (BitVec w)
  sent : List (Sent w)
  submittedOps : ℕ → ℕ
  /-- The fields of the buffer that are used after it has been posted. -/
  touched : List Field

def errorInternal : ℤ := 7

namespace Wire

variable {w : ℕ} (m : Wire)

/-- The switch of `perform_gdrcopy_amo`. -/
def newValue (old : BitVec w) : Option (BitVec w) :=
  match m.op with
  | .signal | .signalSet | .set | .swap => some (m.swapAdd.setWidth w)
  | .add | .signalAdd | .fetchAdd => some (old + m.swapAdd.setWidth w)
  | .or | .fetchOr => some (old ||| m.swapAdd.setWidth w)
  | .and | .fetchAnd => some (old &&& m.swapAdd.setWidth w)
  | .xor | .fetchXor => some (old ^^^ m.swapAdd.setWidth w)
  | .compareSwap => some (if old = m.comp.setWidth w then m.swapAdd.setWidth w else old)
  | .fetch => some old
  | .ack | .inc | .endOfNonfetch | .fetchInc => none

def isFetchAmo : Bool := Amo.endOfNonfetch.code < m.op.code

end Wire

section Perform

variable {w : ℕ} (env : Env) (m : Wire)

/-- `gdrcopy_amo_ack` -/
def gdrcopyAmoAck (ep destAddr sequenceCount pe : ℕ) (o : Outcome w) : Outcome w :=
  if env.fiWritedata ≠ 0 then { o with status := errorInternal }
  else { o with
    sent := o.sent ++ [.ack destAddr pe (ackImm sequenceCount)]
    submittedOps := update o.submittedOps ep (o.submittedOps ep + 1) }

/-- The answer of a fetching atomic. The counter is that of the endpoint which the buffer names
now. -/
def respond (srcAddr : ℕ) (old : BitVec w) (o : Outcome w) : Outcome w :=
  let ep := (env.arriving.getD m).ep
  { o with
    sent := o.sent ++ [.response srcAddr m.retAddr old m.retflag]
    submittedOps := update o.submittedOps ep (o.submittedOps ep + 1)
    touched := o.touched ++ [.ep] }

/-- `perform_gdrcopy_amo` for a message that arrived as `m`, with the old value at its target. -/
def performGdrcopyAmo (srcAddr sequenceCount : ℕ) (old : BitVec w) (submittedOps : ℕ → ℕ) :
    Outcome w :=
  let failed : Outcome w := ⟨errorInternal, none, [], submittedOps, []⟩
  if env.handleInfo m.targetAddr = false then failed
  else match m.newValue old with
    | none => failed
    | some new =>
      if env.fiRecv ≠ 0 then { failed with stored := some new }
      else if m.isFetchAmo ∧ env.fiSend ≠ 0 then { failed with stored := some new }
      else
        let o : Outcome w := ⟨0, some new, [], submittedOps, []⟩
        gdrcopyAmoAck env m.ep srcAddr sequenceCount m.srcPe
          (if m.isFetchAmo then respond env m srcAddr old o else o)

/-- The buffer is left alone once it has been posted, and every operation that was submitted counts
at the endpoint of the message. -/
structure Untouched (submittedOps : ℕ → ℕ) (o : Outcome w) : Prop where
  touched : o.touched = []
  counted : o.submittedOps = update submittedOps m.ep (submittedOps m.ep + o.sent.length)

variable {env m} {srcAddr sequenceCount ep pe : ℕ} {old : BitVec w} {submittedOps : ℕ → ℕ}

theorem touched_gdrcopyAmoAck (o : Outcome w) :
    (gdrcopyAmoAck env ep srcAddr sequenceCount pe o).touched = o.touched := by
  rw [gdrcopyAmoAck]
  split_ifs <;> rfl

theorem untouched_start {status : ℤ} {stored : Option (BitVec w)} :
    Untouched m submittedOps ⟨status, stored, [], submittedOps, []⟩ :=
  ⟨rfl, (update_eq_self _ _).symm⟩

theorem Untouched.gdrcopyAmoAck {o : Outcome w} (h : Untouched m submittedOps o) :
    Untouched m submittedOps (gdrcopyAmoAck env m.ep srcAddr sequenceCount pe o) := by
  rw [Repost.gdrcopyAmoAck]
  split_ifs
  · exact ⟨h.touched, h.counted⟩
  · refine ⟨h.touched, ?_⟩
    rw [h.counted, update_self, update_idem, List.length_append, List.length_singleton, add_assoc]

/-- `op->ep` is read after the buffer has been posted whenever a response was sent. -/
theorem untouched_iff (env : Env) (m : Wire) (srcAddr sequenceCount : ℕ) (old : BitVec w)
    (submittedOps : ℕ → ℕ) :
    Untouched m submittedOps (performGdrcopyAmo env m srcAddr sequenceCount old submittedOps) ↔
      ¬ (env.handleInfo m.targetAddr = true ∧ (m.newValue old).isSome ∧ env.fiRecv = 0 ∧
        m.isFetchAmo ∧ env.fiSend = 0) := by
  rw [performGdrcopyAmo]
  cases hinfo : env.handleInfo m.targetAddr with
  | false => simp [untouched_start]
  | true =>
    cases hnew : m.newValue old with
    | none => simp [untouched_start]
    | some new =>
      by_cases hrecv : env.fiRecv = 0
      · by_cases hfetch : m.isFetchAmo
        · by_cases hsend : env.fiSend = 0
          · simp only [hrecv, hfetch, hsend, Bool.true_eq_false, if_false, ne_eq, not_true_eq_false,
              and_false, if_true, Option.isSome_some, and_self, iff_false]
            intro h
            have htouched := h.touched
            rw [touched_gdrcopyAmoAck] at htouched
            cases htouched
          · simp [hrecv, hfetch, hsend, untouched_start]
        · simp [hrecv, hfetch, untouched_start.gdrcopyAmoAck]
      · simp [hrecv, untouched_start]

end Perform

/-- A fetch at the endpoint 1, into whose buffer a message for the endpoint 0 arrives. -/
def fetchOvertaken : Env × Wire :=
  (⟨fun _ => true, 0, 0, 0, some ⟨0, .set, 16, 0, 0, 3, 0, 1⟩⟩, ⟨1, .fetch, 8, 64, 5, 0, 0, 1⟩)

theorem not_untouched_fetchOvertaken :
    ¬ Untouched fetchOvertaken.2 (fun _ => 0)
      (performGdrcopyAmo fetchOvertaken.1 fetchOvertaken.2 1 2 (0 : BitVec 64) fun _ => 0) := by
  intro h
  have hcounted := congrFun h.counted 0
  exact absurd hcounted (by decide)

end Nvshmem.Repost
