import Nvshmem.Transition.Exec

/-! # The send queue of a queue pair

Threads reserve slots of the queue, fill them and make them ready in the order of the reservations.
A thread that makes its slots ready may leave it to a later one to tell the NIC of them. The NIC
completes in order what it was told of.
-/

namespace Nvshmem.SendQueue

structure Config where
  logNwqes : ℕ
  logBatch : ℕ
  useAsyncPostsend : Bool
  logNwqes_lt : logNwqes < 16

namespace Config

variable (cfg : Config)

def nwqes : ℕ := 2 ^ cfg.logNwqes

def numRequestsInBatch : ℕ := 2 ^ cfg.logBatch

/-- `~((uint64_t)(num_requests_in_batch - 1))` -/
def mask : ℕ := (2 ^ 64 - 1) ^^^ (cfg.numRequestsInBatch - 1)

/-- The slot of `ibgda_get_wqe_ptr`. The index is a `uint16_t` there. -/
def slot (wqeIdx : ℕ) : ℕ := wqeIdx % 2 ^ 16 &&& (cfg.nwqes - 1)

end Config

inductive Pc where
  | idle
  /-- In `ibgda_wait_for_slot_availability`. -/
  | reserved (baseWqeIdx numWqes : ℕ)
  /-- Some of the slots have been filled. -/
  | filling (baseWqeIdx numWqes filled : ℕ)
  /-- The slots are ready. -/
  | ready (baseWqeIdx numWqes : ℕ)
  /-- At the start of `ibgda_post_send` or `ibgda_proxy_post_send`. -/
  | posting (newProdIdx : ℕ)
  /-- The thread has the lock. -/
  | locked (newProdIdx : ℕ)
  /-- The thread has increased `prod_idx`. -/
  | ringing (newProdIdx : ℕ)
  | unlocking
  /-- At the start of `ibgda_quiet`, with the ready head of that time. -/
  | quiet (start : ℕ)
  | polling (start prodIdx : ℕ)
  /-- At the end of `ibgda_quiet`. -/
  | quieted (start : ℕ)
deriving DecidableEq

structure State (τ : Type*) where
  resvHead : ℕ
  readyHead : ℕ
  prodIdx : ℕ
  /-- The index with which the doorbell was rung last. -/
  doorbell : ℕ
  completed : ℕ
  postSendLock : Option τ
  /-- The number of the element that was written to each slot. -/
  slots : ℕ → Option ℕ
  pc : τ → Pc

inductive Action (τ : Type*) where
  | reserve (t : τ) (numWqes : ℕ)
  | wait (t : τ) (baseWqeIdx numWqes : ℕ)
  | fill (t : τ) (baseWqeIdx numWqes filled : ℕ)
  | submit (t : τ) (baseWqeIdx numWqes : ℕ)
  | decide (t : τ) (baseWqeIdx numWqes : ℕ)
  | lock (t : τ) (newProdIdx : ℕ)
  | max (t : τ) (newProdIdx : ℕ)
  | ring (t : τ) (newProdIdx : ℕ)
  | unlock (t : τ)
  | complete
  | quiet (t : τ)
  | read (t : τ) (start : ℕ)
  | poll (t : τ) (start prodIdx : ℕ)
  | finish (t : τ) (start : ℕ)

namespace State

variable {τ : Type*}

def init : State τ := ⟨0, 0, 0, 0, 0, none, fun _ => none, fun _ => .idle⟩

variable [DecidableEq τ] (cfg : Config) (s : State τ)

/-- `do_post_send` in `ibgda_submit_requests` -/
def DoPostSend (baseWqeIdx numWqes : ℕ) : Prop :=
  baseWqeIdx + numWqes = s.resvHead ∨
    baseWqeIdx &&& cfg.mask ≠ (baseWqeIdx + numWqes) &&& cfg.mask ∨
    cfg.numRequestsInBatch ≤ numWqes

instance (baseWqeIdx numWqes : ℕ) : Decidable (s.DoPostSend cfg baseWqeIdx numWqes) :=
  inferInstanceAs (Decidable (_ ∨ _ ∨ _))

def Enabled : Action τ → Prop
  | .reserve t _ => s.pc t = .idle
  | .wait t base num => s.pc t = .reserved base num ∧
      (cfg.nwqes ≤ base + num → base + num - cfg.nwqes ≤ s.completed)
  | .fill t base num filled => s.pc t = .filling base num filled ∧ filled < num
  | .submit t base num => s.pc t = .filling base num num ∧ s.readyHead = base
  | .decide t base num => s.pc t = .ready base num
  | .lock t new =>
    s.pc t = .posting new ∧ cfg.useAsyncPostsend = false ∧ s.postSendLock = none
  | .max t new => if cfg.useAsyncPostsend then s.pc t = .posting new else s.pc t = .locked new
  | .ring t new => s.pc t = .ringing new
  | .unlock t => s.pc t = .unlocking
  | .complete => s.completed < s.doorbell
  | .quiet t => s.pc t = .idle
  | .read t start => s.pc t = .quiet start
  | .poll t start prodIdx => s.pc t = .polling start prodIdx ∧ prodIdx ≤ s.completed
  | .finish t start => s.pc t = .quieted start

def goto (t : τ) (pc : Pc) : State τ := { s with pc := Function.update s.pc t pc }

def afterPost : Pc := if cfg.useAsyncPostsend then .idle else .unlocking

/-- The state after an enabled action. `ibgda_submit_requests` takes the number of slots as a
`uint16_t`. -/
def effect : Action τ → State τ
  | .reserve t num => { s.goto t (.reserved s.resvHead num) with resvHead := s.resvHead + num }
  | .wait t base num => s.goto t (.filling base num 0)
  | .fill t base num filled =>
    { s.goto t (.filling base num (filled + 1)) with
      slots := Function.update s.slots (cfg.slot (base + filled)) (some (base + filled)) }
  | .submit t base num =>
    { s.goto t (.ready base (num % 2 ^ 16)) with readyHead := base + num % 2 ^ 16 }
  | .decide t base num =>
    s.goto t (if s.DoPostSend cfg base num then .posting (base + num) else .idle)
  | .lock t new => { s.goto t (.locked new) with postSendLock := some t }
  | .max t new =>
    { s.goto t (if s.prodIdx < new then .ringing new else afterPost cfg) with
      prodIdx := Max.max s.prodIdx new }
  | .ring t new =>
    { s.goto t (afterPost cfg) with
      doorbell := if cfg.useAsyncPostsend then Max.max s.doorbell new else new }
  | .unlock t => { s.goto t .idle with postSendLock := none }
  | .complete => { s with completed := s.completed + 1 }
  | .quiet t => s.goto t (.quiet s.readyHead)
  | .read t start => s.goto t (.polling start s.readyHead)
  | .poll t start _ => s.goto t (.quieted start)
  | .finish t _ => s.goto t .idle

instance (a : Action τ) : Decidable (s.Enabled cfg a) := by
  cases a <;> unfold Enabled <;> infer_instance

def step (a : Action τ) : Option (State τ) :=
  if s.Enabled cfg a then some (s.effect cfg a) else none

end State

def Pc.Outside : Pc → Prop
  | .idle | .quiet _ | .polling _ _ | .quieted _ => True
  | _ => False

structure State.Safe {τ : Type*} (cfg : Config) (s : State τ) : Prop where
  completed_le : s.completed ≤ s.prodIdx
  prodIdx_le : s.prodIdx ≤ s.readyHead
  readyHead_le : s.readyHead ≤ s.resvHead
  /-- What is in a slot that is filled next has completed. -/
  rewrite : ∀ t base num filled, s.pc t = .filling base num filled → filled < num →
    ∀ old ∈ s.slots (cfg.slot (base + filled)), old < s.completed
  /-- The NIC finds the elements of which it was told in their slots. -/
  filled : s.doorbell ≤ s.readyHead ∧
    ∀ i, s.completed ≤ i → i < s.doorbell → s.slots (cfg.slot i) = some i
  posted : (∀ t, (s.pc t).Outside) → s.doorbell = s.resvHead
  quiet : ∀ t start, s.pc t = .quieted start → start ≤ s.completed

end Nvshmem.SendQueue
