import Nvshmem.Bits.Wrap
import Nvshmem.Combine.Basic
import Nvshmem.Mailbox.Basic
import Nvshmem.Tables.Update
import Nvshmem.Team.Exchange
import Nvshmem.Transition.Inevitable

/-! # Consecutive allreduces by recursive exchange

`gpu_rdxn_recexch_threadgroup` with radix 2 on the world team. In every phase a PE copies
its destination to its scratch space, puts the copy into a slot in the scratch space of its
neighbour and then signals, waits for the signal of the neighbour, and combines the slot
with its destination. Calls use the two halves of the scratch space and the two signal
arrays in turn, and lay out the scratch space by their own number of elements. Nothing but
the signals keeps the PEs together.
-/

namespace Nvshmem.Allreduce

open Function

open Mailbox (Box Status)
open Combine (combine)
open Tables (set₂)

abbrev Byte := BitVec 8

structure Call where
  sizeofT : ℕ
  nreduce : ℕ
  /-- `perform_gpu_rdxn`. -/
  op : (Fin sizeofT → Byte) → (Fin sizeofT → Byte) → Fin sizeofT → Byte
  source : ℕ → ℕ → Byte
  sizeofT_pos : 0 < sizeofT
  op_assoc : ∀ x y z, op (op x y) z = op x (op y z)
  op_comm : ∀ x y, op x y = op y x

instance : Inhabited Call where
  default := ⟨1, 0, fun _ _ _ => 0, fun _ _ => 0, Nat.one_pos, fun _ _ _ => rfl, fun _ _ => rfl⟩

namespace Call

variable (c : Call)

def elem (x : ℕ → Byte) (e : ℕ) : Fin c.sizeofT → Byte := fun i => x (e * c.sizeofT + i)

/-- `gpu_linear_reduce_threadgroup` for all elements. -/
def linearReduce (x y : ℕ → Byte) : ℕ → Byte := fun b =>
  c.op (c.elem x (b / c.sizeofT)) (c.elem y (b / c.sizeofT))
    ⟨b % c.sizeofT, Nat.mod_lt _ c.sizeofT_pos⟩

def nbytes : ℕ := c.nreduce * c.sizeofT

/-- The loop of `gpu_linear_reduce_threadgroup` has an `int` for its index. -/
def reduceCount : ℕ := min c.nreduce (2 ^ 31)

def IsCombination (size : ℕ) (x : ℕ → Byte) : Prop :=
  ∀ b < c.nbytes, x b = combine c.linearReduce c.source size b

end Call

/-- The world team of `2 ^ m` PEs and its calls, with the counters before the first of them. -/
structure Config where
  m : ℕ
  reduceScratchSize : ℕ
  calls : List Call
  rdxnCount : ℕ
  syncCounter : ℕ
  /-- The scratch space and the signals of each PE before the first call. -/
  scratch : ℕ × ℤ → Byte
  pSync : ℕ × ℕ × ℕ → ℕ
  pSync_lt : ∀ x, pSync x < syncCounter
  fits : ∀ c ∈ calls, (c.nreduce + 2 * m * c.nreduce + m * c.nreduce) * c.sizeofT ≤
    8 * (reduceScratchSize / 2 / 8)

/-- A byte of a phase in the copy of a PE, or on its way to the neighbour. -/
structure Packet where
  call : ℕ
  phase : ℕ
  src : ℕ
  isCopy : Bool
  byte : ℕ
  deriving DecidableEq

def Packet.copy (p : Packet) : Packet := { p with isCopy := true }

structure Signal where
  call : ℕ
  phase : ℕ
  src : ℕ
  deriving DecidableEq

namespace Config

variable (cfg : Config)

def size : ℕ := 2 ^ cfg.m

def IsCall (c : ℕ) : Prop := 0 < c ∧ c ≤ cfg.calls.length

instance (c : ℕ) : Decidable (cfg.IsCall c) := inferInstanceAs (Decidable (_ ∧ _))

def call (c : ℕ) : Call := cfg.calls.getD (c - 1) default

/-- `sync_counter` in a call. -/
def counter (c : ℕ) : ℕ := cfg.syncCounter + (c - 1)

def tables (pe : ℕ) : RecExch := RecExch.getNeighbors id 2 cfg.size pe

def step2Nphases (pe : ℕ) : ℕ := (cfg.tables pe).step2Nbrs.length

def nbr (pe phase : ℕ) : ℕ := ((cfg.tables pe).step2Nbrs.getD phase []).getD 0 0

def numSmall (rank nbr : ℕ) : ℕ := if nbr > rank then 0 else 1

def recvSlot (rank nbr : ℕ) : ℕ := if nbr < rank then 0 else 1

/-- The half of the scratch space of a call; `rdxn_count` is incremented before it is used. -/
def pWrk (c : ℕ) : ℕ := 8 * (cfg.reduceScratchSize / 2 / 8 * ((cfg.rdxnCount + c) % 2))

def slotOffset (c phase slot : ℕ) : ℕ :=
  (cfg.call c).nreduce + 2 * phase * (cfg.call c).nreduce + slot * (cfg.call c).nreduce

def slotAddr (c phase slot : ℕ) : ℤ :=
  cfg.pWrk c + (cfg.slotOffset c phase slot : ℤ) * (cfg.call c).sizeofT

/-- Where a call reads a message of a phase. The offset is an `int`. -/
def readAddr (c phase slot : ℕ) : ℤ :=
  cfg.pWrk c + Wrap.toInt (cfg.slotOffset c phase slot) * (cfg.call c).sizeofT

def sendAddr (pe c phase : ℕ) : ℤ :=
  cfg.pWrk c + (((cfg.call c).nreduce + 2 * cfg.step2Nphases pe * (cfg.call c).nreduce +
    phase * (cfg.call c).nreduce : ℕ) : ℤ) * (cfg.call c).sizeofT

def place (p : Packet) : ℕ × ℤ :=
  if p.isCopy then (p.src, cfg.sendAddr p.src p.call p.phase + p.byte)
  else (cfg.nbr p.src p.phase,
    cfg.slotAddr p.call p.phase (numSmall p.src (cfg.nbr p.src p.phase)) + p.byte)

def signalPlace (q : Signal) : ℕ × ℕ × ℕ := (cfg.nbr q.src q.phase, cfg.counter q.call % 2, q.src)

def part (c : ℕ) : ℕ → ℕ → ℕ → Byte
  | 0, pe => (cfg.call c).source pe
  | phase + 1, pe =>
    (cfg.call c).linearReduce (part c phase pe) (part c phase (cfg.nbr pe phase))

end Config

/-- Where each PE is, which elements of the phase it has combined, the destinations by call, and
the scratch spaces and signals. -/
structure State (cfg : Config) where
  call : ℕ → ℕ
  phase : ℕ → ℕ
  waited : ℕ → Bool
  reduced : ℕ → ℕ → Bool
  dst : ℕ → ℕ → ℕ → Byte
  scratch : Box Packet (ℕ × ℤ) Byte
  pSync : Box Signal (ℕ × ℕ × ℕ) ℕ

inductive Action where
  /-- A PE copies a byte of its destination. -/
  | copy (p : Packet)
  | put (p : Packet)
  /-- The put reads the byte from the copy. -/
  | fetch (p : Packet)
  | deliver (p : Packet)
  | signal (q : Signal)
  | deliverSignal (q : Signal)
  | wait (pe : ℕ)
  /-- A PE combines an element with its slot. -/
  | reduce (pe e : ℕ)
  | nextPhase (pe : ℕ)
  /-- A PE returns from its call and enters the next one. -/
  | next (pe : ℕ)

namespace State

variable {cfg : Config}

def init (cfg : Config) : State cfg where
  call _ := 0
  phase := cfg.step2Nphases
  waited _ := false
  reduced _ _ := false
  dst _ _ _ := 0
  scratch := ⟨fun _ => .idle, cfg.scratch⟩
  pSync := ⟨fun _ => .idle, cfg.pSync⟩

def InPhase (s : State cfg) (pe c i : ℕ) : Prop :=
  pe < cfg.size ∧ cfg.IsCall c ∧ c = s.call pe ∧ i = s.phase pe ∧ i < cfg.step2Nphases pe

instance (s : State cfg) (pe c i : ℕ) : Decidable (s.InPhase pe c i) :=
  inferInstanceAs (Decidable (_ ∧ _))

def HasPut (s : State cfg) (c i pe : ℕ) : Prop :=
  ∀ b < (cfg.call c).nbytes, s.scratch.status ⟨c, i, pe, false, b⟩ ≠ .idle

instance (s : State cfg) (c i pe : ℕ) : Decidable (s.HasPut c i pe) :=
  inferInstanceAs (Decidable (∀ b < _, _))

def slot (s : State cfg) (pe c i : ℕ) : ℕ → Byte := fun b =>
  s.scratch.mem (pe, cfg.readAddr c i (Config.recvSlot pe (cfg.nbr pe i)) + b)

def Enabled (s : State cfg) : Action → Prop
  | .copy p => s.InPhase p.src p.call p.phase ∧ p.isCopy = true ∧
      p.byte < (cfg.call p.call).nbytes ∧ s.scratch.status p = .idle
  | .put p => s.InPhase p.src p.call p.phase ∧ p.isCopy = false ∧
      p.byte < (cfg.call p.call).nbytes ∧ s.scratch.status p = .idle ∧
      ∀ b < (cfg.call p.call).nbytes,
        s.scratch.status ⟨p.call, p.phase, p.src, true, b⟩ = .arrived
  | .fetch p => s.scratch.status p = .posted
  | .deliver p => (s.scratch.status p).IsFlying
  | .signal q => s.InPhase q.src q.call q.phase ∧ s.HasPut q.call q.phase q.src ∧
      s.pSync.status q = .idle
  | .deliverSignal q => (s.pSync.status q).IsFlying ∧
      ∀ b < (cfg.call q.call).nbytes,
        s.scratch.status ⟨q.call, q.phase, q.src, false, b⟩ = .arrived
  | .wait pe => s.InPhase pe (s.call pe) (s.phase pe) ∧ s.HasPut (s.call pe) (s.phase pe) pe ∧
      s.waited pe = false ∧
      cfg.counter (s.call pe) ≤
        s.pSync.mem (pe, cfg.counter (s.call pe) % 2, cfg.nbr pe (s.phase pe))
  | .reduce pe e => pe < cfg.size ∧ s.waited pe = true ∧
      e < (cfg.call (s.call pe)).reduceCount ∧ s.reduced pe e = false
  | .nextPhase pe => pe < cfg.size ∧ s.waited pe = true ∧
      (∀ e < (cfg.call (s.call pe)).reduceCount, s.reduced pe e = true) ∧
      s.pSync.status ⟨s.call pe, s.phase pe, pe⟩ ≠ .idle
  | .next pe => pe < cfg.size ∧ s.phase pe = cfg.step2Nphases pe ∧ s.call pe ≤ cfg.calls.length

instance (s : State cfg) : DecidablePred s.Enabled
  | .copy _ => inferInstanceAs (Decidable (_ ∧ _))
  | .put _ => inferInstanceAs (Decidable (_ ∧ _))
  | .fetch _ => inferInstanceAs (Decidable (_ = _))
  | .deliver _ => inferInstanceAs (Decidable (Status.IsFlying _))
  | .signal _ => inferInstanceAs (Decidable (_ ∧ _))
  | .deliverSignal _ => inferInstanceAs (Decidable (_ ∧ _))
  | .wait _ => inferInstanceAs (Decidable (_ ∧ _))
  | .reduce _ _ => inferInstanceAs (Decidable (_ ∧ _))
  | .nextPhase _ => inferInstanceAs (Decidable (_ ∧ _))
  | .next _ => inferInstanceAs (Decidable (_ ∧ _))

def reduceElem (s : State cfg) (pe e : ℕ) : ℕ → Byte := fun b =>
  if b / (cfg.call (s.call pe)).sizeofT = e then
    (cfg.call (s.call pe)).linearReduce (s.dst (s.call pe) pe)
      (s.slot pe (s.call pe) (s.phase pe)) b
  else s.dst (s.call pe) pe b

def effect (s : State cfg) : Action → State cfg
  | .copy p =>
    { s with scratch := s.scratch.setStatus p (.flying (s.dst p.call p.src p.byte)) }
  | .put p => { s with scratch := s.scratch.setStatus p .posted }
  | .fetch p => { s with scratch := s.scratch.fetch p (cfg.place p.copy) }
  | .deliver p => { s with scratch := s.scratch.deliver p (cfg.place p) }
  | .signal q => { s with pSync := s.pSync.setStatus q (.flying (cfg.counter q.call)) }
  | .deliverSignal q => { s with pSync := s.pSync.deliver q (cfg.signalPlace q) }
  | .wait pe => { s with waited := update s.waited pe true }
  | .reduce pe e =>
    { s with
      reduced := set₂ s.reduced pe e true
      dst := set₂ s.dst (s.call pe) pe (s.reduceElem pe e) }
  | .nextPhase pe =>
    { s with
      phase := update s.phase pe (s.phase pe + 1)
      waited := update s.waited pe false
      reduced := update s.reduced pe fun _ => false }
  | .next pe =>
    { s with
      call := update s.call pe (s.call pe + 1)
      phase := update s.phase pe 0
      dst := set₂ s.dst (s.call pe + 1) pe ((cfg.call (s.call pe + 1)).source pe) }

def step (cfg : Config) (s : State cfg) (a : Action) : Option (State cfg) :=
  if s.Enabled a then some (s.effect a) else none

theorem step_eq_some {s t : State cfg} {a : Action} :
    step cfg s a = some t ↔ s.Enabled a ∧ s.effect a = t := by
  simp [step]

def Past (s : State cfg) (c i pe : ℕ) : Prop := c < s.call pe ∨ c = s.call pe ∧ i < s.phase pe

/-- The destinations of finished calls have the combinations of their sources. A slot has what was
sent until the PE has combined it, and a copy is kept until it has arrived in its slot. -/
structure Correct (s : State cfg) : Prop where
  complete : ∀ pe < cfg.size, ∀ c < s.call pe, cfg.IsCall c →
    (cfg.call c).IsCombination cfg.size (s.dst c pe)
  unread : ∀ p, p.isCopy = false → s.scratch.status p = .arrived →
    ¬ s.Past p.call p.phase (cfg.nbr p.src p.phase) →
    s.slot (cfg.nbr p.src p.phase) p.call p.phase p.byte = cfg.part p.call p.phase p.src p.byte
  unsent : ∀ p, p.isCopy = false → s.scratch.status p.copy = .arrived →
    s.scratch.status p ≠ .arrived →
    s.scratch.mem (cfg.place p.copy) = cfg.part p.call p.phase p.src p.byte

def Finished (s : State cfg) : Prop := ∀ pe < cfg.size, s.call pe = cfg.calls.length + 1

end State

end Nvshmem.Allreduce
