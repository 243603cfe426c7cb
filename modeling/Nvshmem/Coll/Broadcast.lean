import Nvshmem.Mailbox.Basic
import Nvshmem.Transition.Inevitable

/-! # Consecutive tree broadcasts

A broadcast goes down a tree of some radix that is rooted at the root PE. With the LL
algorithm a PE waits in its psync area for words of 4 bytes of data and the flag, and puts
the same words to its children. With the other algorithm the children get the data in their
destination and then a signal in their psync area. Every broadcast takes the next piece of
the area. When the area is used up, the PEs meet in a barrier and start again at its
beginning.
-/

namespace Nvshmem.Broadcast

open Function

open Mailbox (Box Status)

structure Word where
  lo : BitVec 32
  hi : BitVec 32
  deriving DecidableEq

/-- The psync area in bytes, `sizeof(long) * NVSHMEMI_BCAST_SYNC_SIZE`. -/
def bcastSyncBytes : ℕ := 8 * (10 * 27648)

/-- `nvshmemi_bcast_tree_threadgroup` and `nvshmemi_bcast_nonLL_tree_threadgroup`. -/
inductive Algo where
  | tree
  | nonLLTree
  deriving DecidableEq

/-- A broadcast with the source of its root by 4 bytes. LL messages have to fit in the area. -/
structure Bcast (size : ℕ) where
  algo : Algo
  root : Fin size
  sizeofT : ℕ
  nelems : ℕ
  source : ℕ → BitVec 32
  fits : algo = .tree → sizeofT % 4 = 0 ∧ nelems % 2 = 0 ∧ nelems * sizeofT * 2 ≤ bcastSyncBytes

namespace Bcast

variable {size : ℕ} (b : Bcast size)

def words : ℕ :=
  match b.algo with
  | .tree => b.nelems * b.sizeofT / 4
  | .nonLLTree => 1

def units : ℕ := (b.nelems * b.sizeofT + 3) / 4

def needed : ℕ :=
  match b.algo with
  | .tree => b.nelems * b.sizeofT * 2
  | .nonLLTree => 8

/-- What `bcast_sync_offset` is incremented by. -/
def increment : ℕ :=
  match b.algo with
  | .tree => b.sizeofT * b.nelems * 2
  | .nonLLTree => 2 * 8

def radix (bcastTreeKval : ℕ) : ℕ :=
  match b.algo with
  | .tree => bcastTreeKval
  | .nonLLTree => size - 1

def childInTeam (k pe i : ℕ) : ℕ := (pe + (size - b.root)) % size * k + i + 1

def children (k : ℕ) (pe : Fin size) : List (Fin size) :=
  ((List.range k).takeWhile (b.childInTeam k pe · < size)).map fun i =>
    ⟨(b.childInTeam k pe i + b.root) % size, Nat.mod_lt _ pe.pos⟩

def word (flag : BitVec 32) (idx : ℕ) : Word :=
  match b.algo with
  | .tree => ⟨b.source idx, flag⟩
  | .nonLLTree => ⟨flag, 0⟩

def accepts (flag : BitVec 32) (w : Word) : Bool :=
  match b.algo with
  | .tree => w.hi = flag
  | .nonLLTree => w = ⟨flag, 0⟩

def TakesBarrier (offset : ℕ) : Prop := bcastSyncBytes < offset + b.needed

instance (offset : ℕ) : Decidable (b.TakesBarrier offset) := inferInstanceAs (Decidable (_ < _))

def recvOffset (offset : ℕ) : ℕ := if b.TakesBarrier offset then 0 else offset

end Bcast

structure Config where
  size : ℕ
  bcastTreeKval : ℕ
  bcasts : List (Bcast size)
  kval_pos : 0 < bcastTreeKval

structure Packet (size : ℕ) where
  bcast : ℕ
  dst : Fin size
  idx : ℕ
  deriving DecidableEq

namespace Config

variable (cfg : Config)

/-- The broadcast for a value of `bcast_count`, which is incremented before it is used. -/
def bcast? (count : ℕ) : Option (Bcast cfg.size) :=
  if count = 0 then none else cfg.bcasts[count - 1]?

/-- `bcast_sync_offset` after so many broadcasts. -/
def bcastSyncOffset : ℕ → ℕ
  | 0 => 0
  | c + 1 => (cfg.bcast? (c + 1)).elim (bcastSyncOffset c) fun b =>
      b.recvOffset (bcastSyncOffset c) + b.increment

def Barrier (c : ℕ) : Prop := ∃ b ∈ cfg.bcast? c, b.TakesBarrier (cfg.bcastSyncOffset (c - 1))

instance (c : ℕ) : Decidable (cfg.Barrier c) := inferInstanceAs (Decidable (∃ b ∈ _, _))

/-- `ll_flag` is 1 at first, and it is incremented before it is used. -/
def llFlag (c : ℕ) : BitVec 32 := BitVec.ofNat 32 (c + 1)

def words (c : ℕ) : ℕ := (cfg.bcast? c).elim 0 Bcast.words

def units (c : ℕ) : ℕ := (cfg.bcast? c).elim 0 Bcast.units

def source (c j : ℕ) : BitVec 32 := (cfg.bcast? c).elim 0 fun b => b.source j

def IsRoot (c : ℕ) (pe : Fin cfg.size) : Prop := ∃ b ∈ cfg.bcast? c, b.root = pe

instance (c : ℕ) (pe : Fin cfg.size) : Decidable (cfg.IsRoot c pe) :=
  inferInstanceAs (Decidable (∃ b ∈ _, _))

def IsTree (c : ℕ) : Prop := ∃ b ∈ cfg.bcast? c, b.algo = .tree

instance (c : ℕ) : Decidable (cfg.IsTree c) := inferInstanceAs (Decidable (∃ b ∈ _, _))

def children (c : ℕ) (pe : Fin cfg.size) : List (Fin cfg.size) :=
  (cfg.bcast? c).elim [] fun b => b.children (b.radix cfg.bcastTreeKval) pe

def place (p : Packet cfg.size) : Fin cfg.size × ℕ :=
  (p.dst, (cfg.bcast? p.bcast).elim 0 fun b =>
    b.recvOffset (cfg.bcastSyncOffset (p.bcast - 1)) + 8 * p.idx)

def content (p : Packet cfg.size) : Word :=
  (cfg.bcast? p.bcast).elim ⟨0, 0⟩ fun b => b.word (llFlag p.bcast) p.idx

def accepts (p : Packet cfg.size) (w : Word) : Bool :=
  (cfg.bcast? p.bcast).any fun b => b.accepts (llFlag p.bcast) w

end Config

/-- The broadcast that each PE is in and whether it has passed the barrier, the words on their way
and in the psync areas, the words that have been waited for, and the destinations by broadcast. -/
structure State (cfg : Config) where
  bcastCount : Fin cfg.size → ℕ
  passed : Fin cfg.size → Bool
  box : Box (Packet cfg.size) (Fin cfg.size × ℕ) Word
  received : Packet cfg.size → Bool
  dest : ℕ → Fin cfg.size → ℕ → Option (BitVec 32)

inductive Action (cfg : Config) where
  /-- The PE goes on, after the barrier if there is one. -/
  | start (pe : Fin cfg.size)
  /-- The root packs a word of an LL message into its own psync area. -/
  | pack (p : Packet cfg.size)
  /-- A PE posts the put of a word, or of the data and the signal, to a child. -/
  | post (pe : Fin cfg.size) (p : Packet cfg.size)
  /-- The put reads the word, or transfers the data. -/
  | transfer (pe : Fin cfg.size) (p : Packet cfg.size)
  | deliver (p : Packet cfg.size)
  | recv (p : Packet cfg.size)
  /-- The PE has finished a broadcast and enters the next one. -/
  | next (pe : Fin cfg.size)

namespace State

variable {cfg : Config}

def init (cfg : Config) : State cfg where
  bcastCount _ := 0
  passed _ := true
  box := ⟨fun _ => .idle, fun _ => ⟨0, 0⟩⟩
  received _ := false
  dest _ _ _ := none

def HasMessage (s : State cfg) (c : ℕ) (pe : Fin cfg.size) : Prop :=
  ∀ j < cfg.words c,
    if cfg.IsRoot c pe then cfg.IsTree c → s.box.status ⟨c, pe, j⟩ = .arrived
    else s.received ⟨c, pe, j⟩ = true

instance (s : State cfg) (c : ℕ) (pe : Fin cfg.size) : Decidable (s.HasMessage c pe) :=
  inferInstanceAs (Decidable (∀ j < _, _))

def copyTo (s : State cfg) (c : ℕ) (pe : Fin cfg.size) (msg : ℕ → Option (BitVec 32)) :
    ℕ → Fin cfg.size → ℕ → Option (BitVec 32) :=
  fun c' pe' j => if c' = c ∧ pe' = pe ∧ j < cfg.units c then msg j else s.dest c' pe' j

def Enabled (s : State cfg) : Action cfg → Prop
  | .start pe => s.passed pe = false ∧
      (cfg.Barrier (s.bcastCount pe) → ∀ pe', s.bcastCount pe ≤ s.bcastCount pe')
  | .pack p => p.bcast = s.bcastCount p.dst ∧ s.passed p.dst = true ∧
      p.idx < cfg.words p.bcast ∧ cfg.IsRoot p.bcast p.dst ∧ cfg.IsTree p.bcast ∧
      s.box.status p = .idle
  | .post pe p => p.bcast = s.bcastCount pe ∧ s.passed pe = true ∧
      p.idx < cfg.words p.bcast ∧ p.dst ∈ cfg.children p.bcast pe ∧ s.HasMessage p.bcast pe ∧
      s.box.status p = .idle
  | .transfer pe p => p.dst ∈ cfg.children p.bcast pe ∧ s.box.status p = .posted
  | .deliver p => (s.box.status p).IsFlying
  | .recv p => p.bcast = s.bcastCount p.dst ∧ s.passed p.dst = true ∧
      p.idx < cfg.words p.bcast ∧ ¬ cfg.IsRoot p.bcast p.dst ∧ s.received p = false ∧
      cfg.accepts p (s.box.mem (cfg.place p)) = true
  | .next pe => s.bcastCount pe ≤ cfg.bcasts.length ∧ s.passed pe = true ∧
      s.HasMessage (s.bcastCount pe) pe ∧
      ∀ pe' ∈ cfg.children (s.bcastCount pe) pe, ∀ j < cfg.words (s.bcastCount pe),
        s.box.status ⟨s.bcastCount pe, pe', j⟩ ≠ .idle

instance (s : State cfg) : DecidablePred s.Enabled
  | .start _ => inferInstanceAs (Decidable (_ ∧ (_ → _)))
  | .pack _ => inferInstanceAs (Decidable (_ ∧ _))
  | .post _ _ => inferInstanceAs (Decidable (_ ∧ _))
  | .transfer _ _ => inferInstanceAs (Decidable (_ ∧ _))
  | .deliver _ => inferInstanceAs (Decidable (Status.IsFlying _))
  | .recv _ => inferInstanceAs (Decidable (_ ∧ _))
  | .next _ => inferInstanceAs (Decidable (_ ∧ _))

def effect (s : State cfg) : Action cfg → State cfg
  | .start pe => { s with passed := update s.passed pe true }
  | .pack p => { s with box := s.box.setStatus p (.flying (cfg.content p)) }
  | .post _ p => { s with box := s.box.setStatus p .posted }
  | .transfer pe p =>
    if cfg.IsTree p.bcast then { s with box := s.box.fetch p (cfg.place { p with dst := pe }) }
    else
      { s with
        box := s.box.setStatus p (.flying (cfg.content p))
        dest := s.copyTo p.bcast p.dst
          (if cfg.IsRoot p.bcast pe then fun j => some (cfg.source p.bcast j)
          else s.dest p.bcast pe) }
  | .deliver p => { s with box := s.box.deliver p (cfg.place p) }
  | .recv p =>
    { s with
      received := update s.received p true
      dest := if cfg.IsTree p.bcast then
          fun c pe j => if c = p.bcast ∧ pe = p.dst ∧ j = p.idx then
            some (s.box.mem (cfg.place p)).lo else s.dest c pe j
        else s.dest }
  | .next pe =>
    { s with
      bcastCount := update s.bcastCount pe (s.bcastCount pe + 1)
      passed := update s.passed pe false
      dest := if cfg.IsRoot (s.bcastCount pe) pe then
          s.copyTo (s.bcastCount pe) pe fun j => some (cfg.source (s.bcastCount pe) j)
        else s.dest }

def step (cfg : Config) (s : State cfg) (a : Action cfg) : Option (State cfg) :=
  if s.Enabled a then some (s.effect a) else none

theorem step_eq_some {s t : State cfg} {a : Action cfg} :
    step cfg s a = some t ↔ s.Enabled a ∧ s.effect a = t := by
  simp [step]

/-- Whatever a PE has waited for was sent to it in the same broadcast, every PE has the messages of
the broadcasts that it has returned from, and words stay until they are read. -/
structure Correct (s : State cfg) : Prop where
  accepted : ∀ p, s.received p = true → s.box.status p = .arrived
  complete : ∀ c pe, c < s.bcastCount pe → ∀ j < cfg.units c,
    s.dest c pe j = some (cfg.source c j)
  unread : ∀ p, s.box.status p = .arrived → s.received p = false → ¬ cfg.IsRoot p.bcast p.dst →
    s.box.mem (cfg.place p) = cfg.content p

def Finished (s : State cfg) : Prop := ∀ pe, s.bcastCount pe = cfg.bcasts.length + 1

end State

end Nvshmem.Broadcast
