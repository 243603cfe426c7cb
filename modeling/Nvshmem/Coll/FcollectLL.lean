import Nvshmem.Mailbox.Basic
import Nvshmem.Transition.Inevitable

/-! # Consecutive low-latency collects

In `nvshmemi_fcollect_allpush_ll_threadgroup` with LL8 every PE writes its block to every
PE of the team, as words of 4 bytes of data and the flag of the call, and waits in its own
memory for the words of all blocks. Calls use the two halves of the psync area in turn and
lay out their blocks by their own element count. Nothing but the words themselves keeps the
PEs together.
-/

namespace Nvshmem.FcollectLL

open Mailbox (Box Status)

structure Word where
  data : BitVec 32
  flag : BitVec 32
  deriving DecidableEq

/-- `NVSHMEMI_TEAM_ROUND_UP`. -/
def teamRoundUp (x y : ℕ) : ℕ := (x + y - 1) / y * y

structure Call (size threshold : ℕ) where
  sizeofT : ℕ
  nelems : ℕ
  source : Fin size → ℕ → BitVec 32
  sizeofT_eq : sizeofT = 4 ∨ sizeofT = 8
  even : nelems % 2 = 0
  fits : nelems * sizeofT ≤ threshold

namespace Call

variable {size threshold : ℕ} (c : Call size threshold)

def numSubelems : ℕ := c.nelems * c.sizeofT / 4

def psyncRemoteWriteElements : ℕ := teamRoundUp (c.nelems * 2) (16 / c.sizeofT)

def wordAddr (fcollectCount pe j : ℕ) : ℕ :=
  (2 * size * (threshold / c.sizeofT) * (fcollectCount % 2) + pe * c.psyncRemoteWriteElements) *
    c.sizeofT + 8 * j

end Call

structure Config where
  size : ℕ
  fcollectLlThreshold : ℕ
  calls : List (Call size fcollectLlThreshold)
  /-- A PE stores to the second one itself, and does not put. -/
  direct : Fin size → Fin size → Bool
  direct_self : ∀ pe, direct pe pe = true
  threshold_mod : fcollectLlThreshold % 8 = 0
  length_lt : calls.length < 2 ^ 32

/-- A word of the block of `src` in a call on its way to `dst`. -/
structure Packet (size : ℕ) where
  call : ℕ
  src : Fin size
  dst : Fin size
  idx : ℕ
  deriving DecidableEq

def Packet.own {size : ℕ} (p : Packet size) : Packet size := { p with dst := p.src }

namespace Config

variable (cfg : Config)

/-- The call for a value of `fcollect_count`, which is incremented before it is used. -/
def call? (fcollectCount : ℕ) : Option (Call cfg.size cfg.fcollectLlThreshold) :=
  if fcollectCount = 0 then none else cfg.calls[fcollectCount - 1]?

def words (c : ℕ) : ℕ := (cfg.call? c).elim 0 Call.numSubelems

def llFlag (c : ℕ) : BitVec 32 := BitVec.ofNat 32 c

def sourceWord (p : Packet cfg.size) : BitVec 32 :=
  (cfg.call? p.call).elim 0 fun c => c.source p.src p.idx

def place (p : Packet cfg.size) : Fin cfg.size × ℕ :=
  (p.dst, (cfg.call? p.call).elim 0 fun c => c.wordAddr p.call p.src p.idx)

/-- What `nvshmemi_packLL` and `nvshmemi_packLL_naive` store. -/
def content (p : Packet cfg.size) : Word := ⟨cfg.sourceWord p, llFlag p.call⟩

end Config

/-- The call that each PE is in, the words on their way and in the psync areas, and what has been
written to the destinations. -/
structure State (cfg : Config) where
  fcollectCount : Fin cfg.size → ℕ
  box : Box (Packet cfg.size) (Fin cfg.size × ℕ) Word
  dest : Packet cfg.size → Option (BitVec 32)

inductive Action (cfg : Config) where
  /-- Store a word, or post the put for it. -/
  | store (p : Packet cfg.size)
  /-- A put reads the word from the memory of its PE. -/
  | fetch (p : Packet cfg.size)
  | deliver (p : Packet cfg.size)
  /-- `nvshmemi_recvLL` finds the flag and copies the data. -/
  | recv (p : Packet cfg.size)
  /-- All threads of a PE have finished a call, and the PE enters the next one. -/
  | next (pe : Fin cfg.size)

namespace State

variable {cfg : Config}

def init (cfg : Config) : State cfg where
  fcollectCount _ := 0
  box := ⟨fun _ => .idle, fun _ => ⟨0, 0⟩⟩
  dest _ := none

def Enabled (s : State cfg) : Action cfg → Prop
  | .store p => p.call = s.fcollectCount p.src ∧ p.idx < cfg.words p.call ∧ s.box.status p = .idle
  | .fetch p => s.box.status p = .posted
  | .deliver p => (s.box.status p).IsFlying
  | .recv p => p.call = s.fcollectCount p.dst ∧ p.idx < cfg.words p.call ∧ s.dest p = none ∧
      (s.box.mem (cfg.place p)).flag = Config.llFlag p.call
  | .next pe => s.fcollectCount pe ≤ cfg.calls.length ∧
      ∀ i, ∀ j < cfg.words (s.fcollectCount pe),
        s.box.status ⟨s.fcollectCount pe, pe, i, j⟩ ≠ .idle ∧
          s.dest ⟨s.fcollectCount pe, i, pe, j⟩ ≠ none

instance (s : State cfg) : DecidablePred s.Enabled
  | .store _ => inferInstanceAs (Decidable (_ ∧ _))
  | .fetch _ => inferInstanceAs (Decidable (_ = _))
  | .deliver _ => inferInstanceAs (Decidable (Status.IsFlying _))
  | .recv _ => inferInstanceAs (Decidable (_ ∧ _))
  | .next _ => inferInstanceAs (Decidable (_ ∧ _))

def effect (s : State cfg) : Action cfg → State cfg
  | .store p =>
    let st := if cfg.direct p.src p.dst then .flying (cfg.content p) else .posted
    { s with box := s.box.setStatus p st }
  | .fetch p => { s with box := s.box.fetch p (cfg.place p.own) }
  | .deliver p => { s with box := s.box.deliver p (cfg.place p) }
  | .recv p => { s with dest := Function.update s.dest p (some (s.box.mem (cfg.place p)).data) }
  | .next pe =>
    { s with fcollectCount := Function.update s.fcollectCount pe (s.fcollectCount pe + 1) }

def step (cfg : Config) (s : State cfg) (a : Action cfg) : Option (State cfg) :=
  if s.Enabled a then some (s.effect a) else none

theorem step_eq_some {s t : State cfg} {a : Action cfg} :
    step cfg s a = some t ↔ s.Enabled a ∧ s.effect a = t := by
  simp [step]

/-- What PEs have accepted are words that were sent for it, every PE has all blocks of the calls
that it has returned from, and words stay until they have been read. -/
structure Correct (s : State cfg) : Prop where
  accepted : ∀ p v, s.dest p = some v → s.box.status p = .arrived ∧ v = cfg.sourceWord p
  complete : ∀ p, p.call < s.fcollectCount p.dst → p.idx < cfg.words p.call →
    s.dest p = some (cfg.sourceWord p)
  unread : ∀ p, s.box.status p = .arrived → s.dest p = none →
    s.box.mem (cfg.place p) = cfg.content p

def Finished (s : State cfg) : Prop := ∀ pe, s.fcollectCount pe = cfg.calls.length + 1

def PutsPacked (s : State cfg) : Action cfg → Prop
  | .store p => cfg.direct p.src p.dst = true ∨ s.box.status p.own = .arrived
  | _ => True

instance (s : State cfg) : DecidablePred s.PutsPacked
  | .store _ => inferInstanceAs (Decidable (_ ∨ _))
  | .fetch _ => isTrue trivial
  | .deliver _ => isTrue trivial
  | .recv _ => isTrue trivial
  | .next _ => isTrue trivial

end State

/-- Between two calls with data for the same half there is another call with data, or the PE is
alone. -/
def Config.Alternating (cfg : Config) : Prop :=
  cfg.size ≤ 1 ∨ ∀ e ≤ cfg.calls.length, ∀ c < e,
    c % 2 = e % 2 ∧ 0 < cfg.words c ∧ 0 < cfg.words e → ∃ d < e, c < d ∧ 0 < cfg.words d

instance (cfg : Config) : Decidable cfg.Alternating := inferInstanceAs (Decidable (_ ∨ _))

end Nvshmem.FcollectLL
