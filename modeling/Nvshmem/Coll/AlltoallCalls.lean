import Nvshmem.Coll.Alltoall
import Nvshmem.Phases.Group
import Nvshmem.Team.Psync
import Nvshmem.Transition.Exec

/-! # Alltoalls one after the other

The members of a team make a sequence of calls of `nvshmemi_alltoall_allpush_threadgroup`, each with
a group of threads. Blocks are copied by the threads or sent over the network; a signal-add follows
them and a member waits until it has as many signals from every other one as it has made calls.
The counters have two halves for consecutive calls: a thread finds the half by `alltoall_count`,
which the first thread of the group increments at the end of a call.
-/

namespace Nvshmem.Alltoall

open Phases Tables

def chunks : List ℕ := [16, 8, 4, 2]

/-- `nvshmemi_memcpy_threadgroup`: which of `w` threads copies a byte. As much as possible is copied
in chunks of each size if both addresses are aligned. -/
def copier (w : ℕ) : List ℕ → ℕ → ℕ → ℕ → ℕ → ℕ
  | [], _, _, _, b => b % w
  | k :: ks, dst, src, len, b =>
    if dst % k = 0 ∧ src % k = 0 then
      if b < len / k * k then b / k % w
      else copier w ks (dst + len / k * k) (src + len / k * k) (len - len / k * k) (b - len / k * k)
    else copier w ks dst src len b

structure Config where
  size : ℕ
  peMapping : Fin size → ℕ
  peMapping_injective : Function.Injective peMapping
  group : Fin size → Group
  /-- The heap of the second member is mapped by the first. -/
  direct : Fin size → ℕ → Bool
  /-- The number of calls. -/
  calls : ℕ
  nelems : ℕ → ℕ
  sizeofT : ℕ → ℕ
  /-- The bytes around `source` in a call. -/
  source : ℕ → Fin size → ℤ → BitVec 8
  /-- The addresses in `dest` and `source` of a call between which a member copies the block for
  another one, at a distance. -/
  address : ℕ → Fin size → ℕ → ℕ × ℕ

/-- What a thread does in a call: it reads `alltoall_count` twice, for `psync` and for `pwrk`. -/
inductive Instr where
  | getPsync
  | getPwrk
  | op (op : Op)
deriving DecidableEq

/-- A byte on its way from `source` of a member to `dest` of another one. -/
structure Packet (n : ℕ) where
  call : ℕ
  src : Fin n
  dst : Fin n
  fromAddr : ℤ
  toAddr : ℤ
  /-- What a thread has read from `source`. The network reads only when it delivers the byte. -/
  value : Option (BitVec 8)

structure Signal (n : ℕ) where
  call : ℕ
  src : Fin n
  dst : Fin n
  index : ℕ
deriving DecidableEq

namespace Config

variable (cfg : Config)

def call (pe : Fin cfg.size) (c : ℕ) : Call where
  peSize := cfg.size
  myPe := pe
  nelems := cfg.nelems c
  sizeofT := cfg.sizeofT c
  direct := cfg.direct pe
  group := cfg.group pe
  myPe_lt := pe.isLt

def groupSize (pe : Fin cfg.size) : ℕ := (cfg.group pe).size

/-- `nvshmemi_team_translate_pe_to_team_world_wrap`, up to the mapping. -/
def next (pe : Fin cfg.size) (i : ℕ) : Fin cfg.size := ⟨(pe + i) % cfg.size, Nat.mod_lt _ pe.pos⟩

/-- The phases of the calls. Before the phases of each call a thread reads the counter. -/
def prog (pe : Fin cfg.size) (t p : ℕ) : List Instr :=
  if p / 6 < cfg.calls then
    match p % 6 with
    | 0 => [.getPsync, .getPwrk]
    | k + 1 => ((cfg.call pe (p / 6)).phase t k).map Instr.op
  else []

/-- The index of a counter: `psync` and the number of a PE. -/
def psyncIndex (half : ℕ) (pe : Fin cfg.size) : ℕ :=
  Psync.alltoallSyncSize * half + cfg.peMapping pe

def bytes (pe : Fin cfg.size) (t c : ℕ) (op : Op) : List ℕ :=
  (List.range (cfg.call pe c).msgsize).filter fun b =>
    copier (op.width (cfg.group pe)) chunks (cfg.address c pe op.member).1
      (cfg.address c pe op.member).2 (cfg.call pe c).msgsize b = t % op.width (cfg.group pe)

def packets (pe : Fin cfg.size) (t c : ℕ) (op : Op) (copied : Bool) : List (Packet cfg.size) :=
  (cfg.bytes pe t c op).map fun (b : ℕ) =>
    let fromAddr : ℤ := (cfg.call pe c).srcOffset op.member * cfg.sizeofT c + b
    { call := c
      src := pe
      dst := cfg.next pe op.member
      fromAddr := fromAddr
      toAddr := (cfg.call pe c).dstOffset * cfg.sizeofT c + b
      value := if copied then some (cfg.source c pe fromAddr) else none }

end Config

/-- The phases at whose end the group synchronizes. The last phase of a call is none of them. -/
def sync (p : ℕ) : Prop := 0 < p % 6 ∧ p % 6 < 5

instance : DecidablePred sync := fun _ => inferInstanceAs (Decidable (_ ∧ _))

structure State (n : ℕ) where
  threads : Fin n → ℕ → Thread Instr
  /-- The halves of the counters that the threads use. -/
  psyncHalf : Fin n → ℕ → ℕ
  pwrkHalf : Fin n → ℕ → ℕ
  alltoallCount : Fin n → ℕ
  alltoallPwrk : Fin n → ℕ → ℕ
  psync : Fin n → ℕ → ℕ
  /-- What has been stored around `dest` of a call. -/
  dest : ℕ → Fin n → ℤ → Option (BitVec 8)
  flying : List (Packet n)
  signals : List (Signal n)
  /-- The signals that have been added to a counter. -/
  arrived : List (Signal n)

inductive Action (n : ℕ) where
  | exec (pe : Fin n) (t : ℕ)
  | pass (pe : Fin n) (t : ℕ)
  /-- A byte arrives. It is the other one if `source` has been reused. -/
  | deliver (k : ℕ) (other : BitVec 8)
  | deliverSignal (k : ℕ)

namespace State

variable (cfg : Config)

def start : State cfg.size where
  threads := Phases.start cfg.prog
  psyncHalf := fun _ _ => 0
  pwrkHalf := fun _ _ => 0
  alltoallCount := fun _ => 0
  alltoallPwrk := fun _ _ => 0
  psync := fun _ _ => 0
  dest := fun _ _ _ => none
  flying := []
  signals := []
  arrived := []

variable (s : State cfg.size)

def callOf (pe : Fin cfg.size) (t : ℕ) : ℕ := (s.threads pe t).phase / 6

/-- A thread of the group has returned from the call, so that `source` may be reused. -/
def Returned (pe : Fin cfg.size) (c : ℕ) : Prop :=
  ∃ t < cfg.groupSize pe, 6 * (c + 1) ≤ (s.threads pe t).phase

instance {pe : Fin cfg.size} {c : ℕ} : Decidable (s.Returned cfg pe c) :=
  inferInstanceAs (Decidable (∃ t < _, _))

def read (p : Packet cfg.size) (other : BitVec 8) : BitVec 8 :=
  match p.value with
  | some v => v
  | none => if s.Returned cfg p.src p.call then other else cfg.source p.call p.src p.fromAddr

def signalFor (pe : Fin cfg.size) (t i : ℕ) : Signal cfg.size :=
  ⟨s.callOf cfg pe t, pe, cfg.next pe i, cfg.psyncIndex (s.psyncHalf pe t) pe⟩

/-- What an operation of a thread does. A quiet waits for what the PE has sent over the network. -/
def execute (pe : Fin cfg.size) (t : ℕ) : Instr → Option (State cfg.size)
  | .getPsync =>
    some { s with psyncHalf := set₂ s.psyncHalf pe t (s.alltoallCount pe % 2) }
  | .getPwrk =>
    some { s with pwrkHalf := set₂ s.pwrkHalf pe t (s.alltoallCount pe % 2) }
  | .op (.putSignal i) =>
    some { s with
      flying := s.flying ++ cfg.packets pe t (s.callOf cfg pe t) (.putSignal i) false
      signals := s.signals ++ [s.signalFor cfg pe t i] }
  | .op (.put scope i) =>
    some { s with
      flying := s.flying ++ cfg.packets pe t (s.callOf cfg pe t) (.put scope i) true }
  | .op .addPwrk =>
    some { s with
      alltoallPwrk := set₂ s.alltoallPwrk pe (s.pwrkHalf pe t)
        ((s.alltoallPwrk pe (s.pwrkHalf pe t) + 1) % 2 ^ 64) }
  | .op (.signal i) => some { s with signals := s.signals ++ [s.signalFor cfg pe t i] }
  | .op (.wait i) =>
    if s.alltoallPwrk pe (s.pwrkHalf pe t) ≤
        s.psync pe (cfg.psyncIndex (s.psyncHalf pe t) (cfg.next pe i)) then some s
    else none
  | .op (.quiet _) => if ∀ p ∈ s.flying, p.src = pe → p.value ≠ none then some s else none
  | .op .addCount =>
    some { s with
      alltoallCount := Function.update s.alltoallCount pe ((s.alltoallCount pe + 1) % 2 ^ 64) }

def CanDeliver (g : Signal cfg.size) : Prop :=
  ∀ p ∈ s.flying, ¬ (p.call = g.call ∧ p.src = g.src ∧ p.dst = g.dst)

instance {g : Signal cfg.size} : Decidable (s.CanDeliver cfg g) :=
  inferInstanceAs (Decidable (∀ p ∈ s.flying, _))

def step : Action cfg.size → Option (State cfg.size)
  | .exec pe t =>
    if t < cfg.groupSize pe then
      match (s.threads pe t).todo with
      | [] => none
      | instr :: _ =>
        (s.execute cfg pe t instr).map fun s' => { s' with threads := exec s.threads pe t }
    else none
  | .pass pe t =>
    if t < cfg.groupSize pe ∧ (s.threads pe t).phase < 6 * cfg.calls ∧
        CanPass sync cfg.groupSize s.threads pe t then
      some { s with threads := pass cfg.prog s.threads pe t }
    else none
  | .deliver k other =>
    (s.flying[k]?).map fun p =>
      { s with
        flying := s.flying.eraseIdx k
        dest := set₃ s.dest p.call p.dst p.toAddr (some (s.read cfg p other)) }
  | .deliverSignal k =>
    match s.signals[k]? with
    | some g =>
      if s.CanDeliver cfg g then
        some { s with
          signals := s.signals.eraseIdx k
          psync := set₂ s.psync g.dst g.index ((s.psync g.dst g.index + 1) % 2 ^ 64)
          arrived := s.arrived ++ [g] }
      else none
    | none => none

/-- A thread reads `alltoall_count` only after it has been incremented for every call that the
thread has finished. -/
def readsCount : Action cfg.size → Prop
  | .exec pe t =>
    (s.threads pe t).todo.head? ∈ [some .getPsync, some .getPwrk] →
      s.alltoallCount pe = s.callOf cfg pe t
  | _ => True

instance {a : Action cfg.size} : Decidable (s.readsCount cfg a) :=
  match a with
  | .exec _ _ => inferInstanceAs (Decidable (_ → _))
  | .pass _ _ | .deliver _ _ | .deliverSignal _ => .isTrue trivial

end State

end Nvshmem.Alltoall
