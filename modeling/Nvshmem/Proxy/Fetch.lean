import Nvshmem.Ib.Selection
import Nvshmem.Proxy.Quiet

/-! # Fetching through the proxy

A get by value and a fetching atomic take a slot of the g-buffer, by a counter that tells the slot
and the lap. They wait for the flag of the lap, have the proxy post the operation, wait for its
result, read it and advance the flag by two in all. A get waits for a QP quiet, an atomic for a reply
that sets the flag, or for a QP quiet if the atomics of the transport complete with it. The values
that land in memory are those of the requests with a number.
-/

namespace Nvshmem.Proxy.Fetch

open Transition Function

/-- `NVSHMEMI_WARP_SIZE`. -/
def warpSize : ℕ := 32

/-- The size of `g_elem_t`. -/
def gElemBytes : ℕ := 16

/-- The channel, the transport, and the buffers for `2 ^ logSlots` slots. -/
structure Config where
  channel : Setup
  mype_lt : channel.job.mype < channel.job.npes
  ibNumRcPerDevice : ℕ
  qps_le : (ibNumRcPerDevice + 1) * channel.job.npes ≤ Ibgda.intMax
  logSlots : ℕ
  gBuf : ℕ
  gCoalescingBuf : ℕ
  gBuf_le : gBuf + gElemBytes * 2 ^ logSlots ≤ 2 ^ 64
  gCoalescingBuf_le : gCoalescingBuf + warpSize * 8 * 2 ^ logSlots ≤ 2 ^ 64
  apart : gBuf + gElemBytes * 2 ^ logSlots ≤ gCoalescingBuf ∨
    gCoalescingBuf + warpSize * 8 * 2 ^ logSlots ≤ gBuf
  atomicsCompleteOnQuiet : Bool

namespace Config

variable (cfg : Config)

def ib : Ib.Job := ⟨cfg.channel.job.npes, cfg.ibNumRcPerDevice, (Nat.zero_le _).trans_lt cfg.mype_lt⟩

def gBufSize : ℕ := gElemBytes * 2 ^ cfg.logSlots

def gBufLogSize : ℕ := cfg.logSlots + 4

def idxInBuf (counter : ℕ) : ℕ := counter * gElemBytes &&& (cfg.gBufSize - 1)

def elem (counter : ℕ) : ℕ := cfg.gBuf + cfg.idxInBuf counter

def coalesced (counter : ℕ) : ℕ :=
  cfg.gCoalescingBuf + cfg.idxInBuf counter / gElemBytes * warpSize * 8

def flag (counter : ℕ) : ℕ := ((counter * gElemBytes) >>> cfg.gBufLogSize) * 2

end Config

/-- The values that a call of `nvshmemi_proxy_rma_g` by a thread or a warp, or a fetching atomic,
has. -/
inductive Operation where
  | get (coalesced : Bool) (size : ValueSize)
  | amo (args : AmoArgs) (fetches : Amo.endOfNonfetch.code < args.op.code)
deriving DecidableEq

structure Call where
  thread : ℕ
  operation : Operation
  roffset : BitVec 40
  pe : BitVec 16
  qp : BitVec 32
  request : Option ℕ
  quiet : Option ℕ

namespace Call

variable (cfg : Config) (c : Call)

/-- The request for the operation. A get of a single thread leaves the QP to the default. -/
def deviceRequest (counter : ℕ) : Request :=
  match c.operation with
  | .get true size =>
    .dma .g c.roffset (.ofNat 64 (cfg.coalesced counter)) (.ofNat 48 (warpSize * size.bytes)) c.pe c.qp
  | .get false size =>
    .dma .g c.roffset (.ofNat 64 (cfg.elem counter)) (.ofNat 48 size.bytes) c.pe qpDefault
  | .amo args _ => .amo c.roffset { args with gBufCounter := .ofNat 56 counter } c.pe c.qp

/-- The request of `nvshmemi_proxy_quiet`. -/
def quietRequest : Request :=
  .quietQp c.pe ⟨[c.qp], show channelEntryBytes * 1 + channelEntryBytes < 2 ^ 31 by decide⟩

def awaitsQuiet : Bool :=
  match c.operation with
  | .get .. => true
  | .amo .. => cfg.atomicsCompleteOnQuiet

def cell (counter : ℕ) : ℕ :=
  match c.operation with
  | .get true _ => cfg.coalesced counter
  | .get false _ | .amo .. => cfg.elem counter

def lanes : ℕ :=
  match c.operation with
  | .get true _ => warpSize
  | .get false _ | .amo .. => 1

def release : ℕ :=
  match c.operation with
  | .get .. => 2
  | .amo .. => 1

end Call

/-- How far a call is. A phase with a number has loaded the flag in order to add to it. -/
inductive UserPhase where
  | waiting
  | ready
  | issued
  | quieting
  | quieted
  | bumping (flag : ℕ)
  | reading
  | releasing (flag : ℕ)
  | released
deriving DecidableEq

structure User extends Call where
  phase : UserPhase
  results : List (Option ℕ)

inductive Landing where
  | data (addr : ℕ)
  | fetched (addr retflag : ℕ)
deriving DecidableEq

def Landing.addr : Landing → ℕ
  | .data addr | .fetched addr _ => addr

def landing (cfg : Config) : Posted → Option Landing
  | .rma desc _ laddr _ _ _ => if desc = Op.g.code then some (.data laddr.toNat) else none
  | .amo _ _ _ _ _ (some counter) _ _ =>
    some (.fetched (cfg.gBuf + (counter.toNat * gElemBytes &&& (cfg.gBufSize - 1)))
      (((counter.toNat * gElemBytes) >>> cfg.gBufLogSize) * 2 + 1))
  | _ => none

inductive Status where
  | posted | landed | replied
deriving DecidableEq

structure Post where
  number : ℕ
  uses : List Ib.Use
  landing : Landing
  status : Status

/-- The result is in memory if its endpoints are quiet. A reply comes separately. -/
def Post.Complete (cfg : Config) (p : Post) : Prop :=
  match p.landing with
  | .data _ => p.status ≠ .posted
  | .fetched .. => cfg.atomicsCompleteOnQuiet = true → p.status ≠ .posted

instance (cfg : Config) (p : Post) : Decidable (p.Complete cfg) := by
  unfold Post.Complete
  split <;> infer_instance

structure Wait where
  number : ℕ
  endpoints : List ℕ

/-- The memory holds the number of the request whose value it has. The flags are kept by the address
of their slots. -/
structure State where
  channel : Channel
  ib : Ib.System
  head : ℕ
  flag : ℕ → ℕ
  mem : ℕ → Option ℕ
  users : List User
  posts : List Post
  waits : List Wait

inductive Action where
  | start (thread : ℕ) (operation : Operation) (roffset : BitVec 40) (pe : BitVec 16)
      (qp : BitVec 32)
  | waitSlot (k : ℕ)
  | issue (k : ℕ)
  | quiet (k : ℕ)
  | endQuiet (k : ℕ)
  | loadBump (k : ℕ)
  | storeBump (k : ℕ)
  | waitReply (k : ℕ)
  | read (k : ℕ)
  | loadRelease (k : ℕ)
  | storeRelease (k : ℕ)
  | land (p : ℕ)
  | reply (p : ℕ)
  | connect (numQps : ℕ)
  | handle (chunks : ℕ)
  | quietAll
  | channel (a : Proxy.Action)

def handleOf (qp : BitVec 32) : Ib.Handle :=
  if qp.toNat = Ib.qpHost then .host
  else if qp.toNat = Ibgda.qpDefault then .default
  else if qp.toNat = Ibgda.qpAny then .any
  else .created qp.toNat

def Plain (cfg : Config) (r : Request) : Prop := landing cfg r.decoded = none

instance (cfg : Config) (r : Request) : Decidable (Plain cfg r) :=
  inferInstanceAs (Decidable (_ = _))

namespace State

variable (cfg : Config)

def init (flag : ℕ → ℕ) : State where
  channel := .init
  ib := .start cfg.ib
  head := 0
  flag := flag
  mem _ := none
  users := []
  posts := []
  waits := []

section Device

variable (s : State)

def Busy (thread : ℕ) : Prop := ∃ u ∈ s.users, u.thread = thread ∧ u.phase ≠ .released

instance (thread : ℕ) : Decidable (s.Busy thread) := inferInstanceAs (Decidable (∃ u ∈ s.users, _))

def Returned (request : Option ℕ) : Prop :=
  ∃ i ∈ request, ∃ r ∈ s.channel.reservations[i]?, r.phase = .returned

instance (request : Option ℕ) : Decidable (s.Returned request) :=
  inferInstanceAs (Decidable (∃ i ∈ request, _))

/-- The `atomicAdd` on the counter, which stays below `2 ^ 56`. -/
def start (thread : ℕ) (operation : Operation) (roffset : BitVec 40) (pe : BitVec 16)
    (qp : BitVec 32) : Option State :=
  if ¬ s.Busy thread ∧ s.channel.Idle thread ∧ s.head < 2 ^ 56 then
    some { s with
      head := s.head + 1
      users := s.users ++ [⟨⟨thread, operation, roffset, pe, qp, none, none⟩, .waiting, []⟩] }
  else none

def advance (k : ℕ) (next : User → Option User) : Option State :=
  s.users[k]?.bind fun u => (next u).map fun u' => { s with users := s.users.set k u' }

def waitSlot (k : ℕ) : Option State :=
  s.advance k fun u =>
    if u.phase = .waiting ∧ cfg.flag k ≤ s.flag (cfg.elem k) then some { u with phase := .ready }
    else none

def reserve (k : ℕ) (request : Request) (next : ℕ → User) (thread : ℕ) : Option State :=
  (s.channel.step cfg.channel (.reserve thread request)).map fun channel =>
    { s with channel := channel, users := s.users.set k (next s.channel.reservations.length) }

def issue (k : ℕ) : Option State :=
  s.users[k]?.bind fun u =>
    if u.phase = .ready then
      s.reserve cfg k (u.deviceRequest cfg k) (fun i => { u with phase := .issued, request := some i })
        u.thread
    else none

def quiet (k : ℕ) : Option State :=
  s.users[k]?.bind fun u =>
    if u.phase = .issued ∧ u.awaitsQuiet cfg ∧ s.Returned u.request then
      s.reserve cfg k u.quietRequest (fun j => { u with phase := .quieting, quiet := some j }) u.thread
    else none

def endQuiet (k : ℕ) : Option State :=
  s.advance k fun u =>
    if u.phase = .quieting ∧ s.Returned u.quiet then
      match u.operation with
      | .get .. => some { u with phase := .reading }
      | .amo .. => some { u with phase := .quieted }
    else none

def loadBump (k : ℕ) : Option State :=
  s.advance k fun u =>
    if u.phase = .quieted then some { u with phase := .bumping (s.flag (cfg.elem k)) } else none

def storeFlag (k flag : ℕ) (u : User) : State :=
  { s with
    flag := update s.flag (cfg.elem k) flag
    users := s.users.set k u }

def storeBump (k : ℕ) : Option State :=
  s.users[k]?.bind fun u =>
    match u.phase with
    | .bumping flag => some (s.storeFlag cfg k (flag + 1) { u with phase := .reading })
    | _ => none

def waitReply (k : ℕ) : Option State :=
  s.advance k fun u =>
    if u.phase = .issued ∧ u.awaitsQuiet cfg = false ∧ s.Returned u.request ∧
        cfg.flag k + 1 ≤ s.flag (cfg.elem k) then
      some { u with phase := .reading }
    else none

def read (k : ℕ) : Option State :=
  s.advance k fun u =>
    if u.phase = .reading ∧ u.results.length < u.lanes then
      some { u with results := u.results ++ [s.mem (u.cell cfg k)] }
    else none

def loadRelease (k : ℕ) : Option State :=
  s.advance k fun u =>
    if u.phase = .reading ∧ u.results.length = u.lanes then
      some { u with phase := .releasing (s.flag (cfg.elem k)) }
    else none

def storeRelease (k : ℕ) : Option State :=
  s.users[k]?.bind fun u =>
    match u.phase with
    | .releasing flag => some (s.storeFlag cfg k (flag + u.release) { u with phase := .released })
    | _ => none

end Device

section Transport

variable (s : State)

def land (i : ℕ) : Option State :=
  s.posts[i]?.bind fun p =>
    if p.status = .posted then
      some { s with
        mem := update s.mem p.landing.addr (some p.number)
        posts := s.posts.set i { p with status := .landed } }
    else none

def reply (i : ℕ) : Option State :=
  s.posts[i]?.bind fun p =>
    match p.landing with
    | .fetched addr retflag =>
      if p.status = .landed ∧ cfg.atomicsCompleteOnQuiet = false then
        some { s with
          flag := update s.flag addr retflag
          posts := s.posts.set i { p with status := .replied } }
      else none
    | .data _ => none

def endpoints : Proxy.Call → List ℕ
  | .quiet pe qp => (s.ib.world cfg.channel.job.mype).quiet cfg.ib pe qp.toNat
  | _ => []

def Quiet (calls : List Proxy.Call) : Prop :=
  ∀ p ∈ s.posts, (∃ u ∈ p.uses, u.ep ∈ calls.flatMap (s.endpoints cfg)) → p.Complete cfg

instance (calls : List Proxy.Call) : Decidable (s.Quiet cfg calls) :=
  inferInstanceAs (Decidable (∀ p ∈ s.posts, _))

def wait (calls : List Proxy.Call) (channel : Channel) : Option State :=
  if s.Quiet cfg calls then
    some { s with
      channel := channel
      waits := s.waits ++ [⟨s.channel.consumed.length, calls.flatMap (s.endpoints cfg)⟩] }
  else none

def pieces (chunks : ℕ) : Posted → ℕ
  | .rma .. => chunks + 1
  | _ => 1

def post (posted : Posted) (pe : ℕ) (qp : BitVec 32) (chunks : ℕ) (channel : Channel) :
    Option State :=
  (exec (Ib.System.step cfg.ib) s.ib
    (.replicate (pieces chunks posted) (.post cfg.channel.job.mype (handleOf qp) pe))).map fun ib =>
      { s with
        channel := channel
        ib := ib
        posts := s.posts ++ ((landing cfg posted).map fun l =>
          ⟨s.channel.consumed.length, ib.uses.drop s.ib.uses.length, l, .posted⟩).toList }

def handle (chunks : ℕ) : Option State :=
  (s.channel.step cfg.channel .handle).bind fun channel =>
    match channel.host with
    | .handled _ result =>
      match cfg.channel.job.calls result.posted with
      | [.post pe qp] => s.post cfg result.posted pe qp chunks channel
      | calls => s.wait cfg calls channel
    | _ => none

def quietAll : Option State :=
  (s.channel.step cfg.channel .quietAll).bind (s.wait cfg cfg.channel.job.quietAll)

/-- What else happens on the channel: calls of threads that do not fetch, and steps of the threads
and the proxy. -/
def Others : Proxy.Action → Prop
  | .reserve thread request => ¬ s.Busy thread ∧ Plain cfg request
  | .quiet thread => ¬ s.Busy thread
  | .handle | .quietAll => False
  | _ => True

instance : (a : Proxy.Action) → Decidable (s.Others cfg a)
  | .reserve _ _ => inferInstanceAs (Decidable (_ ∧ _))
  | .quiet _ => inferInstanceAs (Decidable (¬ _))
  | .handle | .quietAll => inferInstanceAs (Decidable False)
  | .checkAvailability _ | .waitAvailability _ | .readComplete _ | .refresh _ | .store _
  | .finish _ | .announceQuiet _ | .finishQuiet _ | .pollBase | .readBase | .pollEntry | .update
  | .checkQuiet | .readQuiet | .testQuiet | .ackQuiet => inferInstanceAs (Decidable True)

end Transport

def step (s : State) : Action → Option State
  | .start thread operation roffset pe qp => s.start thread operation roffset pe qp
  | .waitSlot k => s.waitSlot cfg k
  | .issue k => s.issue cfg k
  | .quiet k => s.quiet cfg k
  | .endQuiet k => s.endQuiet k
  | .loadBump k => s.loadBump cfg k
  | .storeBump k => s.storeBump cfg k
  | .waitReply k => s.waitReply cfg k
  | .read k => s.read cfg k
  | .loadRelease k => s.loadRelease cfg k
  | .storeRelease k => s.storeRelease cfg k
  | .land i => s.land i
  | .reply i => s.reply cfg i
  | .connect numQps => (s.ib.step cfg.ib (.connect numQps)).map fun ib => { s with ib := ib }
  | .handle chunks => s.handle cfg chunks
  | .quietAll => s.quietAll cfg
  | .channel a =>
    if s.Others cfg a then
      (s.channel.step cfg.channel a).map fun channel => { s with channel := channel }
    else none

end State

end Nvshmem.Proxy.Fetch
