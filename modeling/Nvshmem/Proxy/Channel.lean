import Nvshmem.Proxy.Transport
import Nvshmem.Transition.Exec

/-! # The proxy channel

Device threads reserve space in the ring, wait until it is free, store the entries of
their requests and, for a quiet, wait for the proxy. The proxy polls the entry at
`processed`, waits for the other entries of the request, handles it and tells the
device now and then how far it is. Between requests it advances the state of a quiet.
Every access to a shared location is a step of its own.
-/

namespace Nvshmem.Proxy

open Option Function Option

inductive Phase where
  | reserved
  | waiting
  | available
  | refreshing (complete : ℕ)
  | storing
  | returned
deriving DecidableEq

/-- A request for which space was reserved at `start`, and the number of entries stored. -/
structure Reservation where
  thread : ℕ
  start : ℕ
  request : Request
  phase : Phase
  stored : ℕ
deriving DecidableEq

def Reservation.tail (r : Reservation) : ℕ := r.start + (r.request.bytes - 1)

inductive QuietPhase where
  | announcing
  | waiting
  | returned
deriving DecidableEq

/-- A call of `proxy_quiet`, with the value of `issue` it has read and the number of requests
reserved by then. -/
structure QuietCall where
  thread : ℕ
  quietIssue : ℕ
  before : ℕ
  phase : QuietPhase

/-- How far the proxy is with the request at `processed`. -/
inductive HostPhase where
  | polling
  | found
  | waiting (base : BitVec 64) (kind : Kind) (seen : ℕ)
  | handled (words : List (BitVec 64)) (result : Handled)

/-- The states of `progress_quiet`. -/
inductive QuietStatus where
  | inactive
  | issued
  | inProgress
  | done
  | quieted
deriving DecidableEq

inductive Act where
  | request (number : ℕ) (calls : List Call)
  | quiet (calls : List Call)
deriving DecidableEq

def Act.calls : Act → List Call
  | .request _ calls | .quiet calls => calls

structure Setup where
  logSize : ℕ
  logSize_ge : 3 ≤ logSize
  job : Job

def Setup.bufSize (cfg : Setup) : ℕ := 2 ^ cfg.logSize

/-- The shared counters and the ring, the calls of the device threads, and the state of the proxy.
The fields `written`, `consumed` and `acts` record the history. -/
structure Channel where
  buf : ℕ → BitVec 64
  issue : ℕ
  complete : ℕ
  completeLocal : ℕ
  quietIssue : ℕ
  quietAck : ℕ
  reservations : List Reservation
  quiets : List QuietCall
  processed : ℕ
  lastSync : ℕ
  host : HostPhase
  lastQuietIssue : ℕ
  quietInProgress : QuietStatus
  exited : Bool
  written : ℕ → Option (BitVec 64)
  consumed : List (List (BitVec 64))
  acts : List Act

inductive Action where
  | reserve (thread : ℕ) (request : Request)
  | checkAvailability (i : ℕ)
  | waitAvailability (i : ℕ)
  | readComplete (i : ℕ)
  | refresh (i : ℕ)
  | store (i : ℕ)
  | finish (i : ℕ)
  | quiet (thread : ℕ)
  | announceQuiet (i : ℕ)
  | finishQuiet (i : ℕ)
  | pollBase
  | readBase
  | pollEntry
  | handle
  | update
  | checkQuiet
  | readQuiet
  | testQuiet
  | quietAll
  | ackQuiet

namespace Channel

def init : Channel where
  buf _ := 0
  issue := 0
  complete := 0
  completeLocal := 0
  quietIssue := 0
  quietAck := 0
  reservations := []
  quiets := []
  processed := 0
  lastSync := 0
  host := .polling
  lastQuietIssue := 0
  quietInProgress := .inactive
  exited := false
  written _ := none
  consumed := []
  acts := []

section Device

variable (cfg : Setup) (s : Channel)

def Idle (thread : ℕ) : Prop :=
  (∀ r ∈ s.reservations, r.thread = thread → r.phase = .returned) ∧
    ∀ q ∈ s.quiets, q.thread = thread → q.phase = .returned

instance (thread : ℕ) : Decidable (s.Idle thread) := by
  unfold Idle
  infer_instance

/-- The `atomicAdd` on `issue`. -/
def reserve (thread : ℕ) (request : Request) : Option Channel :=
  if s.Idle thread ∧ request.InJob cfg.job then
    some { s with
      issue := s.issue + request.bytes
      reservations := s.reservations ++ [⟨thread, s.issue, request, .reserved, 0⟩] }
  else none

def advance (i : ℕ) (next : Reservation → Option Reservation) : Option Channel :=
  s.reservations[i]?.bind fun r => (next r).map fun r' =>
    { s with reservations := s.reservations.set i r' }

/-- The first branch of `check_channel_availability`, on the cached `complete`. -/
def checkAvailability (i : ℕ) : Option Channel :=
  s.advance i fun r =>
    if r.phase = .reserved then
      some { r with
        phase := if s.completeLocal + cfg.bufSize - 1 < r.tail then .waiting else .storing }
    else none

/-- The wait of `check_channel_availability` ends. -/
def waitAvailability (i : ℕ) : Option Channel :=
  s.advance i fun r =>
    if r.phase = .waiting ∧ r.tail ≤ s.complete + (cfg.bufSize - 1) then
      some { r with phase := .available }
    else none

/-- The argument of the `atomicMax` in `check_channel_availability`. -/
def readComplete (i : ℕ) : Option Channel :=
  s.advance i fun r =>
    if r.phase = .available then some { r with phase := .refreshing s.complete } else none

/-- The `atomicMax` on the cached `complete`. -/
def refresh (i : ℕ) : Option Channel :=
  s.reservations[i]?.bind fun r =>
    match r.phase with
    | .refreshing complete =>
      some { s with
        completeLocal := max s.completeLocal complete
        reservations := s.reservations.set i { r with phase := .storing } }
    | _ => none

def store (i : ℕ) : Option Channel :=
  s.reservations[i]?.bind fun r =>
    if r.phase = .storing then
      r.request.entries[r.stored]?.map fun payload =>
        let idx := r.start + channelEntryBytes * r.stored
        let word := stamped payload (channelFlag cfg.logSize idx)
        { s with
          buf := update s.buf (slot cfg.logSize idx) word
          written := update s.written (idx / channelEntryBytes) (some word)
          reservations := s.reservations.set i { r with stored := r.stored + 1 } }
    else none

def finish (i : ℕ) : Option Channel :=
  s.advance i fun r =>
    if r.phase = .storing ∧ r.stored = r.request.entries.length ∧
        (r.request.kind = .qpQuiet → r.tail < s.complete) then
      some { r with phase := .returned }
    else none

/-- The read of `issue` in `proxy_quiet`. -/
def quiet (thread : ℕ) : Option Channel :=
  if s.Idle thread then
    some { s with
      quiets := s.quiets ++ [⟨thread, s.issue, s.reservations.length, .announcing⟩] }
  else none

/-- The `atomicMax` on `quiet_issue`. -/
def announceQuiet (i : ℕ) : Option Channel :=
  s.quiets[i]?.bind fun q =>
    if q.phase = .announcing then
      some { s with
        quietIssue := max s.quietIssue q.quietIssue
        quiets := s.quiets.set i { q with phase := .waiting } }
    else none

/-- The wait of `proxy_quiet` ends. -/
def finishQuiet (i : ℕ) : Option Channel :=
  s.quiets[i]?.bind fun q =>
    if q.phase = .waiting ∧ q.quietIssue ≤ s.quietAck then
      some { s with quiets := s.quiets.set i { q with phase := .returned } }
    else none

end Device

section Host

variable (cfg : Setup) (s : Channel)

/-- The entry that the proxy reads for the request at `processed`. -/
def entry (k : ℕ) : BitVec 64 := s.buf (slot cfg.logSize (s.processed + channelEntryBytes * k))

/-- Between requests, and not in the middle of `progress_quiet`, the flag of the entry at
`processed` announces a request. -/
def pollBase : Option Channel :=
  match s.host with
  | .polling =>
    if (s.quietInProgress = .inactive ∨ s.quietInProgress = .inProgress) ∧
        flagByte (s.entry cfg 0) &&& 1 = channelFlag cfg.logSize s.processed then
      some { s with host := .found }
    else none
  | _ => none

/-- The dispatch of `progress_channels`, which exits on an unknown operation. -/
def readBase : Option Channel :=
  match s.host with
  | .found =>
    match dispatch (baseOp (s.entry cfg 0)) with
    | some kind => some { s with host := .waiting (s.entry cfg 0) kind 1 }
    | none => some { s with exited := true }
  | _ => none

def pollEntry : Option Channel :=
  match s.host with
  | .waiting base kind seen =>
    if seen < awaited base kind ∧ flagByte (s.entry cfg seen) =
        channelFlag cfg.logSize (s.processed + channelEntryBytes * seen) then
      some { s with host := .waiting base kind (seen + 1) }
    else none
  | _ => none

def handle : Option Channel :=
  match s.host with
  | .waiting base kind seen =>
    if seen = awaited base kind then
      let result := process (s.entry cfg) kind
      some { s with
        host := .handled ((List.range seen).map (s.entry cfg)) result
        acts := s.acts ++ [.request s.consumed.length (cfg.job.calls result.posted)] }
    else none
  | _ => none

/-- Whether `proxy_update_processed` tells the device how far the proxy is. -/
def synced (result : Handled) : Bool :=
  decide (s.processed + result.bytes - s.lastSync ≥ 1024) || result.forceUpdate

/-- `proxy_update_processed`. -/
def update : Option Channel :=
  match s.host with
  | .handled words result =>
    let processed := s.processed + result.bytes
    some { s with
      processed := processed
      complete := if s.synced result then processed else s.complete
      lastSync := if s.synced result then processed else s.lastSync
      host := .polling
      consumed := s.consumed ++ [words] }
  | _ => none

/-- The first read of `quiet_issue` in `quiet_channels_check`. -/
def checkQuiet : Option Channel :=
  match s.host with
  | .polling =>
    if s.quietInProgress = .inactive ∧ s.lastQuietIssue < s.quietIssue then
      some { s with quietInProgress := .issued }
    else none
  | _ => none

/-- The second read of `quiet_issue` in `quiet_channels_check`. -/
def readQuiet : Option Channel :=
  if s.quietInProgress = .issued then
    some { s with lastQuietIssue := s.quietIssue, quietInProgress := .inProgress }
  else none

/-- `quiet_channels_test` succeeds. -/
def testQuiet : Option Channel :=
  match s.host with
  | .polling =>
    if s.quietInProgress = .inProgress ∧ s.lastQuietIssue ≤ s.processed then
      some { s with quietInProgress := .done }
    else none
  | _ => none

/-- The calls of `progress_quiet`. -/
def quietAll : Option Channel :=
  if s.quietInProgress = .done then
    some { s with quietInProgress := .quieted, acts := s.acts ++ [.quiet cfg.job.quietAll] }
  else none

/-- `quiet_ack_channels`. -/
def ackQuiet : Option Channel :=
  if s.quietInProgress = .quieted then
    some { s with quietAck := s.lastQuietIssue, quietInProgress := .inactive }
  else none

end Host

section Inversion

variable {cfg : Setup} {s t : Channel}

theorem pollBase_eq_some : s.pollBase cfg = some t ↔ s.host = .polling ∧
    (s.quietInProgress = .inactive ∨ s.quietInProgress = .inProgress) ∧
    flagByte (s.entry cfg 0) &&& 1 = channelFlag cfg.logSize s.processed ∧
    { s with host := .found } = t := by
  rw [pollBase]
  cases s.host <;> simp [and_assoc]

theorem readBase_eq_some : s.readBase cfg = some t ↔ s.host = .found ∧
    ((∃ kind, dispatch (baseOp (s.entry cfg 0)) = some kind ∧
      { s with host := .waiting (s.entry cfg 0) kind 1 } = t) ∨
    (dispatch (baseOp (s.entry cfg 0)) = none ∧ { s with exited := true } = t)) := by
  rw [readBase]
  cases s.host <;> cases dispatch (baseOp (s.entry cfg 0)) <;> simp

theorem pollEntry_eq_some : s.pollEntry cfg = some t ↔ ∃ base kind seen,
    s.host = .waiting base kind seen ∧ seen < awaited base kind ∧
    flagByte (s.entry cfg seen) =
      channelFlag cfg.logSize (s.processed + channelEntryBytes * seen) ∧
    { s with host := .waiting base kind (seen + 1) } = t := by
  rw [pollEntry]
  cases s.host <;> simp [and_assoc]

theorem handle_eq_some : s.handle cfg = some t ↔ ∃ base kind,
    s.host = .waiting base kind (awaited base kind) ∧
    { s with
      host := .handled ((List.range (awaited base kind)).map (s.entry cfg))
        (process (s.entry cfg) kind)
      acts := s.acts ++
        [.request s.consumed.length (cfg.job.calls (process (s.entry cfg) kind).posted)] } = t := by
  rw [handle]
  cases s.host with
  | waiting base kind seen =>
    simp only [ite_none_right_eq_some, some.injEq, HostPhase.waiting.injEq]
    constructor
    · rintro ⟨rfl, rfl⟩
      exact ⟨base, kind, ⟨rfl, rfl, rfl⟩, rfl⟩
    · rintro ⟨base, kind, ⟨rfl, rfl, rfl⟩, rfl⟩
      exact ⟨rfl, rfl⟩
  | _ => simp

theorem update_eq_some : s.update = some t ↔ ∃ words result, s.host = .handled words result ∧
    { s with
      processed := s.processed + result.bytes
      complete := if s.synced result then s.processed + result.bytes else s.complete
      lastSync := if s.synced result then s.processed + result.bytes else s.lastSync
      host := .polling
      consumed := s.consumed ++ [words] } = t := by
  rw [update]
  cases s.host <;> simp

theorem checkQuiet_eq_some : s.checkQuiet = some t ↔ s.host = .polling ∧
    s.quietInProgress = .inactive ∧ s.lastQuietIssue < s.quietIssue ∧
    { s with quietInProgress := .issued } = t := by
  rw [checkQuiet]
  cases s.host <;> simp [and_assoc]

theorem testQuiet_eq_some : s.testQuiet = some t ↔ s.host = .polling ∧
    s.quietInProgress = .inProgress ∧ s.lastQuietIssue ≤ s.processed ∧
    { s with quietInProgress := .done } = t := by
  rw [testQuiet]
  cases s.host <;> simp [and_assoc]

theorem readQuiet_eq_some : s.readQuiet = some t ↔ s.quietInProgress = .issued ∧
    { s with lastQuietIssue := s.quietIssue, quietInProgress := .inProgress } = t := by
  rw [readQuiet, ite_none_right_eq_some, some.injEq]

theorem quietAll_eq_some : s.quietAll cfg = some t ↔ s.quietInProgress = .done ∧
    { s with
      quietInProgress := .quieted
      acts := s.acts ++ [.quiet cfg.job.quietAll] } = t := by
  rw [quietAll, ite_none_right_eq_some, some.injEq]

theorem ackQuiet_eq_some : s.ackQuiet = some t ↔ s.quietInProgress = .quieted ∧
    { s with quietAck := s.lastQuietIssue, quietInProgress := .inactive } = t := by
  rw [ackQuiet, ite_none_right_eq_some, some.injEq]

theorem quiet_eq_some {thread : ℕ} : s.quiet thread = some t ↔ s.Idle thread ∧
    { s with
      quiets := s.quiets ++ [⟨thread, s.issue, s.reservations.length, .announcing⟩] } = t := by
  rw [quiet, ite_none_right_eq_some, some.injEq]

theorem announceQuiet_eq_some {i : ℕ} : s.announceQuiet i = some t ↔ ∃ q, s.quiets[i]? = some q ∧
    q.phase = .announcing ∧
    { s with
      quietIssue := max s.quietIssue q.quietIssue
      quiets := s.quiets.set i { q with phase := .waiting } } = t := by
  simp only [announceQuiet, bind_eq_some_iff, ite_none_right_eq_some,
    some.injEq]

theorem finishQuiet_eq_some {i : ℕ} : s.finishQuiet i = some t ↔ ∃ q, s.quiets[i]? = some q ∧
    (q.phase = .waiting ∧ q.quietIssue ≤ s.quietAck) ∧
    { s with quiets := s.quiets.set i { q with phase := .returned } } = t := by
  simp only [finishQuiet, bind_eq_some_iff, ite_none_right_eq_some,
    some.injEq]

theorem reserve_eq_some {thread : ℕ} {request : Request} :
    s.reserve cfg thread request = some t ↔ (s.Idle thread ∧ request.InJob cfg.job) ∧
    { s with
      issue := s.issue + request.bytes
      reservations := s.reservations ++ [⟨thread, s.issue, request, .reserved, 0⟩] } = t := by
  rw [reserve, ite_none_right_eq_some, some.injEq]

theorem of_running {next : Option Channel} (h : (if s.exited then none else next) = some t) :
    next = some t :=
  (ite_none_left_eq_some.mp h).2

theorem refresh_eq_some {i : ℕ} : s.refresh i = some t ↔ ∃ r c, s.reservations[i]? = some r ∧
    r.phase = .refreshing c ∧
    { s with
      completeLocal := max s.completeLocal c
      reservations := s.reservations.set i { r with phase := .storing } } = t := by
  rw [refresh, bind_eq_some_iff]
  constructor
  · rintro ⟨r, hr, hs⟩
    cases hphase : r.phase with
    | refreshing c =>
      rw [hphase] at hs
      exact ⟨r, c, hr, hphase, some.inj hs⟩
    | _ =>
      rw [hphase] at hs
      exact nomatch hs
  · rintro ⟨r, c, hr, hphase, rfl⟩
    refine ⟨r, hr, ?_⟩
    rw [hphase]

theorem store_eq_some {i : ℕ} : s.store cfg i = some t ↔ ∃ r payload,
    s.reservations[i]? = some r ∧ r.phase = .storing ∧
    r.request.entries[r.stored]? = some payload ∧
    { s with
      buf := Function.update s.buf (slot cfg.logSize (r.start + channelEntryBytes * r.stored))
        (stamped payload (channelFlag cfg.logSize (r.start + channelEntryBytes * r.stored)))
      written := Function.update s.written
        ((r.start + channelEntryBytes * r.stored) / channelEntryBytes)
        (some (stamped payload
          (channelFlag cfg.logSize (r.start + channelEntryBytes * r.stored))))
      reservations := s.reservations.set i { r with stored := r.stored + 1 } } = t := by
  simp only [store, bind_eq_some_iff, ite_none_right_eq_some,
    map_eq_some_iff]
  constructor
  · rintro ⟨r, hr, hphase, payload, hpayload, rfl⟩
    exact ⟨r, payload, hr, hphase, hpayload, rfl⟩
  · rintro ⟨r, payload, hr, hphase, hpayload, rfl⟩
    exact ⟨r, hr, hphase, payload, hpayload, rfl⟩

theorem advance_eq_some {i : ℕ} {next : Reservation → Option Reservation} :
    s.advance i next = some t ↔ ∃ r r', s.reservations[i]? = some r ∧ next r = some r' ∧
      { s with reservations := s.reservations.set i r' } = t := by
  simp only [advance, bind_eq_some_iff, map_eq_some_iff]
  constructor
  · rintro ⟨r, hr, r', hr', ht⟩
    exact ⟨r, r', hr, hr', ht⟩
  · rintro ⟨r, r', hr, hr', ht⟩
    exact ⟨r, hr, r', hr', ht⟩

end Inversion

def step (cfg : Setup) (s : Channel) : Action → Option Channel
  | .reserve thread request => s.reserve cfg thread request
  | .checkAvailability i => s.checkAvailability cfg i
  | .waitAvailability i => s.waitAvailability cfg i
  | .readComplete i => s.readComplete i
  | .refresh i => s.refresh i
  | .store i => s.store cfg i
  | .finish i => s.finish i
  | .quiet thread => s.quiet thread
  | .announceQuiet i => s.announceQuiet i
  | .finishQuiet i => s.finishQuiet i
  | .pollBase => if s.exited then none else s.pollBase cfg
  | .readBase => if s.exited then none else s.readBase cfg
  | .pollEntry => if s.exited then none else s.pollEntry cfg
  | .handle => if s.exited then none else s.handle cfg
  | .update => if s.exited then none else s.update
  | .checkQuiet => if s.exited then none else s.checkQuiet
  | .readQuiet => if s.exited then none else s.readQuiet
  | .testQuiet => if s.exited then none else s.testQuiet
  | .quietAll => if s.exited then none else s.quietAll cfg
  | .ackQuiet => if s.exited then none else s.ackQuiet

variable {cfg : Setup} {s t : Channel}

/-- The actions of a quiet. -/
def IsQuiet : Action → Prop
  | .quiet _ | .announceQuiet _ | .finishQuiet _ | .checkQuiet | .readQuiet | .testQuiet
  | .quietAll | .ackQuiet => True
  | _ => False

theorem exists_quiet {a : Action} (hs : s.step cfg a = some t) (ha : IsQuiet a) :
    ∃ quietIssue quietAck quiets lastQuietIssue quietInProgress acts,
      { s with quietIssue, quietAck, quiets, lastQuietIssue, quietInProgress, acts } = t := by
  cases a with
  | quiet thread =>
    obtain ⟨-, rfl⟩ := quiet_eq_some.mp hs
    exact ⟨_, _, _, _, _, _, rfl⟩
  | announceQuiet i =>
    obtain ⟨q, -, -, rfl⟩ := announceQuiet_eq_some.mp hs
    exact ⟨_, _, _, _, _, _, rfl⟩
  | finishQuiet i =>
    obtain ⟨q, -, -, rfl⟩ := finishQuiet_eq_some.mp hs
    exact ⟨_, _, _, _, _, _, rfl⟩
  | checkQuiet =>
    obtain ⟨-, -, -, rfl⟩ := checkQuiet_eq_some.mp (of_running hs)
    exact ⟨_, _, _, _, _, _, rfl⟩
  | readQuiet =>
    obtain ⟨-, rfl⟩ := readQuiet_eq_some.mp (of_running hs)
    exact ⟨_, _, _, _, _, _, rfl⟩
  | testQuiet =>
    obtain ⟨-, -, -, rfl⟩ := testQuiet_eq_some.mp (of_running hs)
    exact ⟨_, _, _, _, _, _, rfl⟩
  | quietAll =>
    obtain ⟨-, rfl⟩ := quietAll_eq_some.mp (of_running hs)
    exact ⟨_, _, _, _, _, _, rfl⟩
  | ackQuiet =>
    obtain ⟨-, rfl⟩ := ackQuiet_eq_some.mp (of_running hs)
    exact ⟨_, _, _, _, _, _, rfl⟩
  | _ => exact ha.elim

/-- How a step changes the reservations and the requests consumed: not at all, by a reservation, by
letting one thread go on, which returns from a QP quiet only when the proxy is past it, or by the
proxy consuming what it has handled. -/
inductive Change (cfg : Setup) (s : Channel) :
    Action → List Reservation → List (List (BitVec 64)) → Prop where
  | refl {a : Action} : Change cfg s a s.reservations s.consumed
  | reserve {thread : ℕ} {request : Request} (hjob : request.InJob cfg.job) :
      Change cfg s (.reserve thread request)
        (s.reservations ++ [⟨thread, s.issue, request, .reserved, 0⟩]) s.consumed
  | set {a : Action} {i : ℕ} {r r' : Reservation} (hi : s.reservations[i]? = some r)
      (hreq : r'.request = r.request)
      (hret : r'.phase = .returned → r.request.kind = .qpQuiet → r.tail < s.complete) :
      Change cfg s a (s.reservations.set i r') s.consumed
  | consume {words : List (BitVec 64)} {result : Handled}
      (hhost : s.host = .handled words result) :
      Change cfg s .update s.reservations (s.consumed ++ [words])

theorem change_of_step {a : Action} (hs : s.step cfg a = some t) :
    Change cfg s a t.reservations t.consumed := by
  cases a with
  | reserve thread request =>
    obtain ⟨⟨-, hjob⟩, rfl⟩ := reserve_eq_some.mp hs
    exact .reserve hjob
  | checkAvailability i =>
    obtain ⟨r, r', hr, hr', rfl⟩ := advance_eq_some.mp hs
    split_ifs at hr' <;> cases hr' <;> exact .set hr rfl nofun
  | waitAvailability i | readComplete i =>
    obtain ⟨r, r', hr, hr', rfl⟩ := advance_eq_some.mp hs
    split_ifs at hr'
    cases hr'
    exact .set hr rfl nofun
  | finish i =>
    obtain ⟨r, r', hr, hr', rfl⟩ := advance_eq_some.mp hs
    split_ifs at hr' with hfinish
    cases hr'
    exact .set hr rfl fun _ => hfinish.2.2
  | refresh i =>
    obtain ⟨r, c, hr, -, rfl⟩ := refresh_eq_some.mp hs
    exact .set hr rfl nofun
  | store i =>
    obtain ⟨r, payload, hr, hphase, -, rfl⟩ := store_eq_some.mp hs
    exact .set hr rfl fun hret => nomatch hphase.symm.trans hret
  | pollBase =>
    obtain ⟨-, -, -, rfl⟩ := pollBase_eq_some.mp (of_running hs)
    exact .refl
  | readBase =>
    obtain ⟨-, ⟨kind, -, rfl⟩ | ⟨-, rfl⟩⟩ := readBase_eq_some.mp (of_running hs)
    · exact .refl
    · exact .refl
  | pollEntry =>
    obtain ⟨base, kind, seen, -, -, -, rfl⟩ := pollEntry_eq_some.mp (of_running hs)
    exact .refl
  | handle =>
    obtain ⟨base, kind, -, rfl⟩ := handle_eq_some.mp (of_running hs)
    exact .refl
  | update =>
    obtain ⟨words, result, hhost, rfl⟩ := update_eq_some.mp (of_running hs)
    exact .consume hhost
  | quiet _ | announceQuiet _ | finishQuiet _ | checkQuiet | readQuiet | testQuiet | quietAll
  | ackQuiet =>
    obtain ⟨_, _, _, _, _, _, rfl⟩ := exists_quiet hs trivial
    exact .refl

end Channel

end Nvshmem.Proxy
