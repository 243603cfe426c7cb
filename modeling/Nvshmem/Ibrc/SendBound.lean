import Nvshmem.Ibrc.Fence

/-! # The requests outstanding on an endpoint

The thread of a PE that posts a request first waits until the endpoint has space, and then makes
progress on what it receives. There it may acknowledge atomics of other PEs, which posts on an
endpoint too, before it comes back to the request. Where it goes next depends on what it polls.
-/

namespace Nvshmem.Ibrc.SendBound

open Transition Option Function Option Function Nat

/-- What is posted: `nvshmemt_ibrc_rma`, which may wait for its own completion, or
`nvshmemt_ibrc_amo`, by a message or by the network card. -/
inductive Request where
  | rma (waits : Bool)
  | amo (isMessage : Bool)
deriving DecidableEq

/-- A call of `nvshmemt_ib_common_check_poll_avail`: for space for a request, or for everything on
an endpoint. -/
inductive Check where
  | waitAny (ep : ℕ) (request : Request)
  | waitAll (ep : ℕ)
deriving DecidableEq

def Check.ep : Check → ℕ
  | .waitAny ep _ => ep
  | .waitAll ep => ep

/-- The caller of `progress_recv`: `nvshmemt_ibrc_progress`, which may itself be called by the loop
of a check, or a check after its loop. -/
inductive Caller where
  | progress (check : Option Check)
  | check (check : Check)
deriving DecidableEq

def Caller.checked : Caller → Option ℕ
  | .check (.waitAny ep _) => some ep
  | _ => none

/-- Where the thread is. Inside `progress_recv` it has the atomics that may stay outstanding. -/
inductive Control where
  | idle
  | check (check : Check)
  | pollRecv (caller : Caller) (outstandingAtomics : ℕ)
  | processRecv (caller : Caller) (outstandingAtomics : ℕ)
  | perform (caller : Caller) (outstandingAtomics : ℕ) (ep : ℕ)
  | loop (caller : Caller) (outstandingAtomics : ℕ)
  | post (ep : ℕ) (request : Request)
deriving DecidableEq

def Control.checked : Control → Option ℕ
  | .pollRecv caller _ | .processRecv caller _ | .perform caller _ _ | .loop caller _ =>
    caller.checked
  | .post ep _ => some ep
  | .idle | .check _ => none

structure State where
  headOpId : ℕ → ℕ
  tailOpId : ℕ → ℕ
  atomicsIssued : ℕ
  atomicsAcked : ℕ
  /-- The endpoints on which the messages have arrived. -/
  bqueueToprocess : List ℕ
  control : Control

inductive Received where
  | ack
  | message (ep : ℕ)
deriving DecidableEq

inductive Action where
  /-- A request, a quiet or progress is called for. -/
  | call (check : Check)
  | progress (completed : List ℕ)
  /-- The thread goes on. Where it polls, these are the endpoints of the completed requests and what
  has been received. -/
  | run (completed : List ℕ) (received : List Received)

namespace State

def start : State := ⟨fun _ => 0, fun _ => 0, 0, 0, [], .idle⟩

variable (cfg : Config) (s : State)

def outstanding (ep : ℕ) : ℕ := s.headOpId ep - s.tailOpId ep

/-- The place of a request in `ep->req`. -/
def slot (opId : ℕ) : ℕ := opId &&& (cfg.qpDepth - 1)

def goto (control : Control) : State := { s with control := control }

/-- `ibv_post_send`, and the counters. -/
def postSend (ep : ℕ) : State :=
  { s with headOpId := update s.headOpId ep (s.headOpId ep + 1) }

def complete (ep : ℕ) : Option State :=
  if s.tailOpId ep < s.headOpId ep then
    some { s with tailOpId := update s.tailOpId ep (s.tailOpId ep + 1) }
  else none

/-- `progress_send` -/
def progressSend (completed : List ℕ) : Option State := completed.foldlM complete s

def receive : Received → Option State
  | .ack =>
    if s.atomicsAcked < s.atomicsIssued then some { s with atomicsAcked := s.atomicsAcked + 1 }
    else none
  | .message ep => some { s with bqueueToprocess := s.bqueueToprocess ++ [ep] }

/-- `poll_recv` -/
def pollRecv (received : List Received) : Option State := received.foldlM receive s

/-- Back to the caller of `progress_recv`. -/
def backTo : Caller → State
  | .progress none => s.goto .idle
  | .progress (some check) => s.goto (.check check)
  | .check (.waitAny ep request) => s.goto (.post ep request)
  | .check (.waitAll _) => s.goto .idle

def outstandingAtomics : Caller → ℕ
  | .progress _ => (s.atomicsIssued - s.atomicsAcked) % 2 ^ 32
  | .check (.waitAny _ _) => cfg.srqDepth / (cfg.connectedQpCount + 1)
  | .check (.waitAll _) => 0

/-- The call of `progress_recv`, if the transport has one. -/
def progressRecv (caller : Caller) : State :=
  if cfg.useGdrcopy then s.goto (.pollRecv caller (s.outstandingAtomics cfg caller))
  else s.backTo caller

def outstandingCount : Check → ℕ
  | .waitAny _ _ => cfg.qpDepth - 1
  | .waitAll _ => 0

def step : Action → Option State
  | .call check => if s.control = .idle then some (s.goto (.check check)) else none
  | .progress completed =>
    if s.control = .idle then
      (s.progressSend completed).map fun t => t.progressRecv cfg (.progress none)
    else none
  | .run completed received =>
    match s.control with
    | .idle => none
    | .check check =>
      if outstandingCount cfg check < s.outstanding check.ep then
        (s.progressSend completed).map fun t => t.progressRecv cfg (.progress (some check))
      else some (s.progressRecv cfg (.check check))
    | .pollRecv caller o => (s.pollRecv received).map fun t => t.goto (.processRecv caller o)
    | .processRecv caller o =>
      match s.bqueueToprocess with
      | [] => some (s.goto (.loop caller o))
      | ep :: _ => some (s.goto (.perform caller o ep))
    | .perform caller o ep =>
      -- already in processing a message, so it only polls for others
      if cfg.qpDepth - 1 < s.outstanding ep then
        (s.progressSend completed).bind fun t => t.pollRecv received
      else
        some ({ s.postSend ep with
          bqueueToprocess := s.bqueueToprocess.tail }.goto (.loop caller o))
    | .loop caller o =>
      if o < s.atomicsIssued - s.atomicsAcked then some (s.goto (.pollRecv caller o))
      else some (s.backTo caller)
    | .post ep (.rma waits) =>
      some ((s.postSend ep).goto (if waits then .check (.waitAll ep) else .idle))
    | .post ep (.amo isMessage) =>
      some ({ s.postSend ep with
        atomicsIssued := s.atomicsIssued + if isMessage then 1 else 0 }.goto .idle)

def posting : Option ℕ :=
  match s.control with
  | .perform _ _ ep => if cfg.qpDepth - 1 < s.outstanding ep then none else some ep
  | .post ep _ => some ep
  | _ => none

/-- The queue holds at most `qp_depth` requests, nothing is posted while it is full, and no two of
its requests have the same place. -/
structure Safe : Prop where
  bound : ∀ ep, s.outstanding ep ≤ cfg.qpDepth
  posting : ∀ ep ∈ s.posting cfg, s.outstanding ep < cfg.qpDepth
  slots : ∀ ep i j, s.tailOpId ep ≤ i → i < j → j < s.headOpId ep → slot cfg i ≠ slot cfg j

/-- An acknowledgement does not take the last space of the endpoint on which a request is posted
next, after the check for it. -/
def keepsSpace : Bool :=
  match s.control with
  | .perform caller _ ep => caller.checked ≠ some ep || s.outstanding ep + 1 < cfg.qpDepth
  | _ => true

end State

section Invariant

variable {cfg : Config} {s t : State} {a : Action} {ep : ℕ} {control : Control} {caller : Caller}

structure Polled (s t : State) : Prop where
  head_eq : t.headOpId = s.headOpId
  control_eq : t.control = s.control
  tail_le : ∀ ep, s.tailOpId ep ≤ t.tailOpId ep
  le_head : (∀ ep, s.tailOpId ep ≤ s.headOpId ep) → ∀ ep, t.tailOpId ep ≤ t.headOpId ep

namespace Polled

theorem refl (s : State) : Polled s s := ⟨rfl, rfl, fun _ => le_rfl, fun h => h⟩

theorem trans {u : State} (h : Polled s t) (h' : Polled t u) : Polled s u where
  head_eq := h'.head_eq.trans h.head_eq
  control_eq := h'.control_eq.trans h.control_eq
  tail_le ep := (h.tail_le ep).trans (h'.tail_le ep)
  le_head hle := h'.le_head (h.le_head hle)

theorem of_foldlM {β : Type*} {f : State → β → Option State}
    (hf : ∀ {s b t}, f s b = some t → Polled s t) {bs : List β} (h : bs.foldlM f s = some t) :
    Polled s t := by
  induction bs generalizing s with
  | nil => exact some.inj h ▸ refl s
  | cons b bs ih =>
    obtain ⟨u, hu, h⟩ := bind_eq_some_iff.mp h
    exact (hf hu).trans (ih h)

theorem of_complete (h : s.complete ep = some t) : Polled s t := by
  rw [State.complete] at h
  split at h
  · next hlt =>
    cases h
    refine ⟨rfl, rfl, fun ep' => ?_, fun hle ep' => ?_⟩ <;> simp only [update_apply]
    · split_ifs with hep
      · exact hep ▸ le_succ _
      · exact le_rfl
    · split_ifs with hep
      · exact hep ▸ hlt
      · exact hle ep'
  · exact nomatch h

theorem of_receive {r : Received} (h : s.receive r = some t) : Polled s t := by
  cases r with
  | ack =>
    rw [State.receive] at h
    split at h
    · cases h
      exact ⟨rfl, rfl, fun _ => le_rfl, fun hle => hle⟩
    · exact nomatch h
  | message ep =>
    cases h
    exact ⟨rfl, rfl, fun _ => le_rfl, fun hle => hle⟩

theorem of_progressSend {completed : List ℕ} (h : s.progressSend completed = some t) :
    Polled s t :=
  of_foldlM of_complete h

theorem of_pollRecv {received : List Received} (h : s.pollRecv received = some t) : Polled s t :=
  of_foldlM of_receive h

end Polled

structure Inv (cfg : Config) (s : State) : Prop where
  tail_le : ∀ ep, s.tailOpId ep ≤ s.headOpId ep
  head_le : ∀ ep, s.headOpId ep ≤ s.tailOpId ep + cfg.qpDepth
  space : ∀ ep ∈ s.control.checked, s.headOpId ep < s.tailOpId ep + cfg.qpDepth

namespace Inv

theorem start : Inv cfg State.start :=
  ⟨fun _ => le_rfl, fun _ => Nat.zero_le _, nofun⟩

theorem polled (h : Inv cfg s) (hp : Polled s t) : Inv cfg t where
  tail_le := hp.le_head h.tail_le
  head_le ep := by
    rw [hp.head_eq]
    exact (h.head_le ep).trans (Nat.add_le_add_right (hp.tail_le ep) _)
  space ep hep := by
    rw [hp.control_eq] at hep
    rw [hp.head_eq]
    exact (h.space ep hep).trans_le (Nat.add_le_add_right (hp.tail_le ep) _)

theorem goto (h : Inv cfg s)
    (hspace : ∀ ep ∈ control.checked, s.headOpId ep < s.tailOpId ep + cfg.qpDepth) :
    Inv cfg (s.goto control) :=
  ⟨h.tail_le, h.head_le, hspace⟩

theorem goto_of_checked (h : Inv cfg s) (hc : control.checked = s.control.checked) :
    Inv cfg (s.goto control) :=
  h.goto fun ep hep => h.space ep (hc ▸ hep)

theorem backTo (h : Inv cfg s)
    (hspace : ∀ ep ∈ caller.checked, s.headOpId ep < s.tailOpId ep + cfg.qpDepth) :
    Inv cfg (s.backTo caller) := by
  match caller with
  | .progress none | .progress (some _) | .check (.waitAll _) => exact h.goto nofun
  | .check (.waitAny ep request) => exact h.goto hspace

theorem progressRecv (h : Inv cfg s)
    (hspace : ∀ ep ∈ caller.checked, s.headOpId ep < s.tailOpId ep + cfg.qpDepth) :
    Inv cfg (s.progressRecv cfg caller) := by
  rw [State.progressRecv]
  split
  · exact h.goto hspace
  · exact h.backTo hspace

theorem postSend (h : Inv cfg s) (hlt : s.headOpId ep < s.tailOpId ep + cfg.qpDepth) {issued : ℕ}
    {queue : List ℕ}
    (hspace : ∀ ep' ∈ control.checked, s.headOpId ep' < s.tailOpId ep' + cfg.qpDepth ∧ (ep' = ep →
      s.headOpId ep + 1 < s.tailOpId ep + cfg.qpDepth)) :
    Inv cfg ⟨update s.headOpId ep (s.headOpId ep + 1), s.tailOpId, issued, s.atomicsAcked,
      queue, control⟩ := by
  constructor <;> intro ep' <;> simp only [update_apply]
  · split_ifs with hep
    · exact hep ▸ (h.tail_le ep').trans (hep ▸ le_succ _)
    · exact h.tail_le ep'
  · split_ifs with hep
    · exact hep ▸ hlt
    · exact h.head_le ep'
  · intro hep'
    split_ifs with hep
    · exact hep ▸ (hspace ep' hep').2 hep
    · exact (hspace ep' hep').1

theorem head_lt (hdepth : 0 < cfg.qpDepth) (h : ¬ cfg.qpDepth - 1 < s.outstanding ep) :
    s.headOpId ep < s.tailOpId ep + cfg.qpDepth := by
  rw [State.outstanding] at h
  omega

theorem outstanding_of_keepsSpace {o : ℕ} (hcontrol : s.control = .perform caller o ep)
    (hcaller : caller.checked = some ep) (h : s.keepsSpace cfg = true) :
    s.outstanding ep + 1 < cfg.qpDepth := by
  simpa [State.keepsSpace, hcontrol, hcaller] using h

theorem run (hdepth : 0 < cfg.qpDepth) (h : Inv cfg s) (hkeeps : s.keepsSpace cfg = true)
    {completed : List ℕ} {received : List Received}
    (ht : s.step cfg (.run completed received) = some t) : Inv cfg t := by
  rw [State.step] at ht
  split at ht
  · exact nomatch ht
  · next check hcontrol =>
    split at ht
    · obtain ⟨u, hu, rfl⟩ := map_eq_some_iff.mp ht
      exact (h.polled (.of_progressSend hu)).progressRecv nofun
    · next hle =>
      cases ht
      refine h.progressRecv fun ep hep => ?_
      match check with
      | .waitAny ep' request => exact some.inj hep ▸ head_lt hdepth hle
      | .waitAll ep' => exact nomatch hep
  · next caller o hcontrol =>
    obtain ⟨u, hu, rfl⟩ := map_eq_some_iff.mp ht
    have hp := Polled.of_pollRecv hu
    refine (h.polled hp).goto_of_checked ?_
    rw [hp.control_eq, hcontrol]
    rfl
  · next caller o hcontrol =>
    split at ht <;> cases ht <;>
      exact h.goto_of_checked (by rw [hcontrol]; rfl)
  · next caller o ep hcontrol =>
    split at ht
    · obtain ⟨u, hu, ht⟩ := bind_eq_some_iff.mp ht
      exact (h.polled (.of_progressSend hu)).polled (.of_pollRecv ht)
    · next hle =>
      cases ht
      refine h.postSend (head_lt hdepth hle) fun ep' hep' => ?_
      have hspace : ∀ x ∈ caller.checked, s.headOpId x < s.tailOpId x + cfg.qpDepth :=
        fun x hx => h.space x (hcontrol ▸ hx)
      refine ⟨hspace ep' hep', ?_⟩
      rintro rfl
      -- the acknowledgement is on the endpoint that has been checked, so it leaves a space
      have hroom := outstanding_of_keepsSpace hcontrol hep' hkeeps
      rw [State.outstanding] at hroom
      omega
  · next caller o hcontrol =>
    split at ht
    · cases ht
      exact h.goto_of_checked (by rw [hcontrol]; rfl)
    · cases ht
      exact h.backTo fun ep hep => h.space ep (hcontrol ▸ hep)
  · next ep waits hcontrol =>
    cases ht
    refine h.postSend (h.space ep (hcontrol ▸ rfl)) fun ep' hep' => ?_
    split at hep' <;> exact nomatch hep'
  · next ep isMessage hcontrol =>
    cases ht
    exact h.postSend (h.space ep (hcontrol ▸ rfl)) nofun

theorem step (hdepth : 0 < cfg.qpDepth) (h : Inv cfg s) (hkeeps : s.keepsSpace cfg = true)
    (ht : s.step cfg a = some t) : Inv cfg t := by
  cases a with
  | call check =>
    rw [State.step] at ht
    split at ht
    · cases ht
      exact h.goto nofun
    · exact nomatch ht
  | progress completed =>
    rw [State.step] at ht
    split at ht
    · obtain ⟨u, hu, rfl⟩ := map_eq_some_iff.mp ht
      exact (h.polled (.of_progressSend hu)).progressRecv nofun
    · exact nomatch ht
  | run completed received => exact h.run hdepth hkeeps ht

end Inv

/-- `slot` takes the remainder if the depth is a power of two. -/
theorem slot_ne {k i j n : ℕ} (hk : cfg.qpDepth = 2 ^ k) (hi : n ≤ i) (hij : i < j)
    (hj : j < n + cfg.qpDepth) : State.slot cfg i ≠ State.slot cfg j := by
  rw [State.slot, State.slot, hk, and_two_pow_sub_one_eq_mod, and_two_pow_sub_one_eq_mod,
    ← hk]
  intro heq
  have hdvd : cfg.qpDepth ∣ j - i := (modEq_iff_dvd' hij.le).mp heq
  have := le_of_dvd (Nat.sub_pos_of_lt hij) hdvd
  omega

theorem Inv.safe {k : ℕ} (h : Inv cfg s) (hk : cfg.qpDepth = 2 ^ k) : s.Safe cfg where
  bound ep := by
    have := h.head_le ep
    rw [State.outstanding]
    omega
  posting ep hep := by
    have hpos : 0 < cfg.qpDepth := hk ▸ Nat.two_pow_pos k
    rw [State.posting] at hep
    split at hep
    · split at hep
      · exact nomatch hep
      · cases hep
        omega
    · next hcontrol =>
      cases hep
      have := h.space _ (show _ ∈ s.control.checked by rw [hcontrol]; rfl)
      rw [State.outstanding]
      omega
    · exact nomatch hep
  slots ep i j hi hij hj := slot_ne hk hi hij (hj.trans_le (h.head_le ep))

end Invariant

section Full

variable {cfg : Config}

theorem exists_eq_two_pow (hpos : 0 < cfg.qpDepth)
    (h : ∀ i j, i < j → j < cfg.qpDepth → State.slot cfg i ≠ State.slot cfg j) :
    ∃ k, cfg.qpDepth = 2 ^ k := by
  refine ⟨(cfg.qpDepth - 1).size, ?_⟩
  have hbits : cfg.qpDepth - 1 = 2 ^ (cfg.qpDepth - 1).size - 1 := by
    refine eq_of_testBit_eq fun b => ?_
    rw [testBit_two_pow_sub_one]
    by_cases hb : b < (cfg.qpDepth - 1).size
    · rw [decide_eq_true hb]
      have hlt : 2 ^ b ≤ cfg.qpDepth - 1 := lt_size.mp hb
      have hne := h 0 (2 ^ b) (Nat.two_pow_pos b) (by omega)
      rw [State.slot, State.slot, zero_and, two_pow_and] at hne
      by_contra hbit
      rw [Bool.not_eq_true] at hbit
      exact hne (by rw [hbit]; rfl)
    · rw [decide_eq_false hb]
      exact testBit_lt_two_pow (size_le.mp (Nat.le_of_not_lt hb))
  have := Nat.two_pow_pos (cfg.qpDepth - 1).size
  omega

structure Puts (s : State) (n : ℕ) : Prop where
  control_eq : s.control = .idle
  head_eq : s.headOpId 0 = n
  tail_eq : s.tailOpId 0 = 0
  issued_eq : s.atomicsIssued = 0
  queue_eq : s.bqueueToprocess = []

theorem Puts.succ {s : State} {n : ℕ} (h : Puts s n) (hn : n < cfg.qpDepth) :
    ∃ t, Reachable (restrict (fun s _ => s.keepsSpace cfg = true) (State.step cfg)) s t ∧
      Puts t (n + 1) := by
  obtain ⟨head, tail, issued, acked, queue, control⟩ := s
  obtain ⟨rfl, hhead, htail, rfl, rfl⟩ := h
  simp only at hhead htail
  have hspace : ¬ cfg.qpDepth - 1 < head 0 - tail 0 := by omega
  have hputs : Puts ⟨update head 0 (head 0 + 1), tail, 0, acked, [], .idle⟩ (n + 1) := by
    refine ⟨rfl, ?_, htail, rfl, rfl⟩
    simp only [update_self, hhead]
  by_cases hgdr : cfg.useGdrcopy
  · refine ⟨_, ⟨[.call (.waitAny 0 (.rma false)), .run [] [], .run [] [], .run [] [], .run [] [],
      .run [] []], ?_⟩, hputs⟩
    simp [exec, restrict, State.step, State.keepsSpace, State.goto, State.outstandingCount,
      Check.ep, State.outstanding, hspace, State.progressRecv, hgdr, State.pollRecv, State.backTo,
      State.postSend]
  · refine ⟨_, ⟨[.call (.waitAny 0 (.rma false)), .run [] [], .run [] []], ?_⟩, hputs⟩
    simp [exec, restrict, State.step, State.keepsSpace, State.goto, State.outstandingCount,
      Check.ep, State.outstanding, hspace, State.progressRecv, hgdr, State.backTo, State.postSend]

theorem exists_puts {n : ℕ} (hn : n ≤ cfg.qpDepth) :
    ∃ s, Reachable (restrict (fun s _ => s.keepsSpace cfg = true) (State.step cfg)) State.start s ∧
      Puts s n := by
  induction n with
  | zero => exact ⟨State.start, ⟨[], rfl⟩, ⟨rfl, rfl, rfl, rfl, rfl⟩⟩
  | succ n ih =>
    obtain ⟨s, hs, hputs⟩ := ih (le_of_succ_le hn)
    obtain ⟨t, ht, hputs⟩ := hputs.succ hn
    exact ⟨t, hs.trans ht, hputs⟩

end Full

/-- Where acknowledgements keep a space for the request that has been checked, the queues are safe
in every run exactly if their depth is a power of two. -/
theorem sendBound_iff (cfg : Config) (hdepth : 1 < cfg.qpDepth) :
    (∀ s, Reachable (restrict (fun s _ => s.keepsSpace cfg = true) (State.step cfg)) State.start s →
      s.Safe cfg) ↔ ∃ k, cfg.qpDepth = 2 ^ k := by
  have hpos : 0 < cfg.qpDepth := zero_lt_of_lt hdepth
  constructor
  · intro h
    obtain ⟨s, hs, hputs⟩ := exists_puts (le_refl cfg.qpDepth)
    refine exists_eq_two_pow hpos fun i j hij hj => (h s hs).slots 0 i j ?_ hij ?_
    · rw [hputs.tail_eq]
      exact Nat.zero_le i
    · rwa [hputs.head_eq]
  · rintro ⟨k, hk⟩ s hs
    refine Inv.safe (hs.invariant (I := Inv cfg) Inv.start fun h ht => ?_) hk
    obtain ⟨hkeeps, ht⟩ := restrict_eq_some.mp ht
    exact h.step hpos hkeeps ht

def twoRequests : Config where
  numRcPerDevice := 1
  numRcPerDevice_pos := Nat.one_pos
  qpDepth := 2
  srqDepth := 16384
  connectedQpCount := 2
  useIbNativeAtomics := true
  useGdrcopy := true
  device _ := 0

theorem sendBound_twoRequests : 1 < twoRequests.qpDepth ∧
    ∀ s, Reachable (restrict (fun s _ => s.keepsSpace twoRequests = true) (State.step twoRequests))
      State.start s → s.Safe twoRequests :=
  ⟨Nat.one_lt_two, (sendBound_iff twoRequests Nat.one_lt_two).mpr ⟨1, rfl⟩⟩

/-- A put is outstanding, and another one has been checked when an atomic is received on the same
endpoint. Its acknowledgement takes the second place, and the put is the third request. -/
theorem not_sendBound_twoRequests : ∃ s, Reachable (State.step twoRequests) State.start s ∧
    twoRequests.qpDepth < s.outstanding 0 :=
  ⟨_, ⟨[.call (.waitAny 0 (.rma false)), .run [] [], .run [] [], .run [] [], .run [] [], .run [] [],
    .call (.waitAny 0 (.rma false)), .run [] [], .run [] [.message 0], .run [] [], .run [] [],
    .run [] [], .run [] []], rfl⟩, by decide⟩

end Nvshmem.Ibrc.SendBound
