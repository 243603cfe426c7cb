import Nvshmem.Proxy.Fetch

/-! # The steps of the calls that fetch

What a step changes, given once for all actions. On the channel, only a reservation adds a request
and only the handling of a request adds to the number of those handled.
-/

namespace Nvshmem.Proxy

open Lists Transition Option Option List Reservation

def Action.reserved : Action → List Request
  | .reserve _ request => [request]
  | _ => []

namespace Channel

variable {cfg : Setup} {s t : Channel} {a : Action}

theorem requests_of_step (hs : s.step cfg a = some t) :
    t.requests = s.requests ++ a.reserved := by
  by_cases hreserve : ∃ thread request, a = .reserve thread request
  · obtain ⟨thread, request, rfl⟩ := hreserve
    obtain ⟨-, rfl⟩ := reserve_eq_some.mp hs
    exact map_append
  · have hnil : a.reserved = [] := by
      cases a with
      | reserve thread request => exact absurd ⟨thread, request, rfl⟩ hreserve
      | _ => rfl
    have hchange := change_of_step hs
    rw [requests, hnil, append_nil]
    generalize t.reservations = rs at hchange
    generalize t.consumed = consumed at hchange
    cases hchange with
    | refl | consume => rfl
    | reserve => exact absurd ⟨_, _, rfl⟩ hreserve
    | set hi hreq => exact map_set_eq request hi hreq

theorem handledCount_of_step (hs : s.step cfg a = some t) (ha : a ≠ .handle) :
    t.handledCount = s.handledCount := by
  cases a with
  | reserve thread request =>
    obtain ⟨-, rfl⟩ := reserve_eq_some.mp hs
    rfl
  | checkAvailability i | waitAvailability i | readComplete i | finish i =>
    obtain ⟨r, r', -, -, rfl⟩ := advance_eq_some.mp hs
    rfl
  | refresh i =>
    obtain ⟨r, c, -, -, rfl⟩ := refresh_eq_some.mp hs
    rfl
  | store i =>
    obtain ⟨r, payload, -, -, -, rfl⟩ := store_eq_some.mp hs
    rfl
  | pollBase =>
    obtain ⟨hhost, -, -, rfl⟩ := pollBase_eq_some.mp (of_running hs)
    simp only [handledCount, hhost]
  | readBase =>
    obtain ⟨hhost, ⟨kind, -, rfl⟩ | ⟨-, rfl⟩⟩ := readBase_eq_some.mp (of_running hs)
    · simp only [handledCount, hhost]
    · rfl
  | pollEntry =>
    obtain ⟨base, kind, seen, hhost, -, -, rfl⟩ := pollEntry_eq_some.mp (of_running hs)
    simp only [handledCount, hhost]
  | handle => exact absurd rfl ha
  | update =>
    obtain ⟨words, result, hhost, rfl⟩ := update_eq_some.mp (of_running hs)
    simp only [handledCount, hhost, length_append, length_singleton]
  | quiet _ | announceQuiet _ | finishQuiet _ | checkQuiet | readQuiet | testQuiet | quietAll
  | ackQuiet =>
    obtain ⟨_, _, _, _, _, _, rfl⟩ := exists_quiet hs trivial
    rfl

theorem Sound.handle (h : s.Sound cfg) (hs : s.step cfg .handle = some t) :
    s.handledCount = s.consumed.length ∧ t.handledCount = s.consumed.length + 1 ∧
      ∃ req words, s.requests[s.consumed.length]? = some req ∧
        t.host = .handled words ⟨req.decoded, req.bytes, decide (req.kind = .qpQuiet)⟩ := by
  have hhandled := (h.inv.step hs).host
  obtain ⟨base, kind, hhost, rfl⟩ := handle_eq_some.mp (of_running hs)
  obtain ⟨req, hreq, hwords, hresult, -⟩ := hhandled
  exact ⟨by rw [handledCount, hhost], rfl, req, _, hreq, congrArg (HostPhase.handled _) hresult⟩

theorem Sound.lt_handledCount (h : s.Sound cfg) {j : ℕ} {r : Reservation} {req : Request}
    (hreq : s.requests[j]? = some req) (hkind : req.kind = .qpQuiet)
    (hr : s.reservations[j]? = some r) (hret : r.phase = .returned) : j < s.handledCount := by
  obtain rfl : req = r.request := some.inj (hreq.symm.trans (getElem?_map_request hr))
  exact (h.qpReturned j r hr hret hkind).trans_le (QuietInv.le_handledCount s)

end Channel

namespace Fetch

section Steps

variable (cfg : Config)

inductive Change (s : State) : Action → State → Prop where
  | start {thread : ℕ} {operation : Operation} {roffset : BitVec 40} {pe : BitVec 16}
      {qp : BitVec 32} (hlt : s.head < 2 ^ 56) :
      Change s (.start thread operation roffset pe qp) { s with
        head := s.head + 1
        users := s.users ++ [⟨⟨thread, operation, roffset, pe, qp, none, none⟩, .waiting, []⟩] }
  | waitSlot {k : ℕ} {u : User} (hu : s.users[k]? = some u) (hphase : u.phase = .waiting)
      (hflag : cfg.flag k ≤ s.flag (cfg.elem k)) :
      Change s (.waitSlot k) { s with users := s.users.set k { u with phase := .ready } }
  | issue {k : ℕ} {u : User} {channel : Channel} (hu : s.users[k]? = some u)
      (hphase : u.phase = .ready)
      (hs : s.channel.step cfg.channel (.reserve u.thread (u.deviceRequest cfg k)) = some channel) :
      Change s (.issue k) { s with
        channel := channel
        users := s.users.set k
          { u with phase := .issued, request := some s.channel.requests.length } }
  | quiet {k : ℕ} {u : User} {channel : Channel} (hu : s.users[k]? = some u)
      (hphase : u.phase = .issued) (hawaits : u.awaitsQuiet cfg = true)
      (hs : s.channel.step cfg.channel (.reserve u.thread u.quietRequest) = some channel) :
      Change s (.quiet k) { s with
        channel := channel
        users := s.users.set k
          { u with phase := .quieting, quiet := some s.channel.requests.length } }
  | endQuiet {k : ℕ} {u : User} {phase : UserPhase} (hu : s.users[k]? = some u)
      (hphase : u.phase = .quieting) (hret : s.Returned u.quiet)
      (hnext : phase = match u.operation with | .get .. => .reading | .amo .. => .quieted) :
      Change s (.endQuiet k) { s with users := s.users.set k { u with phase := phase } }
  | loadBump {k : ℕ} {u : User} (hu : s.users[k]? = some u) (hphase : u.phase = .quieted) :
      Change s (.loadBump k) { s with
        users := s.users.set k { u with phase := .bumping (s.flag (cfg.elem k)) } }
  | storeBump {k flag : ℕ} {u : User} (hu : s.users[k]? = some u)
      (hphase : u.phase = .bumping flag) :
      Change s (.storeBump k) (s.storeFlag cfg k (flag + 1) { u with phase := .reading })
  | waitReply {k : ℕ} {u : User} (hu : s.users[k]? = some u) (hphase : u.phase = .issued)
      (hawaits : u.awaitsQuiet cfg = false) (hflag : cfg.flag k + 1 ≤ s.flag (cfg.elem k)) :
      Change s (.waitReply k) { s with users := s.users.set k { u with phase := .reading } }
  | read {k : ℕ} {u : User} (hu : s.users[k]? = some u) (hphase : u.phase = .reading) :
      Change s (.read k) { s with
        users := s.users.set k { u with results := u.results ++ [s.mem (u.cell cfg k)] } }
  | loadRelease {k : ℕ} {u : User} (hu : s.users[k]? = some u) (hphase : u.phase = .reading)
      (hlanes : u.results.length = u.lanes) :
      Change s (.loadRelease k) { s with
        users := s.users.set k { u with phase := .releasing (s.flag (cfg.elem k)) } }
  | storeRelease {k flag : ℕ} {u : User} (hu : s.users[k]? = some u)
      (hphase : u.phase = .releasing flag) :
      Change s (.storeRelease k) (s.storeFlag cfg k (flag + u.release) { u with phase := .released })
  | land {i : ℕ} {p : Post} (hp : s.posts[i]? = some p) (hstatus : p.status = .posted) :
      Change s (.land i) { s with
        mem := Function.update s.mem p.landing.addr (some p.number)
        posts := s.posts.set i { p with status := .landed } }
  | reply {i addr retflag : ℕ} {p : Post} (hp : s.posts[i]? = some p)
      (hlanding : p.landing = .fetched addr retflag) (hstatus : p.status = .landed)
      (hquiet : cfg.atomicsCompleteOnQuiet = false) :
      Change s (.reply i) { s with
        flag := Function.update s.flag addr retflag
        posts := s.posts.set i { p with status := .replied } }
  | connect {numQps : ℕ} {ib : Ib.System} (hib : s.ib.step cfg.ib (.connect numQps) = some ib) :
      Change s (.connect numQps) { s with ib := ib }
  | post {chunks pe : ℕ} {qp : BitVec 32} {channel : Channel} {ib : Ib.System}
      {words : List (BitVec 64)} {result : Handled}
      (hs : s.channel.step cfg.channel .handle = some channel)
      (hhost : channel.host = .handled words result)
      (hcalls : cfg.channel.job.calls result.posted = [.post pe qp])
      (hib : exec (Ib.System.step cfg.ib) s.ib (.replicate (State.pieces chunks result.posted)
        (.post cfg.channel.job.mype (handleOf qp) pe)) = some ib) :
      Change s (.handle chunks) { s with
        channel := channel
        ib := ib
        posts := s.posts ++ ((landing cfg result.posted).map fun l =>
          ⟨s.channel.consumed.length, ib.uses.drop s.ib.uses.length, l, .posted⟩).toList }
  | wait {chunks : ℕ} {channel : Channel} {words : List (BitVec 64)} {result : Handled}
      (hs : s.channel.step cfg.channel .handle = some channel)
      (hhost : channel.host = .handled words result)
      (hcalls : ∀ pe qp, cfg.channel.job.calls result.posted ≠ [.post pe qp])
      (hquiet : s.Quiet cfg (cfg.channel.job.calls result.posted)) :
      Change s (.handle chunks) { s with
        channel := channel
        waits := s.waits ++ [⟨s.channel.consumed.length,
          (cfg.channel.job.calls result.posted).flatMap (s.endpoints cfg)⟩] }
  | quietAll {channel : Channel} (hs : s.channel.step cfg.channel .quietAll = some channel) :
      Change s .quietAll { s with
        channel := channel
        waits := s.waits ++ [⟨s.channel.consumed.length,
          cfg.channel.job.quietAll.flatMap (s.endpoints cfg)⟩] }
  | channel {a : Proxy.Action} {channel : Channel} (hothers : s.Others cfg a)
      (hs : s.channel.step cfg.channel a = some channel) :
      Change s (.channel a) { s with channel := channel }

variable {cfg} {s t : State} {k : ℕ}

theorem advance_eq_some {next : User → Option User} : s.advance k next = some t ↔
    ∃ u u', s.users[k]? = some u ∧ next u = some u' ∧ { s with users := s.users.set k u' } = t := by
  simp only [State.advance, bind_eq_some_iff, map_eq_some_iff]
  constructor
  · rintro ⟨u, hu, u', hu', ht⟩
    exact ⟨u, u', hu, hu', ht⟩
  · rintro ⟨u, u', hu, hu', ht⟩
    exact ⟨u, hu, u', hu', ht⟩

theorem change_of_step {a : Action} (ht : s.step cfg a = some t) : Change cfg s a t := by
  cases a with
  | start thread operation roffset pe qp =>
    simp only [State.step, State.start, ite_none_right_eq_some, some.injEq] at ht
    obtain ⟨⟨-, -, hlt⟩, rfl⟩ := ht
    exact .start hlt
  | waitSlot k =>
    obtain ⟨u, u', hu, hu', rfl⟩ := advance_eq_some.mp ht
    simp only [ite_none_right_eq_some, some.injEq] at hu'
    obtain ⟨⟨hphase, hflag⟩, rfl⟩ := hu'
    exact .waitSlot hu hphase hflag
  | issue k =>
    simp only [State.step, State.issue, State.reserve, bind_eq_some_iff,
      ite_none_right_eq_some, map_eq_some_iff] at ht
    obtain ⟨u, hu, hphase, channel, hs, rfl⟩ := ht
    rw [← length_map request]
    exact .issue hu hphase hs
  | quiet k =>
    simp only [State.step, State.quiet, State.reserve, bind_eq_some_iff,
      ite_none_right_eq_some, map_eq_some_iff] at ht
    obtain ⟨u, hu, ⟨hphase, hawaits, -⟩, channel, hs, rfl⟩ := ht
    rw [← length_map request]
    exact .quiet hu hphase hawaits hs
  | endQuiet k =>
    obtain ⟨u, u', hu, hu', rfl⟩ := advance_eq_some.mp ht
    simp only [ite_none_right_eq_some] at hu'
    obtain ⟨⟨hphase, hret⟩, hu'⟩ := hu'
    cases hop : u.operation with
    | get coalesced size | amo args fetches =>
      rw [hop] at hu'
      cases hu'
      exact .endQuiet hu hphase hret (by rw [hop])
  | loadBump k =>
    obtain ⟨u, u', hu, hu', rfl⟩ := advance_eq_some.mp ht
    simp only [ite_none_right_eq_some, some.injEq] at hu'
    obtain ⟨hphase, rfl⟩ := hu'
    exact .loadBump hu hphase
  | storeBump k =>
    simp only [State.step, State.storeBump, bind_eq_some_iff] at ht
    obtain ⟨u, hu, ht⟩ := ht
    split at ht
    · cases ht
      exact .storeBump hu ‹_›
    · exact absurd ht (some_ne_none _).symm
  | waitReply k =>
    obtain ⟨u, u', hu, hu', rfl⟩ := advance_eq_some.mp ht
    simp only [ite_none_right_eq_some, some.injEq] at hu'
    obtain ⟨⟨hphase, hawaits, -, hflag⟩, rfl⟩ := hu'
    exact .waitReply hu hphase hawaits hflag
  | read k =>
    obtain ⟨u, u', hu, hu', rfl⟩ := advance_eq_some.mp ht
    simp only [ite_none_right_eq_some, some.injEq] at hu'
    obtain ⟨⟨hphase, -⟩, rfl⟩ := hu'
    exact .read hu hphase
  | loadRelease k =>
    obtain ⟨u, u', hu, hu', rfl⟩ := advance_eq_some.mp ht
    simp only [ite_none_right_eq_some, some.injEq] at hu'
    obtain ⟨⟨hphase, hlanes⟩, rfl⟩ := hu'
    exact .loadRelease hu hphase hlanes
  | storeRelease k =>
    simp only [State.step, State.storeRelease, bind_eq_some_iff] at ht
    obtain ⟨u, hu, ht⟩ := ht
    split at ht
    · cases ht
      exact .storeRelease hu ‹_›
    · exact absurd ht (some_ne_none _).symm
  | land i =>
    simp only [State.step, State.land, bind_eq_some_iff, ite_none_right_eq_some,
      some.injEq] at ht
    obtain ⟨p, hp, hstatus, rfl⟩ := ht
    exact .land hp hstatus
  | reply i =>
    simp only [State.step, State.reply, bind_eq_some_iff] at ht
    obtain ⟨p, hp, ht⟩ := ht
    split at ht
    · simp only [ite_none_right_eq_some, some.injEq] at ht
      obtain ⟨⟨hstatus, hquiet⟩, rfl⟩ := ht
      exact .reply hp ‹_› hstatus hquiet
    · exact absurd ht (some_ne_none _).symm
  | connect numQps =>
    obtain ⟨ib, hib, rfl⟩ := map_eq_some_iff.mp ht
    exact .connect hib
  | handle chunks =>
    obtain ⟨channel, hs, ht⟩ := bind_eq_some_iff.mp ht
    split at ht
    · split at ht
      · obtain ⟨ib, hib, rfl⟩ := map_eq_some_iff.mp ht
        exact .post hs ‹_› ‹_› hib
      · simp only [State.wait, ite_none_right_eq_some, some.injEq] at ht
        obtain ⟨hquiet, rfl⟩ := ht
        exact .wait hs ‹_› ‹_› hquiet
    · exact absurd ht (some_ne_none _).symm
  | quietAll =>
    obtain ⟨channel, hs, ht⟩ := bind_eq_some_iff.mp ht
    simp only [State.wait, ite_none_right_eq_some, some.injEq] at ht
    obtain ⟨-, rfl⟩ := ht
    exact .quietAll hs
  | channel a =>
    simp only [State.step, ite_none_right_eq_some, map_eq_some_iff] at ht
    obtain ⟨hothers, channel, hs, rfl⟩ := ht
    exact .channel hothers hs

end Steps

end Fetch

end Nvshmem.Proxy
