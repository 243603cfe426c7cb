import Nvshmem.Proxy.Delivery

/-! # Quiet

A full quiet waits until the proxy has acknowledged a quiet of all transports that it
made after it had passed the value of `issue` that the caller has read. A QP quiet is a
request itself, and its transport calls come after those of all requests before it.
They are calls to the transports of the translated PEs, so they miss an atomic that went
to a PE on another rail.
-/

namespace Nvshmem.Proxy

open Lists Transition List

namespace Channel

def QuietedAfter (cfg : Setup) (s : Channel) (i : ℕ) (r : Request) : Prop :=
  i < s.consumed.length ∧ ∃ act, [.request i (cfg.job.calls r.decoded), act].Sublist s.acts ∧
    ∀ pe qp, .post pe qp ∈ cfg.job.calls r.decoded → ∃ call ∈ act.calls, call.Covers pe qp

/-- Every quiet that has returned covers the requests reserved before it. -/
structure QuietSound (cfg : Setup) (s : Channel) : Prop where
  quiet : ∀ q ∈ s.quiets, q.phase = .returned → ∀ i r, i < q.before →
    s.reservations[i]? = some r → s.QuietedAfter cfg i r.request
  qpQuiet : ∀ j q pe qps, s.reservations[j]? = some q → q.phase = .returned →
    q.request = .quietQp pe qps → ∀ i r, i < j → s.reservations[i]? = some r →
      r.request.NamedBy cfg.job pe qps → s.QuietedAfter cfg i r.request

end Channel

section Acts

variable {cfg : Setup} {reqs : List Request} {req : Request} {acts acts' : List Act} {m x y : ℕ}

def Act.isRequest : Act → Bool
  | .request .. => true
  | .quiet _ => false

def requestActs (cfg : Setup) (reqs : List Request) (m : ℕ) : List Act :=
  (reqs.take m).mapIdx fun i r => .request i (cfg.job.calls r.decoded)

theorem requestActs_append (h : m ≤ reqs.length) :
    requestActs cfg (reqs ++ [req]) m = requestActs cfg reqs m := by
  rw [requestActs, requestActs, take_append_of_le_length h]

theorem requestActs_succ (h : reqs[m]? = some req) :
    requestActs cfg reqs (m + 1) =
      requestActs cfg reqs m ++ [.request m (cfg.job.calls req.decoded)] := by
  have hlt := (List.getElem?_eq_some_iff.mp h).1
  rw [requestActs, requestActs, take_add_one, h, Option.toList_some, mapIdx_concat,
    length_take, Nat.min_eq_left hlt.le]

theorem getElem?_requestActs {i : ℕ} (hi : reqs[i]? = some req) (hm : i < m) :
    (requestActs cfg reqs m)[i]? = some (.request i (cfg.job.calls req.decoded)) := by
  rw [requestActs, getElem?_mapIdx, getElem?_take_of_lt hm, hi, Option.map_some]

def AckedTo (cfg : Setup) (reqs : List Request) (acts : List Act) (x : ℕ) : Prop :=
  ∀ i r, reqs[i]? = some r → channelEntryBytes * offset reqs (i + 1) ≤ x →
    [.request i (cfg.job.calls r.decoded), .quiet cfg.job.quietAll].Sublist acts

theorem AckedTo.mono (h : AckedTo cfg reqs acts x) (hle : y ≤ x) : AckedTo cfg reqs acts y :=
  fun i r hi hx => h i r hi (hx.trans hle)

theorem AckedTo.concat (h : AckedTo cfg reqs acts x) : AckedTo cfg reqs (acts ++ acts') x :=
  fun i r hi hx => (h i r hi hx).trans (sublist_append_left ..)

theorem AckedTo.append (h : AckedTo cfg reqs acts x)
    (hx : x ≤ channelEntryBytes * offset reqs reqs.length) :
    AckedTo cfg (reqs ++ [req]) acts x := by
  apply forall_getElem?_concat
  · intro i r hi hend
    rw [offset_append (List.getElem?_eq_some_iff.mp hi).1] at hend
    exact h i r hi hend
  · intro hend
    have hpos := length_pos_of_ne_nil req.entries_ne_nil
    rw [offset_succ getElem?_concat_length, offset_append le_rfl] at hend
    have hle := Nat.le_of_mul_le_mul_left (hend.trans hx) (by decide : 0 < channelEntryBytes)
    omega

end Acts

namespace Channel

def handledCount (s : Channel) : ℕ :=
  match s.host with
  | .handled .. => s.consumed.length + 1
  | _ => s.consumed.length

structure QuietInv (cfg : Setup) (reqs : List Request) (s : Channel) : Prop where
  acts_eq : s.acts.filter Act.isRequest = requestActs cfg reqs s.handledCount
  ack_le : s.quietAck ≤ s.processed
  ack : AckedTo cfg reqs s.acts s.quietAck
  last_le : s.quietInProgress = .done ∨ s.quietInProgress = .quieted →
    s.lastQuietIssue ≤ s.processed
  last : s.quietInProgress = .quieted → AckedTo cfg reqs s.acts s.lastQuietIssue
  before : ∀ q ∈ s.quiets, q.before ≤ reqs.length ∧
    q.quietIssue = channelEntryBytes * offset reqs q.before
  returned : ∀ q ∈ s.quiets, q.phase = .returned →
    q.quietIssue ≤ s.processed ∧ AckedTo cfg reqs s.acts q.quietIssue

def QpReturned (rs : List Reservation) (n : ℕ) : Prop :=
  ∀ j r, rs[j]? = some r → r.phase = .returned → r.request.kind = .qpQuiet → j < n

variable {cfg : Setup} {s t : Channel} {r r' : Reservation} {i : ℕ}

theorem Inv.processed_le (h : s.Inv cfg) :
    s.processed ≤ channelEntryBytes * offset s.requests s.requests.length := by
  rw [h.consumption.processed_eq]
  exact Nat.mul_le_mul_left _ (offset_mono h.consumption.length_le)

theorem Inv.handledCount_le (h : s.Inv cfg) : s.handledCount ≤ s.requests.length := by
  have hinv := h.host
  rw [handledCount]
  cases hhost : s.host with
  | handled words result =>
    rw [hhost] at hinv
    obtain ⟨req, hreq, -⟩ := hinv
    exact (List.getElem?_eq_some_iff.mp hreq).1
  | _ => exact h.consumption.length_le

/-- A request that ends before `processed` has been consumed. -/
theorem Inv.lt_consumed (h : s.Inv cfg) {req : Request} (hreq : s.requests[i]? = some req)
    (hend : channelEntryBytes * offset s.requests (i + 1) ≤ s.processed) :
    i < s.consumed.length := by
  by_contra hge
  rw [h.consumption.processed_eq] at hend
  have hle := Nat.le_of_mul_le_mul_left hend (by decide : 0 < channelEntryBytes)
  have hpos := length_pos_of_ne_nil req.entries_ne_nil
  have hmono : offset s.requests s.consumed.length ≤ offset s.requests i :=
    offset_mono (not_lt.mp hge)
  rw [offset_succ hreq] at hle
  omega

theorem requests_set (hi : s.reservations[i]? = some r) (hreq : r'.request = r.request) :
    requests { s with reservations := s.reservations.set i r' } = s.requests :=
  map_set_eq Reservation.request hi hreq

namespace QuietInv

theorem init : QuietInv cfg [] .init where
  acts_eq := rfl
  ack_le := le_rfl
  ack _ _ hi := nomatch hi
  last_le h := by simp [Channel.init] at h
  last h := nomatch h
  before _ h := nomatch h
  returned _ h := nomatch h

theorem append {reqs : List Request} (h : QuietInv cfg reqs s) (req : Request)
    (hcount : s.handledCount ≤ reqs.length)
    (hle : s.processed ≤ channelEntryBytes * offset reqs reqs.length) :
    QuietInv cfg (reqs ++ [req]) s where
  acts_eq := by
    rw [requestActs_append hcount]
    exact h.acts_eq
  ack_le := h.ack_le
  ack := h.ack.append (h.ack_le.trans hle)
  last_le := h.last_le
  last hq := (h.last hq).append ((h.last_le (.inr hq)).trans hle)
  before q hq := by
    obtain ⟨hlen, hissue⟩ := h.before q hq
    rw [offset_append hlen, length_append]
    exact ⟨hlen.trans (Nat.le_add_right ..), hissue⟩
  returned q hq hret := by
    obtain ⟨hprocessed, hacked⟩ := h.returned q hq hret
    exact ⟨hprocessed, hacked.append (hprocessed.trans hle)⟩

section Keeps

variable (h : QuietInv cfg s.requests s)
include h

theorem reserve (hi : s.Inv cfg) {thread : ℕ} {request : Request}
    (hs : s.reserve cfg thread request = some t) : QuietInv cfg t.requests t := by
  obtain ⟨-, rfl⟩ := reserve_eq_some.mp hs
  rw [requests, map_append]
  exact { h.append request hi.handledCount_le hi.processed_le with }

theorem set (hr : s.reservations[i]? = some r) (r' : Reservation) (hreq : r'.request = r.request) :
    QuietInv cfg (requests { s with reservations := s.reservations.set i r' })
      { s with reservations := s.reservations.set i r' } := by
  rw [requests_set hr hreq]
  exact { h with }

theorem act {phase : HostPhase} {status : QuietStatus} {a : Act}
    (hacts : (s.acts ++ [a]).filter Act.isRequest = requestActs cfg s.requests (handledCount { s
      with host := phase }))
    (hle : status = .done ∨ status = .quieted → s.lastQuietIssue ≤ s.processed)
    (hlast : status = .quieted → AckedTo cfg s.requests (s.acts ++ [a]) s.lastQuietIssue) :
    QuietInv cfg s.requests
      { s with host := phase, quietInProgress := status, acts := s.acts ++ [a] } where
  acts_eq := hacts
  ack_le := h.ack_le
  ack := h.ack.concat
  last_le := hle
  last := hlast
  before := h.before
  returned q hq hret := ⟨(h.returned q hq hret).1, (h.returned q hq hret).2.concat⟩

theorem handle (hi : s.Inv cfg) (hs : s.handle cfg = some t) : QuietInv cfg t.requests t := by
  have hhandled := (hi.handle hs).host
  obtain ⟨base, kind, hhost, rfl⟩ := handle_eq_some.mp hs
  obtain ⟨req, hreq, -, hresult, -⟩ := hhandled
  have hcount : s.handledCount = s.consumed.length := by rw [handledCount, hhost]
  apply h.act _ h.last_le fun hq => (h.last hq).concat
  rw [hresult, filter_append, h.acts_eq, hcount]
  exact (requestActs_succ hreq).symm

theorem update (hs : s.update = some t) : QuietInv cfg t.requests t := by
  obtain ⟨words, result, hhost, rfl⟩ := update_eq_some.mp hs
  have hcount : s.handledCount = (s.consumed ++ [words]).length := by
    rw [handledCount, hhost, length_append, length_singleton]
  have hle : s.processed ≤ s.processed + result.bytes := Nat.le_add_right ..
  refine ⟨?_, h.ack_le.trans hle, h.ack, fun hq => (h.last_le hq).trans hle, h.last, h.before,
    fun q hq hret => ⟨(h.returned q hq hret).1.trans hle, (h.returned q hq hret).2⟩⟩
  have hacts := h.acts_eq
  rw [hcount] at hacts
  exact hacts

theorem mem_acts {req : Request} (hreq : s.requests[i]? = some req) (hlt : i < s.handledCount) :
    .request i (cfg.job.calls req.decoded) ∈ s.acts := by
  have hget : (requestActs cfg s.requests s.handledCount)[i]? = some _ :=
    getElem?_requestActs hreq hlt
  rw [← h.acts_eq] at hget
  exact mem_of_mem_filter (mem_of_getElem? hget)

theorem setHost {phase : HostPhase}
    (hcount : handledCount { s with host := phase } = s.handledCount) :
    QuietInv cfg s.requests { s with host := phase } :=
  { h with
    acts_eq := by
      rw [hcount]
      exact h.acts_eq }

end Keeps

theorem le_handledCount (s : Channel) : s.consumed.length ≤ s.handledCount := by
  rw [handledCount]
  split
  · exact Nat.le_succ _
  · exact le_rfl

theorem quietAll (h : QuietInv cfg s.requests s) (hi : s.Inv cfg) (hs : s.quietAll cfg = some t) :
    QuietInv cfg t.requests t := by
  obtain ⟨hdone, rfl⟩ := quietAll_eq_some.mp hs
  have hle := h.last_le (.inl hdone)
  refine h.act ?_ (fun _ => hle) fun _ => ?_
  · rw [filter_append, h.acts_eq]
    exact append_nil _
  · intro j req hreq hend
    have hlt := hi.lt_consumed hreq (hend.trans hle)
    have hmem := h.mem_acts hreq (hlt.trans_le (le_handledCount s))
    exact (singleton_sublist.mpr hmem).append (List.Sublist.refl _)

theorem step (h : QuietInv cfg s.requests s) (hi : s.Inv cfg) {a : Action}
    (hs : s.step cfg a = some t) : QuietInv cfg t.requests t := by
  cases a with
  | reserve thread request => exact h.reserve hi hs
  | checkAvailability i | waitAvailability i | readComplete i | finish i =>
    obtain ⟨r, r', hr, hr', rfl⟩ := advance_eq_some.mp hs
    split_ifs at hr' <;> exact h.set hr _ (Option.some.inj hr' ▸ rfl)
  | refresh i =>
    obtain ⟨r, c, hr, -, rfl⟩ := refresh_eq_some.mp hs
    exact { h.set hr { r with phase := .storing } rfl with }
  | store i =>
    obtain ⟨r, payload, hr, -, -, rfl⟩ := store_eq_some.mp hs
    exact { h.set hr { r with stored := r.stored + 1 } rfl with }
  | quiet thread =>
    obtain ⟨-, rfl⟩ := quiet_eq_some.mp hs
    refine { h with before := forall_mem_concat h.before ?_, returned := ?_ }
    · exact ⟨(length_map _).ge, hi.layout.issue_eq⟩
    · exact forall_mem_concat h.returned nofun
  | announceQuiet i =>
    obtain ⟨q, hq, -, rfl⟩ := announceQuiet_eq_some.mp hs
    exact { h with
      before := forall_mem_set h.before (h.before q (mem_of_getElem? hq))
      returned := forall_mem_set h.returned nofun }
  | finishQuiet i =>
    obtain ⟨q, hq, ⟨-, hack⟩, rfl⟩ := finishQuiet_eq_some.mp hs
    exact { h with
      before := forall_mem_set h.before (h.before q (mem_of_getElem? hq))
      returned := forall_mem_set h.returned fun _ => ⟨hack.trans h.ack_le, h.ack.mono hack⟩ }
  | pollBase =>
    obtain ⟨hhost, -, -, rfl⟩ := pollBase_eq_some.mp (of_running hs)
    exact h.setHost (by simp only [handledCount, hhost])
  | readBase =>
    obtain ⟨hhost, ⟨kind, -, rfl⟩ | ⟨-, rfl⟩⟩ := readBase_eq_some.mp (of_running hs)
    · exact h.setHost (by simp only [handledCount, hhost])
    · exact { h with }
  | pollEntry =>
    obtain ⟨base, kind, seen, hhost, -, -, rfl⟩ := pollEntry_eq_some.mp (of_running hs)
    exact h.setHost (by simp only [handledCount, hhost])
  | handle => exact h.handle hi (of_running hs)
  | update => exact h.update (of_running hs)
  | checkQuiet =>
    obtain ⟨-, -, -, rfl⟩ := checkQuiet_eq_some.mp (of_running hs)
    exact { h with last_le := by simp, last := nofun }
  | readQuiet =>
    obtain ⟨-, rfl⟩ := readQuiet_eq_some.mp (of_running hs)
    exact { h with last_le := by simp, last := nofun }
  | testQuiet =>
    obtain ⟨-, -, hle, rfl⟩ := testQuiet_eq_some.mp (of_running hs)
    exact { h with last_le := fun _ => hle, last := nofun }
  | quietAll => exact h.quietAll hi (of_running hs)
  | ackQuiet =>
    obtain ⟨hq, rfl⟩ := ackQuiet_eq_some.mp (of_running hs)
    exact { h with
      ack_le := h.last_le (.inr hq), ack := h.last hq, last_le := by simp, last := nofun }

end QuietInv

theorem forall_requests_of_step {P : Request → Prop} {a : Action}
    (hP : ∀ thread req, a = .reserve thread req → req.InJob cfg.job → P req)
    (h : ∀ req ∈ s.requests, P req) (hs : s.step cfg a = some t) :
    ∀ req ∈ t.requests, P req := by
  have hchange := change_of_step hs
  rw [requests]
  generalize t.reservations = rs at hchange
  generalize t.consumed = consumed at hchange
  cases hchange with
  | refl | consume => exact h
  | @reserve thread request hjob =>
    rw [map_append]
    exact forall_mem_concat h (hP thread request rfl hjob)
  | set hi hreq =>
    rw [map_set_eq Reservation.request hi hreq]
    exact h

theorem Inv.lt_consumed_of_tail (h : s.Inv cfg) (hi : s.reservations[i]? = some r)
    (htail : r.tail < s.complete) : i < s.consumed.length := by
  apply h.lt_consumed (getElem?_map_request hi)
  have hbytes := r.request.bytes_pos
  have hcomplete := h.complete_le
  rw [Reservation.tail] at htail
  rw [requests, offset_succ (getElem?_map_request hi), Nat.mul_add, ← h.layout.start_eq i r hi,
    ← r.request.bytes_eq]
  omega

theorem QpReturned.step (h : QpReturned s.reservations s.consumed.length) (hinv : s.Inv cfg)
    {a : Action} (hs : s.step cfg a = some t) :
    QpReturned t.reservations t.consumed.length := by
  have hchange := change_of_step hs
  generalize t.reservations = rs at hchange
  generalize t.consumed = consumed at hchange
  cases hchange with
  | refl => exact h
  | reserve hjob => exact forall_getElem?_concat h nofun
  | set hi hreq hret =>
    refine forall_getElem?_set h fun hphase hkind => ?_
    exact hinv.lt_consumed_of_tail hi (hret hphase (hreq ▸ hkind))
  | consume hhost =>
    intro j r hj hret hkind
    exact (h j r hj hret hkind).trans_le (prefix_append ..).length_le

def ReservesOnRail (cfg : Setup) (_ : Channel) : Action → Prop
  | .reserve _ request => request.OnRail cfg.job
  | _ => True

instance (s : Channel) (a : Action) : Decidable (ReservesOnRail cfg s a) := by
  unfold ReservesOnRail
  split <;> infer_instance

structure Sound (cfg : Setup) (s : Channel) : Prop where
  inv : s.Inv cfg
  quietInv : QuietInv cfg s.requests s
  qpReturned : QpReturned s.reservations s.consumed.length
  inJob : ∀ req ∈ s.requests, req.InJob cfg.job

namespace Sound

theorem init : Sound cfg .init where
  inv := .init
  quietInv := .init
  qpReturned _ _ hj := nomatch hj
  inJob _ hreq := nomatch hreq

theorem step (h : s.Sound cfg) {a : Action} (hs : s.step cfg a = some t) : t.Sound cfg where
  inv := h.inv.step hs
  quietInv := h.quietInv.step h.inv hs
  qpReturned := h.qpReturned.step h.inv hs
  inJob := forall_requests_of_step (fun _ _ _ hjob => hjob) h.inJob hs

theorem of_reachable (h : Reachable (Channel.step cfg) Channel.init s) : s.Sound cfg :=
  h.invariant .init fun hu hs => hu.step hs

theorem quiet (h : s.Sound cfg) {q : QuietCall} (hq : q ∈ s.quiets) (hret : q.phase = .returned)
    (hlt : i < q.before) (hi : s.reservations[i]? = some r) :
    s.QuietedAfter cfg i r.request := by
  obtain ⟨hprocessed, hacked⟩ := h.quietInv.returned q hq hret
  obtain ⟨-, hissue⟩ := h.quietInv.before q hq
  have hreq := getElem?_map_request hi
  have hend : channelEntryBytes * offset s.requests (i + 1) ≤ q.quietIssue := by
    rw [hissue]
    exact Nat.mul_le_mul_left _ (offset_mono hlt)
  refine ⟨h.inv.lt_consumed hreq (hend.trans hprocessed), _, hacked i _ hreq hend, ?_⟩
  intro pe qp hpost
  exact exists_covers_quietAll (h.inJob _ (mem_of_getElem? hreq)) hpost

theorem qpQuiet (h : s.Sound cfg) (hrail : ∀ req ∈ s.requests, req.OnRail cfg.job) {j : ℕ}
    {q : Reservation} {pe : BitVec 16} {qps : QpList} (hj : s.reservations[j]? = some q)
    (hret : q.phase = .returned) (hquiet : q.request = .quietQp pe qps) (hij : i < j)
    (hi : s.reservations[i]? = some r) (hnamed : r.request.NamedBy cfg.job pe qps) :
    s.QuietedAfter cfg i r.request := by
  have hjlt := h.qpReturned j q hj hret (hquiet ▸ rfl)
  have hreq := getElem?_map_request hi
  have hmem := mem_of_getElem? hreq
  have hcount := hjlt.trans_le (QuietInv.le_handledCount s)
  have hgeti : (requestActs cfg s.requests s.handledCount)[i]? = some _ :=
    getElem?_requestActs hreq (hij.trans hcount)
  have hgetj : (requestActs cfg s.requests s.handledCount)[j]? = some _ :=
    getElem?_requestActs (getElem?_map_request hj) hcount
  have hpair := sublist_pair hgeti hgetj hij
  rw [← h.quietInv.acts_eq] at hpair
  refine ⟨hij.trans hjlt, _, hpair.trans filter_sublist, ?_⟩
  intro pe' qp' hpost
  rw [hquiet]
  exact exists_covers_quietQp (h.inJob _ hmem) (hrail _ hmem) hnamed hpost

end Sound

theorem onRail_of_reachable (h : Reachable (restrict (ReservesOnRail cfg) (step cfg)) init s) :
    ∀ req ∈ s.requests, req.OnRail cfg.job := by
  apply h.invariant (I := fun s => ∀ req ∈ s.requests, req.OnRail cfg.job)
  · intro req hreq
    exact nomatch hreq
  · intro u a v hu hs
    obtain ⟨hok, hs⟩ := restrict_eq_some.mp hs
    refine forall_requests_of_step (fun thread req ha _ => ?_) hu hs
    rw [ha] at hok
    exact hok

/-- While atomics stay on the caller's rail, a quiet that has returned covers the requests
reserved before it. -/
theorem quietSound_of_reachable
    (h : Reachable (restrict (ReservesOnRail cfg) (step cfg)) init s) : s.QuietSound cfg where
  quiet _ hq hret _ _ hlt hi := (Sound.of_reachable h.of_restrict).quiet hq hret hlt hi
  qpQuiet _ _ _ _ hj hret hquiet _ _ hij hi hnamed :=
    (Sound.of_reachable h.of_restrict).qpQuiet (onRail_of_reachable h) hj hret hquiet hij hi hnamed

def twoRails : Setup := ⟨6, by decide, .twoByTwo⟩

def addQp (pe : BitVec 16) : Request := .amo 0 ⟨.add, .four, 1, 0, 0, fun _ => rfl⟩ pe 5

def addThenQpQuiet (pe : BitVec 16) : List Action :=
  [.reserve 0 (addQp pe), .checkAvailability 0, .store 0, .store 0, .store 0, .store 0, .store 0,
    .store 0, .finish 0, .reserve 0 (.quietQp pe oneQp), .checkAvailability 1, .store 1,
    .store 1, .pollBase, .readBase, .pollEntry, .pollEntry, .pollEntry, .pollEntry, .pollEntry,
    .handle, .update, .pollBase, .readBase, .pollEntry, .handle, .update, .finish 1]

def fullQuiet : List Action :=
  [.quiet 1, .announceQuiet 0, .checkQuiet, .readQuiet, .testQuiet, .quietAll, .ackQuiet,
    .finishQuiet 0]

theorem quietSound_addThenQpQuiet : ∃ s,
    exec (restrict (ReservesOnRail twoRails) (step twoRails)) init (addThenQpQuiet 2 ++ fullQuiet) =
      some s ∧ s.QuietSound twoRails := by
  exact exists_of_exec (fun _ => True) (by decide +kernel) fun _ hs _ =>
    quietSound_of_reachable (.of_exec hs)

/-- The QP quiet of PE 3 returns after a quiet of PE 2, while the atomic went to PE 3. -/
theorem not_quietSound_addThenQpQuiet : ∃ s,
    exec (step twoRails) init (addThenQpQuiet 3) = some s ∧
      s.acts = [.request 0 [.post 3 5], .request 1 [.quiet 2 5]] ∧ ¬ s.QuietSound twoRails := by
  refine exists_of_exec (fun s =>
    s.acts = [.request 0 [.post 3 5], .request 1 [.quiet 2 5]] ∧
      s.reservations = [⟨0, 0, addQp 3, .returned, 6⟩, ⟨0, 48, .quietQp 3 oneQp, .returned, 2⟩])
    (by decide +kernel) ?_
  rintro s - ⟨hacts, hreservations⟩
  refine ⟨hacts, fun hsound => ?_⟩
  have hnamed : (addQp 3).NamedBy twoRails.job 3 oneQp := ⟨3, 5, rfl, by decide, by decide⟩
  obtain ⟨-, act, hact, hcover⟩ := hsound.qpQuiet 1 _ 3 oneQp
    (by rw [hreservations]; rfl) rfl rfl 0 _ (by decide) (by rw [hreservations]; rfl) hnamed
  obtain ⟨call, hcall, hcovers⟩ := hcover 3 5 (by decide)
  rw [hacts] at hact
  obtain ⟨-, htail⟩ := List.cons.inj (hact.eq_of_length rfl)
  obtain ⟨rfl, -⟩ := List.cons.inj htail
  obtain rfl := mem_singleton.mp hcall
  exact absurd hcovers.1 (by decide)

end Channel

end Nvshmem.Proxy
