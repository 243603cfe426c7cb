import Nvshmem.Proxy.FetchRequests

/-! # Gets are covered by quiets

In every run the calls are consistent with what is on the channel and with what the proxy has done.
So a get reads only after a quiet of the transport has waited for its operation, if its quiet names
the queue pair that the operation is on. The request of a get by a single thread names none, while
its quiet names the one of the call.
-/

namespace Nvshmem.Proxy.Fetch

open Lists Transition List Option Fetch.Call Channel State

section Invariant

def Call.Quieted (n : ℕ) (c : Call) : Prop := ∃ j ∈ c.quiet, j < n

/-- The requests that a call has made in its phase, after the proxy has handled a number of them. -/
def User.Consistent (cfg : Config) (n : ℕ) (u : User) : Prop :=
  match u.phase with
  | .waiting | .ready => u.request = none ∧ u.quiet = none ∧ u.results = []
  | .issued => u.request ≠ none ∧ u.quiet = none ∧ u.results = []
  | .quieting => u.request ≠ none ∧ u.awaitsQuiet cfg = true ∧ u.results = []
  | .quieted | .bumping _ => u.request ≠ none ∧ u.awaitsQuiet cfg = true ∧ u.Quieted n ∧
      u.results = []
  | .reading | .releasing _ | .released =>
      u.request ≠ none ∧ (u.awaitsQuiet cfg = true → u.Quieted n)

def State.calls (s : State) : List Call := s.users.map User.toCall

structure Inv (cfg : Config) (s : State) : Prop where
  sound : s.channel.Sound cfg.channel
  ib : ∃ count, Ib.System.Inv cfg.ib s.ib count
  length_eq : s.users.length = s.head
  head_le : s.head ≤ 2 ^ 56
  linked : Linked cfg s.calls s.channel.requests
  progress : Progress cfg s.calls s.channel.handledCount s.ib.uses s.posts s.waits
  consistent : ∀ u ∈ s.users, u.Consistent cfg s.channel.handledCount

variable {cfg : Config} {s t : State} {u u' : User} {k m n : ℕ} {c : Call} {channel : Channel}

theorem Call.Quieted.mono (h : c.Quieted m) (hle : m ≤ n) : c.Quieted n := by
  obtain ⟨j, hj, hlt⟩ := h
  exact ⟨j, hj, hlt.trans_le hle⟩

theorem User.Consistent.mono (h : u.Consistent cfg m) (hle : m ≤ n) : u.Consistent cfg n := by
  unfold User.Consistent at h ⊢
  cases hphase : u.phase with
  | waiting | ready | issued | quieting =>
    rw [hphase] at h
    exact h
  | quieted | bumping _ =>
    rw [hphase] at h
    exact ⟨h.1, h.2.1, h.2.2.1.mono hle, h.2.2.2⟩
  | reading | releasing _ | released =>
    rw [hphase] at h
    exact ⟨h.1, fun hq => (h.2 hq).mono hle⟩

namespace Inv

theorem getElem?_calls (hu : s.users[k]? = some u) : s.calls[k]? = some u.toCall := by
  rw [calls, getElem?_map, hu, map_some]

theorem init (flag : ℕ → ℕ) : Inv cfg (.init cfg flag) where
  sound := .init
  ib := ⟨0, .start cfg.qps_le⟩
  length_eq := rfl
  head_le := Nat.zero_le _
  linked := .init
  progress := .init
  consistent _ hu := absurd hu not_mem_nil

section User

variable (h : Inv cfg s) (hu : s.users[k]? = some u)
include h hu

theorem setUser (hcall : u'.toCall = u.toCall)
    (hconsistent : u'.Consistent cfg s.channel.handledCount) :
    Inv cfg { s with users := s.users.set k u' } := by
  have hcalls : calls { s with users := s.users.set k u' } = s.calls :=
    map_set_eq User.toCall hu hcall
  exact { h with
    length_eq := (length_set ..).trans h.length_eq
    linked := hcalls ▸ h.linked
    progress := hcalls ▸ h.progress
    consistent := forall_mem_set h.consistent hconsistent }

theorem storeFlag {flag : ℕ} (hcall : u'.toCall = u.toCall)
    (hconsistent : u'.Consistent cfg s.channel.handledCount) :
    Inv cfg (s.storeFlag cfg k flag u') :=
  { h.setUser hu hcall hconsistent with }

theorem reserve {thread : ℕ} {req : Request}
    (hs : s.channel.step cfg.channel (.reserve thread req) = some channel)
    (hlinked : Linked cfg (s.calls.set k u'.toCall) (s.channel.requests ++ [req]))
    (hfor : ∀ p : Post, p.For cfg s.ib.uses k u.toCall → p.For cfg s.ib.uses k u'.toCall)
    (hreq : ∀ i ∈ u'.request, i < s.channel.requests.length → i ∈ u.request)
    (hquiet : ∀ j ∈ u'.quiet, j < s.channel.requests.length → j ∈ u.quiet)
    (hquiets : u'.QuietsPost cfg → u.QuietsPost cfg)
    (hconsistent : u'.Consistent cfg s.channel.handledCount) :
    Inv cfg { s with channel := channel, users := s.users.set k u' } := by
  have hcount := handledCount_of_step hs (by simp)
  have hle := h.sound.inv.handledCount_le
  have hcalls : calls { s with channel := channel, users := s.users.set k u' } =
      s.calls.set k u'.toCall := map_set
  refine ⟨h.sound.step hs, h.ib, (length_set ..).trans h.length_eq, h.head_le, ?_, ?_, ?_⟩
  · rw [hcalls, requests_of_step hs]
    exact hlinked
  · rw [hcalls, hcount]
    exact h.progress.set (getElem?_calls hu) hfor (fun i hi hlt => hreq i hi (hlt.trans_le hle))
      (fun j hj hlt => hquiet j hj (hlt.trans_le hle)) hquiets
  · rw [hcount]
    exact forall_mem_set h.consistent hconsistent

theorem issue (hphase : u.phase = .ready)
    (hs : s.channel.step cfg.channel (.reserve u.thread (u.deviceRequest cfg k)) = some channel) :
    Inv cfg { s with
      channel := channel
      users := s.users.set k
        { u with phase := .issued, request := some s.channel.requests.length } } := by
  have hconsistent := h.consistent u (mem_of_getElem? hu)
  rw [User.Consistent, hphase] at hconsistent
  obtain ⟨hrequest, hquiet, hresults⟩ := hconsistent
  refine h.reserve hu hs (h.linked.issue (getElem?_calls hu) hrequest hquiet) ?_ ?_
    (fun j hj _ => hj) id ⟨some_ne_none _, hquiet, hresults⟩
  · intro p hfor
    exact absurd (hrequest.symm.trans hfor.request) (some_ne_none _).symm
  · intro i hi hlt
    exact absurd (some.inj hi) hlt.ne'

theorem quiet (hphase : u.phase = .issued) (hawaits : u.awaitsQuiet cfg = true)
    (hs : s.channel.step cfg.channel (.reserve u.thread u.quietRequest) = some channel) :
    Inv cfg { s with
      channel := channel
      users := s.users.set k
        { u with phase := .quieting, quiet := some s.channel.requests.length } } := by
  have hconsistent := h.consistent u (mem_of_getElem? hu)
  rw [User.Consistent, hphase] at hconsistent
  obtain ⟨hrequest, hquiet, hresults⟩ := hconsistent
  obtain ⟨i, hi⟩ := ne_none_iff_exists'.mp hrequest
  refine h.reserve hu hs (h.linked.addQuiet (getElem?_calls hu) hi) ?_ (fun i hi _ => hi) ?_ id
    ⟨hrequest, hawaits, hresults⟩
  · intro p hfor
    exact ⟨hfor.request, hfor.landing, hfor.uses_ne, hfor.uses⟩
  · intro j hj hlt
    exact absurd (some.inj hj) hlt.ne'

end User

theorem onChannel (h : Inv cfg s) {a : Proxy.Action}
    (hs : s.channel.step cfg.channel a = some channel) (ha : a ≠ .handle)
    (hplain : ∀ req ∈ a.reserved, Plain cfg req) : Inv cfg { s with channel := channel } := by
  have hcount := handledCount_of_step hs ha
  refine ⟨h.sound.step hs, h.ib, h.length_eq, h.head_le, ?_, ?_, ?_⟩
  · rw [requests_of_step hs]
    exact h.linked.plain hplain
  · rw [hcount]
    exact h.progress
  · rw [hcount]
    exact h.consistent

theorem lt_two_pow (h : Inv cfg s) (hk : s.calls[k]? = some c) : k < 2 ^ 56 := by
  have hlt := (List.getElem?_eq_some_iff.mp hk).1
  rw [calls, length_map, h.length_eq] at hlt
  exact hlt.trans_le h.head_le

theorem deviceRequest_not_plain (h : Inv cfg s) (hk : s.calls[k]? = some c) :
    ¬ Plain cfg (c.deviceRequest cfg k) := by
  rw [Plain, landing_deviceRequest (h.lt_two_pow hk)]
  exact some_ne_none _

theorem mem_endpoints (h : Inv cfg s) {p : Post} {i : ℕ} (hk : s.calls[k]? = some c)
    (hi : i ∈ c.request) (hquiets : c.QuietsPost cfg) (hfor : p.For cfg s.ib.uses k c) :
    ∀ use ∈ p.uses, use.ep ∈
      (cfg.channel.job.calls c.quietRequest.decoded).flatMap (s.endpoints cfg) := by
  intro use huse
  obtain ⟨hmem, hme, hpe, hhandle⟩ := hfor.uses use huse
  rw [hquiets.postPe_eq] at hpe
  rw [hquiets.postQp_eq] at hhandle
  have hsel : use.SelectsDevice cfg.ib := by
    rw [Ib.Use.SelectsDevice, hhandle, handleOf]
    split_ifs with hhost hdefault hany
    · trivial
    · exact hquiets.2.1 (BitVec.eq_of_toNat_eq hdefault)
    · exact absurd hany hquiets.1
    · exact hdefault
  obtain ⟨count, hib⟩ := h.ib
  have hep := hib.mem_quiet_of_selectsDevice hmem hsel
  rw [hme, hpe, hhandle, handleOf_qpIndex] at hep
  have hjob : c.pe.toNat < cfg.channel.job.npes := by
    have hin := h.sound.inJob _ (mem_of_getElem? (h.linked.request k c hk i hi))
    unfold deviceRequest at hin
    split at hin <;> exact hin
  have hnamed : c.pe.toNat ∈ cfg.channel.job.named c.pe := by
    rw [Job.named]
    split_ifs
    · exact mem_range.mpr hjob
    · exact mem_singleton_self _
  exact mem_flatMap.mpr ⟨_, quiet_mem_calls hjob hnamed (mem_singleton_self _), hep⟩

theorem linked_of_handle (h : Inv cfg s) (hs : s.channel.step cfg.channel .handle = some channel) :
    Linked cfg s.calls channel.requests := by
  rw [requests_of_step hs]
  exact h.linked.plain fun req hreq => absurd hreq not_mem_nil

theorem pieces_pos (chunks : ℕ) (posted : Posted) : 0 < pieces chunks posted := by
  cases posted <;> exact Nat.succ_pos _

theorem post (h : Inv cfg s) {chunks pe : ℕ} {qp : BitVec 32} {ib : Ib.System}
    {words : List (BitVec 64)} {result : Handled}
    (hs : s.channel.step cfg.channel .handle = some channel)
    (hhost : channel.host = .handled words result)
    (hcalls : cfg.channel.job.calls result.posted = [.post pe qp])
    (hib : exec (Ib.System.step cfg.ib) s.ib (.replicate (State.pieces chunks result.posted) (.post
      cfg.channel.job.mype (handleOf qp) pe)) = some ib) :
    Inv cfg { s with
      channel := channel
      ib := ib
      posts := s.posts ++ ((landing cfg result.posted).map fun l =>
        ⟨s.channel.consumed.length, ib.uses.drop s.ib.uses.length, l, .posted⟩).toList } := by
  obtain ⟨hcount, hcount', req, words', hreq, hhost'⟩ := h.sound.handle hs
  obtain ⟨-, rfl⟩ := HostPhase.handled.inj (hhost.symm.trans hhost')
  obtain ⟨count, hinv⟩ := h.ib
  obtain ⟨hinv', uses, huses, hlen, hall⟩ := hinv.exec_post hib
  have hprogress := h.progress.mono (huses ▸ subset_append_left ..) (List.Subset.refl _)
  rw [hcount] at hprogress
  have hnotquiet : ∀ (k : ℕ) (c : Call), s.calls[k]? = some c → s.channel.consumed.length ∉ c.quiet := by
    intro k c hk hj
    cases (h.linked.quiet k c hk _ hj).1.symm.trans hreq
    have hpost : .post pe qp ∈ cfg.channel.job.calls c.quietRequest.decoded :=
      hcalls ▸ mem_singleton_self _
    obtain ⟨pe', htarget, -⟩ := target_of_post hpost
    cases htarget
  refine ⟨h.sound.step hs, ⟨count, hinv'⟩, h.length_eq, h.head_le, h.linked_of_handle hs, ?_, ?_⟩
  · have hdrop : ib.uses.drop s.ib.uses.length = uses := by rw [huses, drop_left]
    rw [hcount', hdrop]
    obtain hplain | ⟨k, c, hk, hc⟩ := h.linked.owner _ req hreq
    · rw [Plain] at hplain
      simp only [hplain, map_none, toList_none, append_nil]
      refine hprogress.pass h.linked (List.Subset.refl _) (fun k c hk hi => ?_)
        fun k c hk _ hj => absurd hj (hnotquiet k c hk)
      cases (h.linked.request k c hk _ hi).symm.trans hreq
      exact h.deviceRequest_not_plain hk hplain
    · cases (h.linked.request k c hk _ hc).symm.trans hreq
      rw [Call.calls_deviceRequest] at hcalls
      obtain ⟨rfl, rfl⟩ := Call.post.inj (List.cons.inj hcalls).1
      simp only [Call.landing_deviceRequest (h.lt_two_pow hk), map_some, toList_some]
      refine hprogress.post (p := ⟨_, uses, _, _⟩) hk ⟨hc, rfl, ?_, ?_⟩ rfl hnotquiet h.linked
      · exact ne_nil_of_length_pos (hlen ▸ pieces_pos _ _)
      · intro use huse
        obtain ⟨hme, hhandle, hpe⟩ := hall use huse
        exact ⟨huses ▸ mem_append_right _ huse, hme, hpe, hhandle⟩
  · rw [hcount']
    exact fun u hu => (h.consistent u hu).mono (hcount ▸ Nat.le_succ _)

theorem wait (h : Inv cfg s) {words : List (BitVec 64)} {result : Handled}
    (hs : s.channel.step cfg.channel .handle = some channel)
    (hhost : channel.host = .handled words result)
    (hcalls : ∀ pe qp, cfg.channel.job.calls result.posted ≠ [.post pe qp])
    (hquiet : s.Quiet cfg (cfg.channel.job.calls result.posted)) :
    Inv cfg { s with
      channel := channel
      waits := s.waits ++ [⟨s.channel.consumed.length,
        (cfg.channel.job.calls result.posted).flatMap (s.endpoints cfg)⟩] } := by
  obtain ⟨hcount, hcount', req, words', hreq, hhost'⟩ := h.sound.handle hs
  obtain ⟨-, rfl⟩ := HostPhase.handled.inj (hhost.symm.trans hhost')
  have hprogress := h.progress
  rw [hcount] at hprogress
  refine ⟨h.sound.step hs, h.ib, h.length_eq, h.head_le, h.linked_of_handle hs, ?_, ?_⟩
  · rw [hcount']
    refine hprogress.pass h.linked (subset_append_left ..) ?_ ?_
    · intro k c hk hi
      cases (h.linked.request k c hk _ hi).symm.trans hreq
      exact hcalls _ _ (calls_deviceRequest cfg c k)
    · intro k c hk hquiets hj p hp hfor
      cases (h.linked.quiet k c hk _ hj).1.symm.trans hreq
      have hmem := h.mem_endpoints hk hfor.request hquiets hfor
      obtain ⟨use, huse⟩ := exists_mem_of_ne_nil _ hfor.uses_ne
      exact ⟨hquiet p hp ⟨use, huse, hmem use huse⟩, ⟨_, _⟩,
        mem_append_right _ (mem_singleton_self _), (hprogress.isFor p hp).1, hmem⟩
  · rw [hcount']
    exact fun u hu => (h.consistent u hu).mono (hcount ▸ Nat.le_succ _)

theorem quieted_of_returned (h : Inv cfg s) (hu : s.users[k]? = some u)
    (hret : s.Returned u.quiet) : u.Quieted s.channel.handledCount := by
  obtain ⟨j, hj, r, hr, hphase⟩ := hret
  have hreq := (h.linked.quiet k _ (getElem?_calls hu) j hj).1
  exact ⟨j, hj, h.sound.lt_handledCount hreq rfl hr hphase⟩

theorem step (h : Inv cfg s) {a : Action} (ht : s.step cfg a = some t) : Inv cfg t := by
  have hconsistent : ∀ {k : ℕ} {u : User}, s.users[k]? = some u →
      u.Consistent cfg s.channel.handledCount :=
    fun hu => h.consistent _ (mem_of_getElem? hu)
  cases change_of_step ht with
  | start hlt =>
    refine ⟨h.sound, h.ib, ?_, hlt, ?_, ?_, forall_mem_concat h.consistent ⟨rfl, rfl, rfl⟩⟩
    · rw [length_append, h.length_eq, length_singleton]
    · rw [calls, map_append]
      exact h.linked.start rfl rfl
    · rw [calls, map_append]
      exact h.progress.start rfl rfl
  | waitSlot hu hphase | loadBump hu hphase | loadRelease hu hphase =>
    have hold := hconsistent hu
    rw [User.Consistent, hphase] at hold
    exact h.setUser hu rfl hold
  | issue hu hphase hs => exact h.issue hu hphase hs
  | quiet hu hphase hawaits hs => exact h.quiet hu hphase hawaits hs
  | @endQuiet k u phase hu hphase hret hnext =>
    have hold := hconsistent hu
    rw [User.Consistent, hphase] at hold
    have hquieted := h.quieted_of_returned hu hret
    cases hop : u.operation with
    | get coalesced size =>
      rw [hop] at hnext
      exact h.setUser hu rfl (hnext ▸ ⟨hold.1, fun _ => hquieted⟩)
    | amo args fetches =>
      rw [hop] at hnext
      exact h.setUser hu rfl (hnext ▸ ⟨hold.1, hold.2.1, hquieted, hold.2.2⟩)
  | storeBump hu hphase =>
    have hold := hconsistent hu
    rw [User.Consistent, hphase] at hold
    exact h.storeFlag hu rfl ⟨hold.1, fun _ => hold.2.2.1⟩
  | @waitReply k u hu hphase hawaits hflag =>
    have hold := hconsistent hu
    rw [User.Consistent, hphase] at hold
    refine h.setUser hu rfl ⟨hold.1, fun hq => ?_⟩
    exact absurd (hawaits.symm.trans hq) Bool.false_ne_true
  | @read k u hu hphase =>
    have hold := hconsistent hu
    rw [User.Consistent, hphase] at hold
    refine h.setUser hu rfl ?_
    rw [hphase]
    exact hold
  | storeRelease hu hphase =>
    have hold := hconsistent hu
    rw [User.Consistent, hphase] at hold
    exact h.storeFlag hu rfl hold
  | @land i p hp hstatus =>
    have hdone : { p with status := .landed }.Complete cfg := by
      unfold Post.Complete
      split <;> simp
    exact { h with progress := h.progress.status hp .landed fun _ => hdone }
  | @reply i addr retflag p hp hlanding hstatus hquiet =>
    have hdone : { p with status := .replied }.Complete cfg := by
      unfold Post.Complete
      split <;> simp
    exact { h with progress := h.progress.status hp .replied fun _ => hdone }
  | connect hib =>
    obtain ⟨count, hinv⟩ := h.ib
    have hinv' := hinv.step hib
    simp only [Ib.System.step, ite_none_right_eq_some, some.injEq] at hib
    obtain ⟨-, rfl⟩ := hib
    exact { h with ib := hinv' }
  | post hs hhost hcalls hib => exact h.post hs hhost hcalls hib
  | wait hs hhost hcalls hquiet => exact h.wait hs hhost hcalls hquiet
  | quietAll hs =>
    have hnext := h.onChannel hs (by simp) fun req hreq => absurd hreq not_mem_nil
    exact { hnext with
      progress := hnext.progress.mono (List.Subset.refl _) (subset_append_left ..) }
  | @channel a channel hothers hs =>
    refine h.onChannel hs ?_ ?_
    · rintro rfl
      exact hothers
    · intro req hreq
      cases a with
      | reserve thread request =>
        rw [mem_singleton.mp hreq]
        exact hothers.2
      | _ => exact absurd hreq not_mem_nil

end Inv

end Invariant

section Covered

/-- The request of a call has been posted, and then a quiet of the transport has returned that waits
for the endpoints it was posted on. -/
def State.Covered (s : State) (c : Call) : Prop :=
  ∃ i ∈ c.request, ∃ p ∈ s.posts, p.number = i ∧ p.uses ≠ [] ∧ p.WaitedFor s.waits

instance (s : State) (c : Call) : Decidable (s.Covered c) :=
  inferInstanceAs (Decidable (∃ i ∈ c.request, _))

variable {cfg : Config} {s : State} {u : User} {k : ℕ}

namespace Inv

theorem of_reachable {flag : ℕ → ℕ} (hs : Reachable (State.step cfg) (.init cfg flag) s) :
    Inv cfg s :=
  hs.invariant (init flag) fun h ht => h.step ht

theorem quieted_of_results (h : Inv cfg s) (hu : u ∈ s.users) (hresults : u.results ≠ [])
    (hawaits : u.awaitsQuiet cfg = true) : u.Quieted s.channel.handledCount := by
  have hconsistent := h.consistent u hu
  unfold User.Consistent at hconsistent
  cases hphase : u.phase with
  | waiting | ready | issued | quieting =>
    rw [hphase] at hconsistent
    exact absurd hconsistent.2.2 hresults
  | quieted | bumping _ =>
    rw [hphase] at hconsistent
    exact absurd hconsistent.2.2.2 hresults
  | reading | releasing _ | released =>
    rw [hphase] at hconsistent
    exact hconsistent.2 hawaits

theorem covered (h : Inv cfg s) {c : Call} (hk : s.calls[k]? = some c)
    (hquiets : c.QuietsPost cfg) (hquieted : c.Quieted s.channel.handledCount) :
    s.Covered c := by
  obtain ⟨j, hj, hlt⟩ := hquieted
  obtain ⟨-, i, hi, hij⟩ := h.linked.quiet k c hk j hj
  obtain ⟨p, hp, rfl⟩ := h.progress.posted k c hk i hi (hij.trans hlt)
  have hfor := h.progress.for_of_number h.linked hk hp hi
  obtain ⟨-, hwait⟩ := h.progress.covered k c hk hquiets j hj hlt p hp hi
  exact ⟨p.number, hi, p, hp, rfl, hfor.uses_ne, hwait⟩

end Inv

/-- In every run, a get that has read a result was covered by a quiet, if its quiet names the QP of
its request: the get of a warp, or one on the default QP. -/
theorem covered_of_reachable (cfg : Config) (flag : ℕ → ℕ) (s : State)
    (hs : Reachable (State.step cfg) (.init cfg flag) s) (u : User) (hu : u ∈ s.users)
    (coalesced : Bool) (size : ValueSize) (hget : u.operation = .get coalesced size)
    (hresults : u.results ≠ []) (hqp : coalesced = true ∨ u.qp = qpDefault)
    (hany : u.qp.toNat ≠ Ibgda.qpAny) (hdefault : u.qp = qpDefault → 0 < cfg.ibNumRcPerDevice) :
    s.Covered u.toCall := by
  have h := Inv.of_reachable hs
  obtain ⟨k, hk⟩ := mem_iff_getElem?.mp hu
  have hawaits : u.awaitsQuiet cfg = true := by rw [awaitsQuiet, hget]
  refine h.covered (Inv.getElem?_calls hk) ⟨hany, hdefault, ?_⟩
    (h.quieted_of_results hu hresults hawaits)
  rw [hget]
  exact hqp

def oneSlot : Config where
  channel := ⟨10, by decide, Channel.fourEntries.job⟩
  mype_lt := by decide
  ibNumRcPerDevice := 1
  qps_le := by decide
  logSlots := 0
  gBuf := 4096
  gCoalescingBuf := 8192
  gBuf_le := by decide
  gCoalescingBuf_le := by decide
  apart := by decide
  atomicsCompleteOnQuiet := false

def transferred (i entries : ℕ) : List Action :=
  .channel (.checkAvailability i) :: .replicate entries (.channel (.store i)) ++
    .channel .pollBase :: .channel .readBase :: .replicate (entries - 1) (.channel .pollEntry) ++
    [.handle 0, .channel .update, .channel (.finish i)]

def getRun (k i : ℕ) (coalesced : Bool) (qp : BitVec 32) (landed : List Action) : List Action :=
  [.start k (.get coalesced .four) 0 1 qp, .waitSlot k, .issue k] ++ transferred i 4 ++ landed ++
    .quiet k :: transferred (i + 1) 2 ++ [.endQuiet k, .read k]

theorem covered_warpOnUserQp : ∃ s, exec (State.step oneSlot) (.init oneSlot fun _ => 0)
    (.connect 1 :: getRun 0 0 true 4 [.land 0]) = some s ∧
      ∃ u ∈ s.users, u.qp.toNat ∈ (s.ib.world 0).handles ∧ u.results ≠ [] ∧ s.Covered u.toCall := by
  refine exists_of_exec (fun s => ∃ u ∈ s.users, u.qp.toNat ∈ (s.ib.world 0).handles ∧
    u.operation = .get true .four ∧ u.results ≠ [] ∧ u.qp = 4) (by decide +kernel) ?_
  rintro s hs ⟨u, hu, hknown, hget, hresults, hqp⟩
  refine ⟨u, hu, hknown, hresults, ?_⟩
  refine covered_of_reachable oneSlot _ s (.of_exec hs) u hu true .four hget hresults (.inl rfl) ?_ ?_
  · rw [hqp]
    decide
  · exact fun _ => Nat.one_pos

/-- A get of a single thread on a QP that was created reads before its request, which is on the
default QP, has been waited for. -/
theorem not_covered_threadOnUserQp : ∃ s, exec (State.step oneSlot) (.init oneSlot fun _ => 0)
    (.connect 1 :: getRun 0 0 false 4 []) = some s ∧
      ∃ u ∈ s.users, u.qp.toNat ∈ (s.ib.world 0).handles ∧ u.operation = .get false .four ∧
        u.results ≠ [] ∧ ¬ s.Covered u.toCall := by
  exact exists_of_exec (fun s => ∃ u ∈ s.users, u.qp.toNat ∈ (s.ib.world 0).handles ∧
    u.operation = .get false .four ∧ u.results ≠ [] ∧ ¬ s.Covered u.toCall) (by decide +kernel)
    fun _ _ => id

end Covered

end Nvshmem.Proxy.Fetch
