import Nvshmem.Proxy.FetchCovered
import Nvshmem.Ring.Turns

/-! # The slots of the g-buffer

The flag of a slot is twice the number of turns that have ended at it, and one more when the result
of a fetching atomic is there. So a call that has found the flag of its lap is alone at its slot until
it releases it, and what lands there is the result of its own request, if the quiets of the calls wait
for their operations and the flags are zero at first.
-/

namespace Nvshmem.Proxy.Fetch

open Lists Transition List Option Function Fetch.Call Config User

section Addresses

variable (cfg : Config) {k k' : ℕ}

def Config.slots : ℕ := 2 ^ cfg.logSlots

theorem Config.flag_eq_slots (k : ℕ) : cfg.flag k = k / cfg.slots * 2 := cfg.flag_eq k

theorem elem_eq_iff : cfg.elem k = cfg.elem k' ↔ k % cfg.slots = k' % cfg.slots := by
  rw [elem_eq, elem_eq, Nat.add_left_cancel_iff]
  exact Nat.mul_right_inj (by decide)

theorem cell_ne {c c' : Call} (h : k % cfg.slots ≠ k' % cfg.slots) :
    c.cell cfg k ≠ c'.cell cfg k' := by
  have hcells : ∀ (c : Call) (k : ℕ), c.cell cfg k = cfg.elem k ∨ c.cell cfg k = cfg.coalesced k := by
    intro c k
    unfold cell
    split
    · exact .inr rfl
    · exact .inl rfl
    · exact .inl rfl
  have happart := cfg.apart
  rw [slots] at h
  simp only [elem_eq, coalesced_eq, gElemBytes, warpSize] at hcells happart
  rcases hcells c k with hc | hc <;> rcases hcells c' k' with hc' | hc' <;> rw [hc, hc'] <;> omega

end Addresses

def UserPhase.Past : UserPhase → Prop
  | .reading | .releasing _ | .released => True
  | _ => False

def Call.fetches (c : Call) : Bool :=
  match c.operation with
  | .get .. => false
  | .amo .. => true

namespace User

variable (cfg : Config) (flag : ℕ → ℕ) (mem : ℕ → Option ℕ) (posts : List Post) (k : ℕ) (u : User)

def turn : Ring.Turn :=
  match u.phase with
  | .waiting => .pending
  | .released => .ended
  | _ => .active

def Raised : Prop :=
  match u.operation with
  | .get .. => False
  | .amo .. =>
    if cfg.atomicsCompleteOnQuiet then u.phase.Past
    else ∃ p ∈ posts, p.number ∈ u.request ∧ p.status = .replied

def Loaded : Prop :=
  match u.phase with
  | .quieted => u.fetches = true
  | .bumping flag => u.fetches = true ∧ flag = cfg.flag k
  | .releasing flag => flag + u.release = cfg.flag k + 2 ∧ u.results.length = u.lanes
  | .released => u.results.length = u.lanes
  | _ => True

structure AtSlot : Prop where
  flag_eq : u.turn = .active → u.Raised cfg posts ∧ flag (cfg.elem k) = cfg.flag k + 1 ∨
    ¬ u.Raised cfg posts ∧ flag (cfg.elem k) = cfg.flag k
  loaded : u.Loaded cfg k
  raised : u.fetches = true → u.phase.Past → u.Raised cfg posts
  mem_eq : u.turn = .active → ∀ p ∈ posts, p.number ∈ u.request → p.status ≠ .posted →
    mem (u.cell cfg k) = some p.number
  results : ∀ v ∈ u.results, v = u.request ∧ v ≠ none

end User

def turnAt (users : List User) (k : ℕ) : Ring.Turn := (users[k]?.map User.turn).getD .pending

structure Slots (cfg : Config) (s : State) (laps : ℕ → ℕ) : Prop where
  turns : Ring.Turns cfg.slots (turnAt s.users) laps
  idle : ∀ k, (∀ k', k' % cfg.slots = k % cfg.slots → turnAt s.users k' ≠ .active) →
    s.flag (cfg.elem k) = laps (k % cfg.slots) * 2
  user : ∀ (k : ℕ) (u : User), s.users[k]? = some u → u.AtSlot cfg s.flag s.mem s.posts k

section Steps

variable {cfg : Config} {flag : ℕ → ℕ} {mem : ℕ → Option ℕ} {posts : List Post} {k k' x : ℕ}
  {u u' : User} {users : List User}

theorem turnAt_eq (hu : users[k]? = some u) : turnAt users k = u.turn := by
  rw [turnAt, hu, map_some, getD_some]

theorem turnAt_set (hu : users[k]? = some u) :
    turnAt (users.set k u') = update (turnAt users) k u'.turn := by
  funext k'
  rw [update_apply]
  split_ifs with hk
  · rw [hk]
    exact turnAt_eq (getElem?_set_self (List.getElem?_eq_some_iff.mp hu).1)
  · rw [turnAt, getElem?_set_ne (Ne.symm hk), turnAt]

theorem turnAt_set_of_eq (hu : users[k]? = some u) (hturn : u'.turn = u.turn) :
    turnAt (users.set k u') = turnAt users := by
  rw [turnAt_set hu, hturn, ← turnAt_eq hu, update_eq_self]

theorem exists_of_turnAt (h : turnAt users k ≠ .pending) :
    ∃ u, users[k]? = some u ∧ turnAt users k = u.turn := by
  cases hu : users[k]? with
  | none =>
    rw [turnAt, hu] at h
    exact absurd rfl h
  | some u => exact ⟨u, rfl, turnAt_eq hu⟩

namespace User

theorem raised_congr (hop : u'.operation = u.operation) (hreq : u'.request = u.request)
    (hpast : u.awaitsQuiet cfg = true → u.fetches = true → (u'.phase.Past ↔ u.phase.Past)) :
    u'.Raised cfg posts ↔ u.Raised cfg posts := by
  unfold Raised
  rw [hop, hreq]
  cases hu : u.operation with
  | get coalesced size => exact Iff.rfl
  | amo args fetches =>
    cases hquiet : cfg.atomicsCompleteOnQuiet with
    | true =>
      have hawaits : u.awaitsQuiet cfg = true := by
        rw [Call.awaitsQuiet, hu]
        exact hquiet
      have hfetches : u.fetches = true := by rw [Call.fetches, hu]
      exact hpast hawaits hfetches
    | false => exact Iff.rfl

theorem not_raised (hpast : ¬ u.phase.Past)
    (h : u.awaitsQuiet cfg = true ∨ ∀ p ∈ posts, p.number ∉ u.request) : ¬ u.Raised cfg posts := by
  unfold Raised
  cases hop : u.operation with
  | get coalesced size => exact id
  | amo args fetches =>
    split_ifs with hquiet
    · exact hpast
    · rintro ⟨p, hp, hnumber, -⟩
      rw [awaitsQuiet, hop] at h
      exact h.elim hquiet fun h => h p hp hnumber

theorem AtSlot.flag_of_not_raised (h : u.AtSlot cfg flag mem posts k) (hactive : u.turn = .active)
    (hnot : ¬ u.Raised cfg posts) : flag (cfg.elem k) = cfg.flag k :=
  ((h.flag_eq hactive).resolve_left fun hraised => hnot hraised.1).2

theorem AtSlot.advance (h : u.AtSlot cfg flag mem posts k) (hop : u'.operation = u.operation)
    (hreq : u'.request = u.request) (hturn : u'.turn = u.turn)
    (hpast : u.awaitsQuiet cfg = true → u.fetches = true → (u'.phase.Past ↔ u.phase.Past))
    (hloaded : u'.Loaded cfg k)
    (hraised : u.fetches = true → u'.phase.Past → u.Raised cfg posts)
    (hresults : ∀ v ∈ u'.results, v = u.request ∧ v ≠ none) :
    u'.AtSlot cfg flag mem posts k := by
  have hiff : u'.Raised cfg posts ↔ u.Raised cfg posts := raised_congr hop hreq hpast
  have hfetches : u'.fetches = u.fetches := by rw [fetches, hop, fetches]
  have hcell : u'.cell cfg k = u.cell cfg k := by rw [cell, hop, cell]
  refine ⟨?_, hloaded, ?_, ?_, ?_⟩
  · rw [hturn, hiff]
    exact h.flag_eq
  · rw [hiff, hfetches]
    exact hraised
  · rw [hturn, hreq, hcell]
    exact h.mem_eq
  · rw [hreq]
    exact hresults

theorem AtSlot.setFlag (h : u.AtSlot cfg flag mem posts k)
    (hne : u.turn = .active → k % cfg.slots ≠ k' % cfg.slots) :
    u.AtSlot cfg (update flag (cfg.elem k') x) mem posts k :=
  { h with
    flag_eq := by
      intro hactive
      rw [update_of_ne fun heq => hne hactive ((elem_eq_iff cfg).mp heq)]
      exact h.flag_eq hactive }

theorem raised_posts {posts' : List Post}
    (h : (∃ p ∈ posts', p.number ∈ u.request ∧ p.status = .replied) ↔
      ∃ p ∈ posts, p.number ∈ u.request ∧ p.status = .replied) :
    u.Raised cfg posts' ↔ u.Raised cfg posts := by
  unfold Raised
  split
  · exact Iff.rfl
  · split_ifs
    · exact Iff.rfl
    · exact h

theorem AtSlot.setPosts (h : u.AtSlot cfg flag mem posts k) {posts' : List Post}
    {mem' : ℕ → Option ℕ}
    (hraised : (∃ p ∈ posts', p.number ∈ u.request ∧ p.status = .replied) ↔
      ∃ p ∈ posts, p.number ∈ u.request ∧ p.status = .replied)
    (hmem : u.turn = .active → ∀ p ∈ posts', p.number ∈ u.request → p.status ≠ .posted →
      mem' (u.cell cfg k) = some p.number) : u.AtSlot cfg flag mem' posts' k := by
  have hiff : u.Raised cfg posts' = u.Raised cfg posts := propext (raised_posts hraised)
  refine ⟨?_, h.loaded, ?_, hmem, h.results⟩
  · rw [hiff]
    exact h.flag_eq
  · rw [hiff]
    exact h.raised

end User

namespace Slots

variable {s : State} {laps : ℕ → ℕ}

theorem init {flag : ℕ → ℕ} (hflag : ∀ k, flag (cfg.elem k) = 0) :
    Slots cfg (.init cfg flag) fun _ => 0 where
  turns := .init
  idle k _ := hflag k
  user _ _ h := by cases h

section Moves

variable (h : Slots cfg s laps)
include h

theorem setUser (hu : s.users[k]? = some u) (hturn : u'.turn = u.turn)
    (hnew : u'.AtSlot cfg s.flag s.mem s.posts k) :
    Slots cfg { s with users := s.users.set k u' } laps := by
  have hturns := turnAt_set_of_eq hu hturn
  refine ⟨?_, ?_, forall_getElem?_set h.user hnew⟩
  · rw [hturns]
    exact h.turns
  · rw [hturns]
    exact h.idle

theorem eq_of_active (hu : s.users[k]? = some u) (hu' : s.users[k']? = some u')
    (hactive : u.turn = .active) (hactive' : u'.turn = .active)
    (hmod : k % cfg.slots = k' % cfg.slots) : k = k' :=
  h.turns.eq_of_active ((turnAt_eq hu).trans hactive) ((turnAt_eq hu').trans hactive') hmod

theorem div_le_laps (hflag : cfg.flag k ≤ s.flag (cfg.elem k)) :
    k / cfg.slots ≤ laps (k % cfg.slots) := by
  rw [flag_eq_slots] at hflag
  by_cases hactive : ∃ k', k' % cfg.slots = k % cfg.slots ∧ turnAt s.users k' = .active
  · obtain ⟨k', hmod, hactive⟩ := hactive
    obtain ⟨u', hu', hturn⟩ := exists_of_turnAt (by rw [hactive]; decide)
    have hlaps := h.turns.active k' hactive
    rw [← (elem_eq_iff cfg).mpr hmod] at hflag
    rw [← hmod]
    obtain ⟨-, heq⟩ | ⟨-, heq⟩ := (h.user k' u' hu').flag_eq (hturn ▸ hactive)
    · rw [heq, flag_eq_slots] at hflag
      omega
    · rw [heq, flag_eq_slots] at hflag
      omega
  · rw [h.idle k fun k' hmod hturn => hactive ⟨k', hmod, hturn⟩] at hflag
    omega

theorem waitSlot (hu : s.users[k]? = some u) (hphase : u.phase = .waiting)
    (hrequest : u.request = none) (hresults : u.results = [])
    (hflag : cfg.flag k ≤ s.flag (cfg.elem k)) :
    Slots cfg { s with users := s.users.set k { u with phase := .ready } } laps := by
  have hpending : turnAt s.users k = .pending := by rw [turnAt_eq hu, turn, hphase]
  have hle := h.div_le_laps hflag
  have hturns := h.turns.start hpending hle
  have hset : turnAt (s.users.set k { u with phase := .ready }) =
      update (turnAt s.users) k .active := turnAt_set hu
  -- nobody else is at the slot, as the turns are taken one after the other
  have hidle : ∀ k', k' % cfg.slots = k % cfg.slots → turnAt s.users k' ≠ .active := by
    intro k' hmod hactive
    have hne : k' ≠ k := by
      rintro rfl
      exact absurd (hpending.symm.trans hactive) (by decide)
    refine hne (hturns.eq_of_active ?_ (update_self ..) hmod)
    rw [update_of_ne hne, hactive]
  have heq : s.flag (cfg.elem k) = cfg.flag k := by
    rw [h.idle k hidle, hturns.active k (update_self ..), flag_eq_slots]
  have hno : ∀ i, i ∉ u.request := by simp [hrequest]
  refine ⟨hset ▸ hturns, ?_, forall_getElem?_set h.user ⟨fun _ => .inr ⟨?_, heq⟩, trivial, ?_, ?_, ?_⟩⟩
  · intro k₀ hnone
    refine h.idle k₀ fun k' hmod hactive => hnone k' hmod ?_
    rw [hset, update_apply]
    split_ifs
    · rfl
    · exact hactive
  · exact not_raised id (.inr fun p _ => hno p.number)
  · exact fun _ hpast => hpast.elim
  · exact fun _ p _ hp => absurd hp (hno p.number)
  · intro v hv
    rw [hresults] at hv
    cases hv

theorem setFlag_of_ne (hu : s.users[k]? = some u) (hactive : u.turn = .active) (k' : ℕ) (u' : User)
    (hne : k' ≠ k) (hu' : s.users[k']? = some u') :
    u'.AtSlot cfg (update s.flag (cfg.elem k) x) s.mem s.posts k' :=
  (h.user k' u' hu').setFlag fun hactive' hmod => hne (h.eq_of_active hu' hu hactive' hactive hmod)

theorem storeFlag (hu : s.users[k]? = some u) (hactive : u.turn = .active)
    (hactive' : u'.turn = .active)
    (hnew : u'.AtSlot cfg (update s.flag (cfg.elem k) x) s.mem s.posts k) :
    Slots cfg (s.storeFlag cfg k x u') laps := by
  have hturns : turnAt (s.users.set k u') = turnAt s.users :=
    turnAt_set_of_eq hu (hactive'.trans hactive.symm)
  refine ⟨hturns ▸ h.turns, fun k₀ hnone => ?_,
    forall_getElem?_set_of_ne (h.setFlag_of_ne hu hactive) hnew⟩
  simp only [State.storeFlag, hturns] at hnone ⊢
  rw [update_of_ne, h.idle k₀ hnone]
  intro heq
  exact hnone k ((elem_eq_iff cfg).mp heq).symm ((turnAt_eq hu).trans hactive)

theorem release (hu : s.users[k]? = some u) (hactive : u.turn = .active) (hended : u'.turn = .ended)
    (hx : x = cfg.flag k + 2) (hnew : u'.AtSlot cfg (update s.flag (cfg.elem k) x) s.mem s.posts k) :
    Slots cfg (s.storeFlag cfg k x u')
      (update laps (k % cfg.slots) (laps (k % cfg.slots) + 1)) := by
  have hturn := (turnAt_eq hu).trans hactive
  have hset : turnAt (s.users.set k u') = update (turnAt s.users) k .ended := by
    rw [turnAt_set hu, hended]
  refine ⟨?_, fun k₀ hnone => ?_, forall_getElem?_set_of_ne (h.setFlag_of_ne hu hactive) hnew⟩
  · exact hset ▸ h.turns.finish hturn
  · simp only [State.storeFlag, hset] at hnone ⊢
    by_cases hmod : k₀ % cfg.slots = k % cfg.slots
    · rw [(elem_eq_iff cfg).mpr hmod, hmod, update_self, update_self, hx,
        h.turns.active k hturn, flag_eq_slots, Nat.add_mul]
    · rw [update_of_ne fun heq => hmod ((elem_eq_iff cfg).mp heq),
        update_of_ne hmod]
      refine h.idle k₀ fun k' hmod' hactive' => hnone k' hmod' ?_
      rw [update_of_ne, hactive']
      rintro rfl
      exact hmod hmod'.symm

theorem start {head : ℕ} (hphase : u.phase = .waiting) (hresults : u.results = []) :
    Slots cfg { s with head := head, users := s.users ++ [u] } laps := by
  have hturns : turnAt (s.users ++ [u]) = turnAt s.users := by
    funext k
    rw [turnAt, turnAt]
    rcases Nat.lt_trichotomy k s.users.length with hlt | rfl | hgt
    · rw [getElem?_append_left hlt]
    · rw [getElem?_concat_length, getElem?_eq_none le_rfl, map_some, turn,
        hphase]
      rfl
    · rw [getElem?_eq_none hgt.le, getElem?_eq_none]
      rw [length_append]
      exact hgt
  refine ⟨hturns ▸ h.turns, fun k hnone => h.idle k (hturns ▸ hnone),
    forall_getElem?_concat h.user ?_⟩
  have hpending : u.turn ≠ .active := by rw [turn, hphase]; decide
  refine ⟨fun hactive => absurd hactive hpending, ?_, ?_, fun hactive => absurd hactive hpending, ?_⟩
  · rw [Loaded, hphase]
    trivial
  · rw [hphase]
    exact fun _ hpast => hpast.elim
  · rw [hresults]
    exact fun v hv => absurd hv not_mem_nil

theorem post {ps : List Post} (hps : ∀ p ∈ ps, p.status = .posted) :
    Slots cfg { s with posts := s.posts ++ ps } laps := by
  refine { h with user := fun k u hu => (h.user k u hu).setPosts ?_ ?_ }
  · constructor
    · rintro ⟨p, hp, hnumber, hstatus⟩
      rcases mem_append.mp hp with hp | hp
      · exact ⟨p, hp, hnumber, hstatus⟩
      · exact absurd ((hps p hp).symm.trans hstatus) (by decide)
    · rintro ⟨p, hp, hnumber, hstatus⟩
      exact ⟨p, mem_append_left _ hp, hnumber, hstatus⟩
  · intro hactive p hp hnumber hstatus
    rcases mem_append.mp hp with hp | hp
    · exact (h.user k u hu).mem_eq hactive p hp hnumber hstatus
    · exact absurd (hps p hp) hstatus

end Moves

end Slots

end Steps

section Results

def NamesPosts (cfg : Config) (s : State) : Prop :=
  ∀ u ∈ s.users, u.awaitsQuiet cfg = true → u.QuietsPost cfg

variable {cfg : Config} {s t : State} {laps : ℕ → ℕ} {k k' i : ℕ} {u u' : User} {p q : Post}

namespace Inv

theorem exists_user (h : Inv cfg s) (hp : p ∈ s.posts) :
    ∃ k u, s.users[k]? = some u ∧ p.For cfg s.ib.uses k u.toCall := by
  obtain ⟨-, k, c, hk, hfor⟩ := h.progress.isFor p hp
  rw [State.calls, getElem?_map] at hk
  obtain ⟨u, hu, rfl⟩ := map_eq_some_iff.mp hk
  exact ⟨k, u, hu, hfor⟩

theorem exists_user_of_fetched (h : Inv cfg s) (hp : p ∈ s.posts) {addr retflag : ℕ}
    (hlanding : p.landing = .fetched addr retflag) :
    ∃ k u, s.users[k]? = some u ∧ p.For cfg s.ib.uses k u.toCall ∧
      (∃ args fetches, u.operation = .amo args fetches) ∧
      addr = cfg.elem k ∧ retflag = cfg.flag k + 1 := by
  obtain ⟨k, u, hu, hfor⟩ := h.exists_user hp
  have heq := hfor.landing.symm.trans hlanding
  rw [Call.landing] at heq
  refine ⟨k, u, hu, hfor, ?_⟩
  cases hop : u.operation with
  | get coalesced size =>
    rw [hop] at heq
    cases heq
  | amo args fetches =>
    rw [hop] at heq
    obtain ⟨rfl, rfl⟩ := Landing.fetched.inj heq
    exact ⟨⟨args, fetches, rfl⟩, rfl, rfl⟩

theorem eq_of_number (h : Inv cfg s) (hp : p ∈ s.posts) (hq : q ∈ s.posts)
    (hnumber : p.number = q.number) : p = q :=
  inj_on_of_nodup_map h.progress.nodup hp hq hnumber

theorem eq_of_request (h : Inv cfg s) (hu : s.users[k]? = some u) (hu' : s.users[k']? = some u')
    (hi : i ∈ u.request) (hi' : i ∈ u'.request) : k = k' :=
  h.linked.eq_of_request k _ (getElem?_calls hu) k' _ (getElem?_calls hu') i hi hi'

theorem request_ne_none (h : Inv cfg s) (hu : u ∈ s.users) (hi : i ∈ u.request) :
    u.phase ≠ .waiting ∧ u.phase ≠ .ready := by
  have hconsistent := h.consistent u hu
  rw [Consistent] at hconsistent
  constructor
  · intro hphase
    rw [hphase] at hconsistent
    exact absurd (hconsistent.1.symm.trans hi) (some_ne_none _).symm
  · intro hphase
    rw [hphase] at hconsistent
    exact absurd (hconsistent.1.symm.trans hi) (some_ne_none _).symm

theorem quieted_of_past (h : Inv cfg s) (hu : u ∈ s.users) (hpast : u.phase.Past)
    (hawaits : u.awaitsQuiet cfg = true) : u.Quieted s.channel.handledCount := by
  have hconsistent := h.consistent u hu
  rw [Consistent] at hconsistent
  cases hphase : u.phase with
  | reading | releasing _ | released =>
    rw [hphase] at hconsistent
    exact hconsistent.2 hawaits
  | _ =>
    rw [hphase] at hpast
    exact hpast.elim

theorem exists_landed (h : Inv cfg s) (hnames : NamesPosts cfg s) (hu : s.users[k]? = some u)
    (hslot : u.AtSlot cfg s.flag s.mem s.posts k) (hpast : u.phase.Past) :
    ∃ p ∈ s.posts, p.number ∈ u.request ∧ p.status ≠ .posted := by
  have hmem := mem_of_getElem? hu
  have hcall := getElem?_calls hu
  cases hawaits : u.awaitsQuiet cfg with
  | true =>
    have hquiets := hnames u hmem hawaits
    obtain ⟨j, hj, hlt⟩ := h.quieted_of_past hmem hpast hawaits
    obtain ⟨-, i, hi, hij⟩ := h.linked.quiet k _ hcall j hj
    obtain ⟨p, hp, rfl⟩ := h.progress.posted k _ hcall i hi (hij.trans hlt)
    have hlanding := (h.progress.for_of_number h.linked hcall hp hi).landing
    obtain ⟨hcomplete, -⟩ := h.progress.covered k _ hcall hquiets j hj hlt p hp hi
    refine ⟨p, hp, hi, ?_⟩
    rw [Post.Complete, hlanding, Call.landing] at hcomplete
    cases hop : u.operation with
    | get coalesced size =>
      rw [hop] at hcomplete
      exact hcomplete
    | amo args fetches =>
      rw [Call.awaitsQuiet, hop] at hawaits
      rw [hop] at hcomplete
      exact hcomplete hawaits
  | false =>
    cases hop : u.operation with
    | get coalesced size =>
      rw [Call.awaitsQuiet, hop] at hawaits
      exact absurd hawaits.symm Bool.false_ne_true
    | amo args fetches =>
      rw [Call.awaitsQuiet, hop] at hawaits
      have hraised := hslot.raised (by rw [Call.fetches, hop]) hpast
      simp only [User.Raised, hop, hawaits, Bool.false_eq_true, if_false] at hraised
      obtain ⟨p, hp, hnumber, hstatus⟩ := hraised
      exact ⟨p, hp, hnumber, hstatus ▸ by decide⟩

end Inv

theorem active_of_not_released (h : Inv cfg s) (hu : s.users[k]? = some u) (hi : i ∈ u.request)
    (hreleased : u.phase ≠ .released) : u.turn = .active := by
  have hne := h.request_ne_none (mem_of_getElem? hu) hi
  rw [turn]
  cases hphase : u.phase with
  | waiting => exact absurd hphase hne.1
  | released => exact absurd hphase hreleased
  | _ => rfl

namespace Slots

section Changes

variable (h : Slots cfg s laps)
include h

theorem land (hinv : Inv cfg s) (hnames : NamesPosts cfg s) (hp : s.posts[i]? = some p)
    (hstatus : p.status = .posted) :
    Slots cfg { s with
      mem := update s.mem p.landing.addr (some p.number)
      posts := s.posts.set i { p with status := .landed } } laps := by
  have hmem := mem_of_getElem? hp
  obtain ⟨k, u, hu, hfor⟩ := hinv.exists_user hmem
  have haddr : p.landing.addr = u.cell cfg k := by
    rw [hfor.landing, Call.landing, Call.cell]
    cases u.operation with
    | get coalesced size => rfl
    | amo args fetches => rfl
  have hactive : u.turn = .active := by
    refine active_of_not_released hinv hu hfor.request fun hphase => ?_
    have hpast : u.phase.Past := by
      rw [hphase]
      trivial
    obtain ⟨q, hq, hnumber, hlanded⟩ := hinv.exists_landed hnames hu (h.user k u hu) hpast
    obtain rfl := hinv.eq_of_number hmem hq (Option.some.inj (hfor.request.symm.trans hnumber))
    exact hlanded hstatus
  have hset : ∀ q, q.number ≠ p.number →
      (q ∈ s.posts.set i { p with status := .landed } ↔ q ∈ s.posts) :=
    fun q hne => mem_set_iff_of_ne Post.number hp rfl hne
  refine ⟨h.turns, h.idle, fun k' u' hu' => (h.user k' u' hu').setPosts ?_ ?_⟩
  · -- a post that has been replied to is neither the old nor the new one
    constructor
    · rintro ⟨q, hq, hnumber, hreplied⟩
      rcases mem_or_eq_of_mem_set hq with hq | rfl
      · exact ⟨q, hq, hnumber, hreplied⟩
      · cases hreplied
    · rintro ⟨q, hq, hnumber, hreplied⟩
      have hne : q.number ≠ p.number := fun heq => by
        rw [hinv.eq_of_number hq hmem heq, hstatus] at hreplied
        cases hreplied
      exact ⟨q, (hset q hne).mpr hq, hnumber, hreplied⟩
  · intro hactive' q hq hnumber hlanded
    rw [haddr]
    by_cases hk : k' = k
    · subst hk
      cases hu'.symm.trans hu
      rw [Option.some.inj (hnumber.symm.trans hfor.request)]
      exact update_self ..
    · have hmod : k' % cfg.slots ≠ k % cfg.slots :=
        fun hmod => hk (h.eq_of_active hu' hu hactive' hactive hmod)
      have hne : q.number ≠ p.number := fun heq =>
        hk (hinv.eq_of_request hu' hu (heq ▸ hnumber) hfor.request)
      have hold := (h.user k' u' hu').mem_eq hactive' q ((hset q hne).mp hq) hnumber hlanded
      exact (update_of_ne (cell_ne cfg hmod) ..).trans hold

theorem reply (hinv : Inv cfg s) {addr retflag : ℕ} (hp : s.posts[i]? = some p)
    (hlanding : p.landing = .fetched addr retflag) (hstatus : p.status = .landed)
    (hquiet : cfg.atomicsCompleteOnQuiet = false) :
    Slots cfg { s with
      flag := update s.flag addr retflag
      posts := s.posts.set i { p with status := .replied } } laps := by
  have hmem := List.mem_of_getElem? hp
  obtain ⟨k, u, hu, hfor, ⟨args, fetches, hop⟩, rfl, rfl⟩ :=
    hinv.exists_user_of_fetched hmem hlanding
  have hraised : ∀ posts, u.Raised cfg posts ↔
      ∃ q ∈ posts, q.number ∈ u.request ∧ q.status = .replied := by
    intro posts
    simp only [User.Raised, hop, hquiet, Bool.false_eq_true, if_false]
  have hactive : u.turn = .active := by
    refine active_of_not_released hinv hu hfor.request fun hphase => ?_
    have hpast : u.phase.Past := by
      rw [hphase]
      trivial
    have hold := (h.user k u hu).raised (by rw [Call.fetches, hop]) hpast
    obtain ⟨q, hq, hnumber, hreplied⟩ := (hraised _).mp hold
    rw [hinv.eq_of_number hq hmem (Option.some.inj (hnumber.symm.trans hfor.request)),
      hstatus] at hreplied
    cases hreplied
  have hset : ∀ q, q.number ≠ p.number →
      (q ∈ s.posts.set i { p with status := .replied } ↔ q ∈ s.posts) :=
    fun q hne => mem_set_iff_of_ne Post.number hp rfl hne
  have hnew : u.Raised cfg (s.posts.set i { p with status := .replied }) :=
    (hraised _).mpr ⟨_, List.mem_set (List.getElem?_eq_some_iff.mp hp).1 _, hfor.request, rfl⟩
  -- what has landed is what was there before
  have hmem_eq : ∀ (k' : ℕ) (u' : User), s.users[k']? = some u' → u'.turn = .active →
      ∀ q ∈ s.posts.set i { p with status := .replied }, q.number ∈ u'.request →
        q.status ≠ .posted → s.mem (u'.cell cfg k') = some q.number := by
    intro k' u' hu' hactive' q hq hnumber hlanded
    rcases List.mem_or_eq_of_mem_set hq with hq | rfl
    · exact (h.user k' u' hu').mem_eq hactive' q hq hnumber hlanded
    · exact (h.user k' u' hu').mem_eq hactive' p hmem hnumber (hstatus ▸ by decide)
  refine ⟨h.turns, fun k₀ hnone => ?_, fun k' u' hu' => ?_⟩
  · refine (Function.update_of_ne (fun heq => ?_) ..).trans (h.idle k₀ hnone)
    exact hnone k ((elem_eq_iff cfg).mp heq).symm ((turnAt_eq hu).trans hactive)
  · by_cases hk : k' = k
    · subst hk
      obtain rfl := Option.some.inj (hu'.symm.trans hu)
      exact ⟨fun _ => .inl ⟨hnew, Function.update_self ..⟩, (h.user k' u' hu').loaded,
        fun _ _ => hnew, hmem_eq k' u' hu', (h.user k' u' hu').results⟩
    · refine ((h.user k' u' hu').setPosts ?_ (hmem_eq k' u' hu')).setFlag fun hactive' hmod =>
        hk (h.eq_of_active hu' hu hactive' hactive hmod)
      have hne : ∀ q : Post, q.number ∈ u'.request → q.number ≠ p.number := fun q hnumber heq =>
        hk (hinv.eq_of_request hu' hu (heq ▸ hnumber) hfor.request)
      constructor
      · rintro ⟨q, hq, hnumber, hreplied⟩
        exact ⟨q, (hset q (hne q hnumber)).mp hq, hnumber, hreplied⟩
      · rintro ⟨q, hq, hnumber, hreplied⟩
        exact ⟨q, (hset q (hne q hnumber)).mpr hq, hnumber, hreplied⟩

theorem issue (hinv : Inv cfg s) {channel : Channel} (hu : s.users[k]? = some u)
    (hphase : u.phase = .ready) :
    Slots cfg { s with
      channel := channel
      users := s.users.set k
        { u with phase := .issued, request := some s.channel.requests.length } } laps := by
  have hslot := h.user k u hu
  have hactive : u.turn = .active := by rw [turn, hphase]
  have hconsistent := hinv.consistent u (mem_of_getElem? hu)
  rw [Consistent, hphase] at hconsistent
  obtain ⟨hrequest, -, hresults⟩ := hconsistent
  -- no post has the number of the new request
  have hnone : ∀ p ∈ s.posts, p.number ∉ some s.channel.requests.length := by
    intro p hp hnumber
    have hlt := (hinv.progress.isFor p hp).1.trans_le hinv.sound.inv.handledCount_le
    exact hlt.ne (some.inj hnumber).symm
  have hnot : ¬ u.Raised cfg s.posts :=
    not_raised (by rw [hphase]; exact id) (.inr (by simp [hrequest]))
  have hflag := hslot.flag_of_not_raised hactive hnot
  have hnew : AtSlot cfg s.flag s.mem s.posts k
      { u with phase := .issued, request := some s.channel.requests.length } := by
    refine ⟨fun _ => .inr ⟨?_, hflag⟩, trivial, fun _ hpast => hpast.elim, ?_, ?_⟩
    · exact not_raised id (.inr hnone)
    · exact fun _ p hp hnumber => absurd hnumber (hnone p hp)
    · rw [hresults]
      exact fun v hv => absurd hv not_mem_nil
  exact { h.setUser hu (hactive ▸ rfl) hnew with }

theorem read (hinv : Inv cfg s) (hnames : NamesPosts cfg s) (hu : s.users[k]? = some u)
    (hphase : u.phase = .reading) :
    Slots cfg { s with
      users := s.users.set k { u with results := u.results ++ [s.mem (u.cell cfg k)] } } laps := by
  have hslot := h.user k u hu
  have hpast : u.phase.Past := by
    rw [hphase]
    trivial
  have hactive : u.turn = .active := by rw [turn, hphase]
  obtain ⟨p, hp, hnumber, hlanded⟩ := hinv.exists_landed hnames hu hslot hpast
  have hvalue := hslot.mem_eq hactive p hp hnumber hlanded
  refine h.setUser hu rfl (hslot.advance rfl rfl rfl (fun _ _ => Iff.rfl) ?_ hslot.raised ?_)
  · rw [hphase]
    trivial
  · refine forall_mem_concat hslot.results ⟨hvalue.trans hnumber.symm, ?_⟩
    rw [hvalue]
    exact some_ne_none _

theorem setPhase (hu : s.users[k]? = some u) (hactive : u.turn = .active) {phase : UserPhase}
    (hturn : { u with phase := phase }.turn = .active)
    (hpast : u.awaitsQuiet cfg = true → u.fetches = true → (phase.Past ↔ u.phase.Past))
    (hloaded : { u with phase := phase }.Loaded cfg k)
    (hraised : u.fetches = true → phase.Past → u.Raised cfg s.posts) :
    Slots cfg { s with users := s.users.set k { u with phase := phase } } laps := by
  have hslot := h.user k u hu
  have hturn' := hturn.trans hactive.symm
  exact h.setUser hu hturn' (hslot.advance rfl rfl hturn' hpast hloaded hraised hslot.results)

theorem endQuiet {phase : UserPhase} (hu : s.users[k]? = some u) (hphase : u.phase = .quieting)
    (hnext : phase = match u.operation with | .get .. => .reading | .amo .. => .quieted) :
    Slots cfg { s with users := s.users.set k { u with phase := phase } } laps := by
  have hactive : u.turn = .active := by rw [User.turn, hphase]
  cases hop : u.operation with
  | get coalesced size =>
    rw [hop] at hnext
    subst hnext
    have hget : u.fetches ≠ true := by
      rw [Call.fetches, hop]
      exact Bool.false_ne_true
    exact h.setPhase hu hactive rfl (fun _ hfetches => absurd hfetches hget) trivial
      fun hfetches => absurd hfetches hget
  | amo args fetches =>
    rw [hop] at hnext
    subst hnext
    have hfetches : u.fetches = true := by rw [Call.fetches, hop]
    refine h.setPhase hu hactive rfl (fun _ _ => ?_) hfetches fun _ hpast => hpast.elim
    rw [hphase]
    exact Iff.rfl

theorem loadBump (hinv : Inv cfg s) (hu : s.users[k]? = some u) (hphase : u.phase = .quieted) :
    Slots cfg { s with
      users := s.users.set k { u with phase := .bumping (s.flag (cfg.elem k)) } } laps := by
  have hslot := h.user k u hu
  have hactive : u.turn = .active := by rw [turn, hphase]
  have hfetches := hslot.loaded
  have hconsistent := hinv.consistent u (mem_of_getElem? hu)
  rw [Loaded, hphase] at hfetches
  rw [Consistent, hphase] at hconsistent
  have hnot : ¬ u.Raised cfg s.posts :=
    not_raised (by rw [hphase]; exact id) (.inl hconsistent.2.1)
  refine h.setPhase hu hactive rfl (fun _ _ => ?_) ⟨hfetches, ?_⟩ fun _ hpast => hpast.elim
  · rw [hphase]
    exact Iff.rfl
  · exact hslot.flag_of_not_raised hactive hnot

theorem storeBump (hinv : Inv cfg s) {flag : ℕ} (hu : s.users[k]? = some u)
    (hphase : u.phase = .bumping flag) :
    Slots cfg (s.storeFlag cfg k (flag + 1) { u with phase := .reading }) laps := by
  have hslot := h.user k u hu
  have hactive : u.turn = .active := by rw [turn, hphase]
  have hloaded := hslot.loaded
  have hconsistent := hinv.consistent u (mem_of_getElem? hu)
  rw [Loaded, hphase] at hloaded
  rw [Consistent, hphase] at hconsistent
  obtain ⟨hfetches, rfl⟩ := hloaded
  have hraised : Raised cfg s.posts { u with phase := .reading } := by
    have hawaits := hconsistent.2.1
    unfold Raised
    cases hop : u.operation with
    | get coalesced size =>
      rw [fetches, hop] at hfetches
      exact absurd hfetches Bool.false_ne_true
    | amo args fetches =>
      rw [awaitsQuiet, hop] at hawaits
      simp only [hawaits, if_true]
      trivial
  exact h.storeFlag hu hactive rfl ⟨fun _ => .inl ⟨hraised, update_self ..⟩, trivial,
    fun _ _ => hraised, fun _ => hslot.mem_eq hactive, hslot.results⟩

theorem waitReply (hu : s.users[k]? = some u) (hphase : u.phase = .issued)
    (hawaits : u.awaitsQuiet cfg = false) (hflag : cfg.flag k + 1 ≤ s.flag (cfg.elem k)) :
    Slots cfg { s with users := s.users.set k { u with phase := .reading } } laps := by
  have hactive : u.turn = .active := by rw [turn, hphase]
  refine h.setPhase hu hactive rfl (fun hq => ?_) trivial fun _ _ => ?_
  · exact absurd (hawaits.symm.trans hq) Bool.false_ne_true
  · obtain ⟨hraised, -⟩ | ⟨-, heq⟩ := (h.user k u hu).flag_eq hactive
    · exact hraised
    · omega

theorem loadRelease (hu : s.users[k]? = some u) (hphase : u.phase = .reading)
    (hlanes : u.results.length = u.lanes) :
    Slots cfg { s with
      users := s.users.set k { u with phase := .releasing (s.flag (cfg.elem k)) } } laps := by
  have hslot := h.user k u hu
  have hactive : u.turn = .active := by rw [User.turn, hphase]
  have hpast : u.phase.Past := by
    rw [hphase]
    trivial
  refine h.setPhase hu hactive rfl (fun _ _ => ?_) ⟨?_, hlanes⟩ fun hfetches _ =>
    hslot.raised hfetches hpast
  · rw [hphase]
    exact Iff.rfl
  · cases hop : u.operation with
    | get coalesced size =>
      have hnot : ¬ u.Raised cfg s.posts := by
        rw [User.Raised, hop]
        exact id
      rw [hslot.flag_of_not_raised hactive hnot, Call.release, hop]
    | amo args fetches =>
      have hraised := hslot.raised (by rw [Call.fetches, hop]) hpast
      have hrelease : u.release = 1 := by rw [Call.release, hop]
      rw [((hslot.flag_eq hactive).resolve_right fun hnot => hnot.1 hraised).2, hrelease]

theorem storeRelease {flag : ℕ} (hu : s.users[k]? = some u) (hphase : u.phase = .releasing flag) :
    ∃ laps', Slots cfg (s.storeFlag cfg k (flag + u.release) { u with phase := .released }) laps' := by
  have hslot := h.user k u hu
  have hactive : u.turn = .active := by rw [turn, hphase]
  have hpast : u.phase.Past := by
    rw [hphase]
    trivial
  have hloaded := hslot.loaded
  rw [Loaded, hphase] at hloaded
  have hiff : Raised cfg s.posts { u with phase := .released } ↔ u.Raised cfg s.posts :=
    raised_congr rfl rfl fun _ _ => iff_of_true trivial hpast
  have hended : ({ u with phase := .released } : User).turn ≠ .active := by
    intro heq
    cases heq
  exact ⟨_, h.release hu hactive rfl hloaded.1 ⟨fun heq => absurd heq hended, hloaded.2,
    fun hfetches _ => hiff.mpr (hslot.raised hfetches hpast), fun heq => absurd heq hended,
    hslot.results⟩⟩

theorem step (hinv : Inv cfg s) (hnames : NamesPosts cfg s) {a : Action}
    (ht : s.step cfg a = some t) : ∃ laps', Slots cfg t laps' := by
  cases change_of_step ht with
  | start hlt => exact ⟨laps, h.start rfl rfl⟩
  | waitSlot hu hphase hflag =>
    have hconsistent := hinv.consistent _ (mem_of_getElem? hu)
    rw [Consistent, hphase] at hconsistent
    exact ⟨laps, h.waitSlot hu hphase hconsistent.1 hconsistent.2.2 hflag⟩
  | issue hu hphase hs => exact ⟨laps, h.issue hinv hu hphase⟩
  | @quiet k u channel hu hphase hawaits hs =>
    have hslot := h.user k u hu
    have hturn : turn { u with phase := .quieting, quiet := some s.channel.requests.length } =
        u.turn := by
      rw [turn, turn, hphase]
    have hpast : UserPhase.quieting.Past ↔ u.phase.Past := by
      rw [hphase]
      exact Iff.rfl
    exact ⟨laps, { h.setUser hu hturn (hslot.advance rfl rfl hturn (fun _ _ => hpast) trivial
      (fun _ hpast => hpast.elim) hslot.results) with }⟩
  | endQuiet hu hphase hret hnext => exact ⟨laps, h.endQuiet hu hphase hnext⟩
  | loadBump hu hphase => exact ⟨laps, h.loadBump hinv hu hphase⟩
  | storeBump hu hphase => exact ⟨laps, h.storeBump hinv hu hphase⟩
  | waitReply hu hphase hawaits hflag => exact ⟨laps, h.waitReply hu hphase hawaits hflag⟩
  | read hu hphase => exact ⟨laps, h.read hinv hnames hu hphase⟩
  | loadRelease hu hphase hlanes => exact ⟨laps, h.loadRelease hu hphase hlanes⟩
  | storeRelease hu hphase => exact h.storeRelease hu hphase
  | land hp hstatus => exact ⟨laps, h.land hinv hnames hp hstatus⟩
  | reply hp hlanding hstatus hquiet => exact ⟨laps, h.reply hinv hp hlanding hstatus hquiet⟩
  | connect hib => exact ⟨laps, { h with }⟩
  | @post chunks pe qp channel ib words result hs hhost hcalls hib =>
    have hposted : ∀ p ∈ ((landing cfg result.posted).map fun l => Post.mk s.channel.consumed.length
        (ib.uses.drop s.ib.uses.length) l .posted).toList, p.status = .posted := by
      intro p hp
      obtain ⟨l, -, rfl⟩ := map_eq_some_iff.mp (mem_toList.mp hp)
      rfl
    exact ⟨laps, { h.post hposted with }⟩
  | wait hs hhost hcalls hquiet => exact ⟨laps, { h with }⟩
  | quietAll hs => exact ⟨laps, { h with }⟩
  | channel hothers hs => exact ⟨laps, { h with }⟩

end Changes

end Slots

def StartsNamed (cfg : Config) (_ : State) : Action → Prop
  | .start thread operation roffset pe qp =>
    let c : Call := ⟨thread, operation, roffset, pe, qp, none, none⟩
    c.awaitsQuiet cfg = true → c.QuietsPost cfg
  | _ => True

instance (cfg : Config) (s : State) (a : Action) : Decidable (StartsNamed cfg s a) := by
  unfold StartsNamed
  split <;> infer_instance

theorem NamesPosts.step (h : NamesPosts cfg s) {a : Action} (ha : StartsNamed cfg s a)
    (ht : s.step cfg a = some t) : NamesPosts cfg t := by
  cases change_of_step ht with
  | start hlt => exact forall_mem_concat h ha
  | waitSlot hu | issue hu | quiet hu | endQuiet hu | loadBump hu | storeBump hu | waitReply hu
  | read hu | loadRelease hu | storeRelease hu =>
    have hcall := h _ (mem_of_getElem? hu)
    exact forall_mem_set h hcall
  | land | reply | connect | post | wait | quietAll | channel => exact h

/-- A slot goes to a call only when the calls before it have read their results, a fetching atomic
is replied to with the flag that its call waits for, and no call reads the value of another
request. -/
structure State.Isolated (cfg : Config) (s : State) : Prop where
  handedOver : ∀ (k : ℕ) (u : User), s.users[k]? = some u → u.phase ≠ .waiting →
    ∀ (k' : ℕ) (u' : User), s.users[k']? = some u' → k' < k → cfg.elem k' = cfg.elem k →
      u'.phase = .released ∧ u'.results.length = u'.lanes
  retflag : ∀ p ∈ s.posts, ∀ addr retflag, p.landing = .fetched addr retflag →
    ∃ (k : ℕ) (u : User), s.users[k]? = some u ∧ u.request = some p.number ∧
      addr = cfg.elem k ∧ retflag = cfg.flag k + 1
  own : ∀ u ∈ s.users, ∀ v ∈ u.results, v = u.request ∧ v ≠ none

theorem Slots.isolated (h : Slots cfg s laps) (hinv : Inv cfg s) : s.Isolated cfg where
  handedOver k u hu hphase k' u' hu' hlt helem := by
    have hturn : turnAt s.users k ≠ .pending := by
      rw [turnAt_eq hu, turn]
      cases hu : u.phase <;> simp_all
    have hended := h.turns.ended_of_lt hturn hlt ((elem_eq_iff cfg).mp helem)
    rw [turnAt_eq hu', turn] at hended
    have hloaded := (h.user k' u' hu').loaded
    rw [Loaded] at hloaded
    cases hphase' : u'.phase <;> simp_all
  retflag p hp addr retflag hlanding := by
    obtain ⟨k, u, hu, hfor, -, haddr⟩ := hinv.exists_user_of_fetched hp hlanding
    exact ⟨k, u, hu, hfor.request, haddr⟩
  own u hu := by
    obtain ⟨k, hk⟩ := mem_iff_getElem?.mp hu
    exact (h.user k u hk).results

/-- For any threads, calls and interleaving, the slots are isolated from each other, as long as the
flags are zero at first and the quiets of the calls that start wait for their operations. -/
theorem isolated_of_reachable (cfg : Config) (flag : ℕ → ℕ) (hflag : ∀ k, flag (cfg.elem k) = 0)
    (s : State)
    (hs : Reachable (restrict (StartsNamed cfg) (State.step cfg)) (.init cfg flag) s) :
    s.Isolated cfg := by
  obtain ⟨hinv, hnames, laps, hslots⟩ := hs.invariant
    (I := fun s => Inv cfg s ∧ NamesPosts cfg s ∧ ∃ laps, Slots cfg s laps)
    ⟨.init flag, fun u hu => absurd hu not_mem_nil, _, .init hflag⟩ (by
      rintro u a v ⟨hinv, hnames, laps, hslots⟩ hstep
      obtain ⟨ha, hstep⟩ := restrict_eq_some.mp hstep
      exact ⟨hinv.step hstep, hnames.step ha hstep, hslots.step hinv hnames hstep⟩)
  exact hslots.isolated hinv

def fetchRun (k i p : ℕ) : List Action :=
  [.start k (.amo ⟨.fetch, .four, 0, 0, 0, fun _ => rfl⟩ (by decide)) 0 1 qpDefault, .waitSlot k,
    .issue k] ++ transferred i 5 ++ [.land p, .reply p, .waitReply k, .read k]

def released (k : ℕ) : List Action := [.loadRelease k, .storeRelease k]

/-- A get of a thread, a fetch and a get of a warp use a slot one after the other. -/
theorem isolated_threeCalls : ∃ s, exec (restrict (StartsNamed oneSlot) (State.step oneSlot))
    (.init oneSlot fun _ => 0) (.connect 1 :: (getRun 0 0 false 1 [.land 0] ++ released 0 ++
      fetchRun 1 2 1 ++ released 1 ++ getRun 2 3 true 4 [.land 2])) = some s ∧
      (s.users.map User.results = [[some 0], [some 2], [some 3]]) ∧ s.Isolated oneSlot := by
  exact exists_of_exec (fun s => s.users.map results = [[some 0], [some 2], [some 3]])
    (by decide +kernel) fun s hs hresults =>
      ⟨hresults, isolated_of_reachable oneSlot (fun _ => 0) (fun _ => rfl) s (.of_exec hs)⟩

/-- A get of a thread on a QP that was created returns the value of the call before it. -/
theorem not_isolated_threadOnUserQp : ∃ s, exec (State.step oneSlot) (.init oneSlot fun _ => 0)
    (.connect 1 :: (getRun 0 0 false 1 [.land 0] ++ released 0 ++ getRun 1 2 false 4 [])) = some s ∧
      (∃ u ∈ s.users, u.request = some 2 ∧ u.results = [some 0]) ∧ ¬ s.Isolated oneSlot := by
  refine exists_of_exec (fun s => ∃ u ∈ s.users, u.request = some 2 ∧ u.results = [some 0])
    (by decide +kernel) ?_
  rintro s - ⟨u, hu, hrequest, hresults⟩
  refine ⟨⟨u, hu, hrequest, hresults⟩, fun h => ?_⟩
  have hown := (h.own u hu (some 0) (hresults ▸ mem_singleton_self _)).1
  rw [hrequest] at hown
  cases hown

end Results

end Nvshmem.Proxy.Fetch
