import Nvshmem.Ib.Pairing
import Nvshmem.Lists.Update
import Nvshmem.Transition.Exec

/-! # The endpoint of an operation and those that a quiet waits for

An operation is posted on the endpoint that its handle selects. The cursor of the handle for any
queue pair starts at the host's, so the first operation with it lands there, and a quiet with this
handle leaves the host's endpoint out.
-/

namespace Nvshmem.Ib

open List Function Nat State

open Ibgda (intMax qpDefault qpAny)

open Loops Transition

inductive Handle where
  | host | default | any
  | created (qpIndex : ℕ)
deriving DecidableEq

def Handle.qpIndex : Handle → ℕ
  | .host => qpHost
  | .default => qpDefault
  | .any => qpAny
  | .created qpIndex => qpIndex

structure Use where
  me : ℕ
  handle : Handle
  pe : ℕ
  ep : ℕ
  curAnyQpIndex : ℕ
  totalQps : ℕ

structure System where
  world : ℕ → State
  uses : List Use

inductive Action where
  | connect (numQps : ℕ)
  | post (me : ℕ) (handle : Handle) (pe : ℕ)

namespace System

variable (job : Job)

def start : System := ⟨connectEndpoints job (fun _ => .init) 0, []⟩

def Known (s : System) (me : ℕ) : Handle → Prop
  | .created qpIndex => qpIndex ∈ (s.world me).handles
  | _ => True

instance (s : System) (me : ℕ) : ∀ handle, Decidable (s.Known me handle)
  | .host | .default | .any => isTrue trivial
  | .created qpIndex => inferInstanceAs (Decidable (qpIndex ∈ (s.world me).handles))

/-- More queue pairs, as long as their indices are in the range of `int`, and operations. -/
def step (s : System) : Action → Option System
  | .connect numQps =>
    if (s.world 0).nextQpIndex + numQps * job.nPes ≤ intMax then
      some { s with world := connectEndpoints job s.world numQps }
    else none
  | .post me handle pe =>
    if me < job.nPes ∧ pe < job.nPes ∧ s.Known me handle then
      let (entry, state) := (s.world me).getEpFromQpIndex job handle.qpIndex pe
      entry.map fun entry =>
        { world := Function.update s.world me state
          uses := s.uses ++ [⟨me, handle, pe, (s.world me).ep entry, (s.world me).curAnyQpIndex,
            (s.world me).nextQpIndex / job.nPes⟩] }
    else none

end System

namespace Use

variable (job : Job) (s : System) (u : Use)

def OnHost : Prop :=
  ∃ peer < job.nPes, u.ep = (s.world u.me).ep ((s.world u.me).hostEpIndex + peer)

/-- The operation is not on the host's queue pair unless it is the host's, and a quiet waits for
it. -/
def Sound : Prop :=
  (u.handle ≠ .host → ¬ u.OnHost job s) ∧ u.ep ∈ (s.world u.me).quiet job u.pe u.handle.qpIndex

/-- There are default queue pairs for the default handle, the cursor for any queue pair is not at
the host's, and the index of a queue pair is not the default handle. -/
def SelectsDevice : Prop :=
  match u.handle with
  | .host => True
  | .default => 0 < job.ibNumRcPerDevice
  | .any => u.curAnyQpIndex % u.totalQps ≠ 0
  | .created qpIndex => qpIndex ≠ qpDefault

end Use

variable {job : Job}

def Use.Selected (job : Job) (u : Use) (qp : ℕ) : Prop :=
  match u.handle with
  | .host => qp = 0
  | .default => if 0 < job.ibNumRcPerDevice then 0 < qp ∧ qp ≤ job.ibNumRcPerDevice else qp = 0
  | .any => qp = u.curAnyQpIndex % u.totalQps
  | .created qpIndex => if qpIndex = qpDefault then qp = 0 else 0 < qp ∧ qpIndex = qp * job.nPes

namespace State

variable (s : State) (h pe : ℕ)

def withCursors (d a : ℕ) : State := { s with curDefaultQpIndex := d, curAnyQpIndex := a }

theorem getEpFromQpIndex_state : ∃ d a, (s.getEpFromQpIndex job h pe).2 = s.withCursors d a := by
  rw [getEpFromQpIndex]
  split_ifs
  exacts [⟨_, _, rfl⟩, ⟨_, _, rfl⟩, ⟨_, _, rfl⟩, ⟨_, _, rfl⟩, ⟨_, _, rfl⟩]

end State

/-- The cursor of the default handle is at a default queue pair if there is one. -/
def State.DefaultValid (job : Job) (s : State) : Prop :=
  0 < s.curDefaultQpIndex ∧ s.curDefaultQpIndex ≤ max 1 job.ibNumRcPerDevice

theorem State.DefaultValid.getEpFromQpIndex {s : State} (hs : s.DefaultValid job) (h pe : ℕ) :
    (s.getEpFromQpIndex job h pe).2.DefaultValid job := by
  rw [State.getEpFromQpIndex]
  split_ifs with h0 h1 h2 h3
  · exact hs
  · simp only [State.DefaultValid]
    split
    · exact ⟨Nat.one_pos, Nat.le_max_left _ _⟩
    · next hne =>
      have := mod_lt (s.curDefaultQpIndex + 1) (succ_pos job.ibNumRcPerDevice)
      exact ⟨Nat.pos_of_ne_zero hne, (le_of_lt_succ this).trans (Nat.le_max_right _ _)⟩
  · exact hs
  · exact hs
  · exact hs

namespace Connected

variable {w : ℕ → State} {initial count : ℕ}

theorem update (h : Connected job w initial count) (me d a : ℕ) :
    Connected job (Function.update w me ((w me).withCursors d a)) initial count := by
  have hsame : ∀ {β : Type} (f : State → β), f ((w me).withCursors d a) = f (w me) →
      ∀ pe, f (Function.update w me ((w me).withCursors d a) pe) = f (w pe) := by
    intro β f hf pe
    by_cases hpe : pe = me
    · rw [hpe, update_self, hf]
    · rw [update_of_ne hpe]
  have hep := hsame State.ep rfl
  have hqpn := hsame State.nextQpn rfl
  refine ⟨⟨?_, ?_, ?_, ?_, ?_, ?_⟩, ?_, ?_, ?_, ?_⟩
  · exact fun pe => (hsame State.nextQpIndex rfl pe).trans (h.nextQpIndex_eq pe)
  · exact fun pe => hqpn pe ▸ h.nextQpn_pos pe
  · exact fun pe => hep pe ▸ h.ep_pos pe
  · exact fun pe => hep pe ▸ hqpn pe ▸ h.ep_lt pe
  · exact fun pe => hep pe ▸ h.ep_inj pe
  · intro m hm j hj i hi
    rw [hep m, hep j, hsame State.remote rfl m]
    exact h.remote_eq m hm j hj i hi
  · exact fun pe => (hsame State.allocated rfl pe).trans (h.allocated pe)
  · exact fun pe => (hsame State.epCount rfl pe).trans (h.epCount_eq pe)
  · exact fun pe => (hsame State.hostEpIndex rfl pe).trans (h.hostEpIndex_eq pe)
  · exact fun pe => (hsame State.handles rfl pe).trans (h.handles_eq pe)

end Connected

namespace System

structure Inv (job : Job) (s : System) (count : ℕ) : Prop
    extends Connected job s.world (job.ibNumRcPerDevice + 1) count where
  fits : (job.ibNumRcPerDevice + 1 + count) * job.nPes ≤ intMax
  default_valid : ∀ pe, (s.world pe).DefaultValid job
  uses : ∀ u ∈ s.uses, u.pe < job.nPes ∧ ∃ qp < job.ibNumRcPerDevice + 1 + count,
    u.ep = (s.world u.me).ep (qp * job.nPes + u.pe) ∧ u.Selected job qp

namespace Inv

variable {s : System} {count : ℕ} {me pe qp : ℕ} {u : Use}

theorem start (hfit : (job.ibNumRcPerDevice + 1) * job.nPes ≤ intMax) :
    Inv job (System.start job) 0 :=
  { connected_initial job 0 with
    fits := hfit
    default_valid := fun _ => ⟨Nat.one_pos, Nat.le_max_left _ _⟩
    uses := fun _ hu => absurd hu not_mem_nil }

section Facts

variable (h : Inv job s count)
include h

theorem connect {numQps : ℕ} (hfit : (s.world 0).nextQpIndex + numQps * job.nPes ≤ intMax) :
    Inv job { s with world := connectEndpoints job s.world numQps } (count + numQps) := by
  refine { h.connectEndpoints numQps with fits := ?_, default_valid := ?_, uses := ?_ }
  · rwa [h.nextQpIndex_eq, ← Nat.add_mul, Nat.add_assoc] at hfit
  · intro pe
    rw [DefaultValid, h.connectEndpoints_curDefaultQpIndex]
    exact h.default_valid pe
  · intro u hu
    obtain ⟨hpe, qp, hqp, hep, hsel⟩ := h.uses u hu
    refine ⟨hpe, qp, by omega, ?_, hsel⟩
    rw [hep]
    exact (h.connectEndpoints_ep_of_lt numQps u.me (mul_add_lt hqp hpe)).symm

theorem exists_selected {handle : Handle} {ep : ℕ} (hknown : s.Known me handle) :
    ∃ qp < job.ibNumRcPerDevice + 1 + count,
      ((s.world me).getEpFromQpIndex job handle.qpIndex pe).1 = some (qp * job.nPes + pe) ∧
      Use.Selected job ⟨me, handle, pe, ep, (s.world me).curAnyQpIndex,
        (s.world me).nextQpIndex / job.nPes⟩ qp := by
  obtain ⟨hpos, hle⟩ := h.default_valid me
  have htotal : (s.world me).nextQpIndex / job.nPes = job.ibNumRcPerDevice + 1 + count := by
    rw [h.nextQpIndex_eq, Nat.mul_div_cancel _ job.nPes_pos]
  cases handle with
  | host =>
    refine ⟨0, by omega, ?_, rfl⟩
    rw [getEpFromQpIndex, h.hostEpIndex_eq, Nat.zero_mul]
    rfl
  | default =>
    have hne : qpDefault ≠ qpHost := Nat.one_ne_zero
    refine ⟨(s.world me).curDefaultQpIndex % (job.ibNumRcPerDevice + 1), ?_, ?_, ?_⟩
    · exact (mod_lt _ (succ_pos _)).trans_le (Nat.le_add_right _ _)
    · rw [Handle.qpIndex, getEpFromQpIndex, if_neg hne, if_pos rfl]
    · simp only [Use.Selected]
      split
      · next hdef =>
        rw [Nat.max_eq_right hdef] at hle
        rw [mod_eq_of_lt (lt_succ_of_le hle)]
        exact ⟨hpos, hle⟩
      · next hdef => rw [Nat.eq_zero_of_not_pos hdef, mod_one]
  | any =>
    have hne : qpAny ≠ qpHost := by decide
    have hne' : qpAny ≠ qpDefault := by decide
    refine ⟨(s.world me).curAnyQpIndex % ((s.world me).nextQpIndex / job.nPes), ?_, ?_, rfl⟩
    · rw [htotal]
      exact mod_lt _ (by omega)
    · rw [Handle.qpIndex, getEpFromQpIndex, if_neg hne, if_neg hne', if_pos rfl]
  | created x =>
    obtain ⟨k, hk⟩ := getElem?_of_mem hknown
    obtain ⟨hlt, hx⟩ := h.handles_getElem? hk
    have hqp : 0 < job.ibNumRcPerDevice + 1 + k := by omega
    by_cases hdef : x = qpDefault
    · -- one endpoint only, so there is one PE and no default queue pair
      have hone : (job.ibNumRcPerDevice + 1 + k) * job.nPes = 1 := hx.symm.trans hdef
      have hzero : job.ibNumRcPerDevice = 0 := by
        have := (mul_eq_one.mp hone).1
        omega
      refine ⟨0, by omega, ?_, ?_⟩
      · rw [Handle.qpIndex, hdef, getEpFromQpIndex_qpDefault_of_eq_zero hzero, Nat.zero_mul,
          Nat.zero_add]
      · simp only [Use.Selected, if_pos hdef]
    · refine ⟨job.ibNumRcPerDevice + 1 + k, by omega, ?_, ?_⟩
      · have hgt : qpDefault < x := by
          have hxpos : 0 < x := hx ▸ Nat.mul_pos hqp job.nPes_pos
          exact lt_of_le_of_ne hxpos (Ne.symm hdef)
        rw [Handle.qpIndex, h.getEpFromQpIndex_handle h.fits hk hgt]
      · simp only [Use.Selected, if_neg hdef]
        exact ⟨hqp, hx⟩

theorem post {entry : ℕ} {handle : Handle} (hpe : pe < job.nPes) (hknown : s.Known me handle)
    (hentry : ((s.world me).getEpFromQpIndex job handle.qpIndex pe).1 = some entry) :
    Inv job
      { world := update s.world me
          ((s.world me).getEpFromQpIndex job handle.qpIndex pe).2
        uses := s.uses ++ [⟨me, handle, pe, (s.world me).ep entry, (s.world me).curAnyQpIndex,
          (s.world me).nextQpIndex / job.nPes⟩] } count := by
  have hvalid := (h.default_valid me).getEpFromQpIndex handle.qpIndex pe
  obtain ⟨d, a, hstate⟩ : ∃ d a, ((s.world me).getEpFromQpIndex job handle.qpIndex pe).2 =
      (s.world me).withCursors d a := getEpFromQpIndex_state ..
  rw [hstate] at hvalid ⊢
  have hep : ∀ pe', (update s.world me ((s.world me).withCursors d a) pe').ep =
      (s.world pe').ep := by
    intro pe'
    by_cases hpe' : pe' = me
    · rw [hpe', update_self]
      rfl
    · rw [update_of_ne hpe']
  refine { h.update me d a with fits := h.fits, default_valid := ?_, uses := ?_ }
  · exact (forall_update_iff _ fun _ (state : State) => state.DefaultValid job).mpr
      ⟨hvalid, fun pe' _ => h.default_valid pe'⟩
  · apply Lists.forall_mem_concat
    · intro u hu
      obtain ⟨hupe, qp, hqp, hu, hsel⟩ := h.uses u hu
      exact ⟨hupe, qp, hqp, hu.trans (congrFun (hep u.me) _).symm, hsel⟩
    · obtain ⟨qp, hqp, hget, hsel⟩ := h.exists_selected hknown
      rw [hentry] at hget
      refine ⟨hpe, qp, hqp, ?_, hsel⟩
      rw [Option.some.inj hget, hep]

theorem step {a : Action} {t : System} (ht : s.step job a = some t) :
    ∃ count', Inv job t count' := by
  cases a with
  | connect numQps =>
    simp only [System.step, Option.ite_none_right_eq_some, Option.some.injEq] at ht
    obtain ⟨hfit, rfl⟩ := ht
    exact ⟨_, h.connect hfit⟩
  | post me handle pe =>
    simp only [System.step, Option.ite_none_right_eq_some, Option.map_eq_some_iff] at ht
    obtain ⟨⟨-, hpe, hknown⟩, entry, hentry, rfl⟩ := ht
    exact ⟨count, h.post hpe hknown hentry⟩

theorem onHost_iff (hpe : u.pe < job.nPes) (hqp : qp < job.ibNumRcPerDevice + 1 + count)
    (hep : u.ep = (s.world u.me).ep (qp * job.nPes + u.pe)) : u.OnHost job s ↔ qp = 0 := by
  rw [Use.OnHost, hep, h.hostEpIndex_eq]
  constructor
  · rintro ⟨peer, hpeer, heq⟩
    have hhost : qpHost + peer = 0 * job.nPes + peer := by rw [Nat.zero_mul, qpHost]
    rw [hhost] at heq
    have heq := h.ep_inj u.me _ _ (mul_add_lt hqp hpe) (mul_add_lt (by omega) hpeer) heq
    exact (eq_and_eq_of_mul_add_eq hpe hpeer heq).1
  · rintro rfl
    exact ⟨u.pe, hpe, by rw [Nat.zero_mul, qpHost]⟩

theorem mem_quiet {qpIndex : ℕ} (hpe : pe < job.nPes) (hqp : qp < job.ibNumRcPerDevice + 1 + count)
    (hmem : qp * job.nPes + pe ∈ (s.world me).quietEntries job pe qpIndex) :
    (s.world me).ep (qp * job.nPes + pe) ∈ (s.world me).quiet job pe qpIndex := by
  have hpos := h.ep_pos me _ (mul_add_lt hqp hpe)
  exact mem_filter.mpr ⟨mem_map_of_mem hmem, decide_eq_true hpos.ne'⟩

theorem mem_quietEntries (hsel : u.Selected job qp) (hqp : qp < job.ibNumRcPerDevice + 1 + count)
    (hpos : u.handle ≠ .host → 0 < qp) :
    qp * job.nPes + u.pe ∈ (s.world u.me).quietEntries job u.pe u.handle.qpIndex := by
  obtain ⟨me, handle, pe, ep, curAny, totalQps⟩ := u
  have htotal : (s.world me).nextQpIndex / job.nPes = job.ibNumRcPerDevice + 1 + count := by
    rw [h.nextQpIndex_eq, Nat.mul_div_cancel _ job.nPes_pos]
  cases handle with
  | host =>
    have hne : qpHost ≠ qpDefault := Nat.zero_ne_one
    have hne' : qpHost ≠ qpAny := by decide
    rw [Handle.qpIndex, quietEntries, if_neg hne, if_neg hne', getEpFromQpIndex,
      if_pos rfl, h.hostEpIndex_eq, hsel, Nat.zero_mul]
    exact mem_singleton.mpr rfl
  | default =>
    rw [Handle.qpIndex, quietEntries, if_pos rfl, mem_map]
    have hqp0 : 0 < qp := hpos Handle.noConfusion
    have hdef : 0 < job.ibNumRcPerDevice := by
      by_contra hdef
      simp only [Use.Selected, if_neg hdef] at hsel
      exact hqp0.ne' hsel
    simp only [Use.Selected, if_pos hdef] at hsel
    exact ⟨qp - 1, mem_range.mpr (by omega), by rw [Nat.sub_add_cancel hqp0]⟩
  | any =>
    have hne : qpAny ≠ qpDefault := by decide
    rw [Handle.qpIndex, quietEntries, if_neg hne, if_pos rfl, mem_map, htotal]
    have hqp0 : 0 < qp := hpos Handle.noConfusion
    exact ⟨qp, mem_range'_1.mpr (by omega), rfl⟩
  | created x =>
    have hqp0 : 0 < qp := hpos Handle.noConfusion
    have hdef : x ≠ qpDefault := by
      intro hdef
      simp only [Use.Selected, if_pos hdef] at hsel
      exact hqp0.ne' hsel
    simp only [Use.Selected, if_neg hdef] at hsel
    have hnext : x < (s.world me).nextQpIndex := by
      rw [h.nextQpIndex_eq, hsel.2]
      exact Nat.mul_lt_mul_of_pos_right hqp job.nPes_pos
    have hany : x ≠ qpAny := by
      have hle := h.nextQpIndex_eq me ▸ h.fits
      exact (hnext.trans_le hle).ne
    have hgt : qpDefault < x := by
      have hxpos : 0 < x := hsel.2 ▸ Nat.mul_pos hqp0 job.nPes_pos
      exact lt_of_le_of_ne hxpos (Ne.symm hdef)
    rw [Handle.qpIndex, quietEntries, if_neg hdef, if_neg hany,
      getEpFromQpIndex_of_lt hgt hnext hany, hsel.2]
    exact mem_singleton.mpr rfl

theorem sound_iff (hpe : u.pe < job.nPes) (hqp : qp < job.ibNumRcPerDevice + 1 + count)
    (hep : u.ep = (s.world u.me).ep (qp * job.nPes + u.pe)) (hsel : u.Selected job qp) :
    u.Sound job s ↔ (u.handle ≠ .host → 0 < qp) := by
  rw [Use.Sound, h.onHost_iff hpe hqp hep]
  simp only [← Nat.pos_iff_ne_zero, ← ne_eq qp]
  refine and_iff_left_of_imp fun hpos => ?_
  rw [hep]
  exact h.mem_quiet hpe hqp (h.mem_quietEntries hsel hqp hpos)

end Facts

end Inv

end System

theorem Use.Selected.selectsDevice_iff {u : Use} {qp : ℕ} (h : u.Selected job qp) :
    u.SelectsDevice job ↔ (u.handle ≠ .host → 0 < qp) := by
  obtain ⟨me, handle, pe, ep, curAny, totalQps⟩ := u
  cases handle with
  | host => exact ⟨fun _ hne => absurd rfl hne, fun _ => trivial⟩
  | any =>
    simp only [Use.Selected, Use.SelectsDevice] at h ⊢
    simp [h, Nat.pos_iff_ne_zero]
  | default | created x =>
    simp only [Use.Selected, Use.SelectsDevice] at h ⊢
    split at h <;> simp_all

namespace System.Inv

variable {s t : System} {count me pe : ℕ} {handle : Handle}

theorem mem_quiet_of_selectsDevice (h : Inv job s count) {u : Use} (hu : u ∈ s.uses)
    (hsel : u.SelectsDevice job) : u.ep ∈ (s.world u.me).quiet job u.pe u.handle.qpIndex := by
  obtain ⟨hpe, qp, hqp, hep, hselected⟩ := h.uses u hu
  exact ((h.sound_iff hpe hqp hep hselected).mpr (hselected.selectsDevice_iff.mp hsel)).2

theorem exec_post {n : ℕ} (h : Inv job s count)
    (ht : exec (System.step job) s (.replicate n (.post me handle pe)) = some t) :
    Inv job t count ∧ ∃ uses : List Use, t.uses = s.uses ++ uses ∧ uses.length = n ∧
      ∀ u ∈ uses, u.me = me ∧ u.handle = handle ∧ u.pe = pe := by
  induction n generalizing s with
  | zero =>
    cases ht
    exact ⟨h, [], (append_nil _).symm, rfl, fun u hu => absurd hu not_mem_nil⟩
  | succ n ih =>
    obtain ⟨s₁, hs₁, ht⟩ := exec_cons_eq_some.mp ht
    simp only [System.step, Option.ite_none_right_eq_some, Option.map_eq_some_iff] at hs₁
    obtain ⟨⟨-, hpe, hknown⟩, entry, hentry, rfl⟩ := hs₁
    obtain ⟨hinv, uses, huses, hlen, hall⟩ := ih (h.post hpe hknown hentry) ht
    rw [append_assoc] at huses
    exact ⟨hinv, _, huses, congrArg (· + 1) hlen, forall_mem_cons.mpr ⟨⟨rfl, rfl, rfl⟩, hall⟩⟩

end System.Inv

/-- In every run, an operation is sound exactly if its handle did not select the host's queue
pair: with the handle for any queue pair, its cursor was not there. -/
theorem use_sound_iff (job : Job) (hfit : (job.ibNumRcPerDevice + 1) * job.nPes ≤ intMax)
    (s : System) (hs : Reachable (System.step job) (System.start job) s) :
    ∀ u ∈ s.uses, u.Sound job s ↔ u.SelectsDevice job := by
  obtain ⟨count, h⟩ := hs.invariant (I := fun s => ∃ count, System.Inv job s count)
    ⟨0, System.Inv.start hfit⟩ fun ⟨_, h⟩ ht => h.step ht
  intro u hu
  obtain ⟨hpe, qp, hqp, hep, hsel⟩ := h.uses u hu
  rw [h.sound_iff hpe hqp hep hsel, hsel.selectsDevice_iff]

def Job.two : Job := ⟨2, 1, Nat.two_pos⟩

/-- The second of two operations with the handle for any queue pair is sound. -/
theorem use_sound_second : ∃ s, Reachable (System.step Job.two) (System.start Job.two) s ∧
    ∃ u ∈ s.uses, u.handle = .any ∧ u.Sound Job.two s := by
  refine Reachable.exists_of_exec [.post 0 .any 1, .post 0 .any 1] (fun s =>
    ∃ u ∈ s.uses, u.handle = .any ∧ u.curAnyQpIndex % u.totalQps ≠ 0) (by decide) ?_
  rintro s hr ⟨u, hu, hany, hcur⟩
  refine ⟨u, hu, hany, (use_sound_iff Job.two (by decide) s hr u hu).mpr ?_⟩
  rw [Use.SelectsDevice, hany]
  exact hcur

/-- The first operation with the handle for any queue pair is on the host's, and a quiet with this
handle does not wait for it. -/
theorem not_use_sound_first : ∃ s, Reachable (System.step Job.two) (System.start Job.two) s ∧
    ∃ u ∈ s.uses, u.handle = .any ∧ u.OnHost Job.two s ∧
      u.ep ∉ (s.world u.me).quiet Job.two u.pe u.handle.qpIndex :=
  ⟨_, .of_exec (show exec (System.step Job.two) (System.start Job.two) [.post 0 .any 1] = some _
    from rfl), _, mem_cons_self, rfl, ⟨1, by decide, by decide⟩, by decide⟩

end Nvshmem.Ib
