import Nvshmem.Lists.Update
import Nvshmem.Team.Create

/-! # What holds during team creation

A PE runs its creations in order, and each takes it through the same ranks. The write of a
rank has reached a peer, or the slot for a peer has been reset, once and for all. If no
index is written into a slot that its owner still resets for an earlier creation, the index
stays in the slot until the owner resets it for the same creation.
-/

namespace Nvshmem.TeamCreate

open Tables Function Option List TeamCreate.Action PeState

def PeState.rank (state : PeState) : ℕ := (Stage.stateBarrier state).rank

@[grind =]
theorem PeState.rank_readPeInTeam : readPeInTeam.rank = 3 := rfl

@[grind =]
theorem PeState.rank_wroteIndex : wroteIndex.rank = 4 := rfl

@[grind =]
theorem PeState.rank_done : done.rank = 5 := rfl

theorem Stage.rank_le (stage : Stage) : stage.rank ≤ 9 := by
  rcases stage with _ | _ | _ | (_ | _ | _) | _ | _ | _ | _ <;> decide

theorem PeState.rank_bounds (state : PeState) : 3 ≤ state.rank ∧ state.rank ≤ 5 := by
  cases state <;> decide

grind_pattern rank_bounds => state.rank

theorem PeState.rank_injective {a b : PeState} (h : a.rank = b.rank) : a = b := by
  revert h
  cases a <;> cases b <;> decide

theorem PeState.or_bit_and (x : ℕ) (a b : PeState) :
    (x ||| a.bit) &&& b.bit ≠ 0 ↔ x &&& b.bit ≠ 0 ∨ a = b := by
  have h : a.bit &&& b.bit ≠ 0 ↔ a = b := by
    cases a <;> cases b <;> decide
  rw [Nat.and_or_distrib_right, Ne, Nat.or_eq_zero_iff, not_and_or, ← h]

namespace Action

@[grind =]
def pe : Action → ℕ
  | .start p _ | .put p _ _ | .announce p _ | .poll p _ _ | .read p _ _ | .finishPolling p _
  | .signal p _ _ _ | .pass p _ _ | .leaveBarrier p _ | .resetUniqueid p _ | .resetSlot p _ _
  | .finishReset p _ | .leaveSync p _ => p

@[grind =]
def uid : Action → ℕ
  | .start _ u | .put _ u _ | .announce _ u | .poll _ u _ | .read _ u _ | .finishPolling _ u
  | .signal _ u _ _ | .pass _ u _ | .leaveBarrier _ u | .resetUniqueid _ u | .resetSlot _ u _
  | .finishReset _ u | .leaveSync _ u => u

@[grind =]
def source : Action → ℕ
  | .start .. => 0
  | .put .. | .announce .. => 1
  | .poll .. | .read .. | .finishPolling .. => 2
  | .signal _ _ state _ | .pass _ _ state => state.rank
  | .leaveBarrier .. => 6
  | .resetUniqueid .. | .resetSlot .. | .finishReset .. => 7
  | .leaveSync .. => 8

@[grind =]
def target : Action → ℕ
  | .start .. | .put .. => 1
  | .announce .. | .poll .. | .read .. => 2
  | .finishPolling .. => 3
  | .signal _ _ state _ => state.rank
  | .pass _ _ state => state.rank + 1
  | .leaveBarrier .. | .resetUniqueid .. | .resetSlot .. => 7
  | .finishReset .. => 8
  | .leaveSync .. => 9

theorem source_lt (a : Action) : a.source < 9 := by
  cases a <;> grind

theorem source_le_target (a : Action) : a.source ≤ a.target ∧ a.target ≤ a.source + 1 := by
  cases a <;> grind

end Action

namespace State

def Sent (s : State) (q u p n : ℕ) : Prop :=
  n < (s.stage q u).rank ∨ (s.stage q u).rank = n ∧ (p = q ∨ p ∉ s.unsent q)

def Erased (s : State) (p q u : ℕ) : Prop :=
  8 ≤ (s.stage p u).rank ∨ (s.stage p u).rank = 7 ∧ q + 1 < s.cleared p

instance (s : State) (p q u : ℕ) : Decidable (s.Erased p q u) :=
  inferInstanceAs (Decidable (_ ∨ _))

/-- A PE writes its index for a creation to a member only after the member has reset its slot for
the PE in every earlier creation. -/
def WritesAfterReset (plan : Plan) (s : State) : Action → Prop
  | .put q v p => v ∈ plan.program p → ∀ u ∈ plan.program p, plan.Before p u v → s.Erased p q u
  | _ => True

instance (plan : Plan) (s : State) (a : Action) : Decidable (s.WritesAfterReset plan a) :=
  match a with
  | .put q v p =>
    inferInstanceAs (Decidable (v ∈ plan.program p → ∀ u ∈ plan.program p,
      plan.Before p u v → s.Erased p q u))
  | .start .. | .announce .. | .poll .. | .read .. | .finishPolling .. | .signal .. | .pass ..
  | .leaveBarrier .. | .resetUniqueid .. | .resetSlot .. | .finishReset .. | .leaveSync .. =>
    .isTrue trivial

variable {plan : Plan} {s t : State} {a : Action} {p q u v : ℕ}

theorem rank_of_enabled (he : s.Enabled plan a) : (s.stage a.pe a.uid).rank = a.source := by
  cases a <;> simp only [Enabled] at he <;>
    simp [he.1, pe, uid, source, Stage.rank, rank]

theorem rank_effect (he : s.Enabled plan a) (p u : ℕ) : ((s.effect plan a).stage p u).rank =
    if p = a.pe ∧ u = a.uid then a.target else (s.stage p u).rank := by
  have hr := rank_of_enabled he
  cases a with
  | pass _ _ state =>
    cases state <;> simp only [effect, enter, set₂_apply, apply_ite Stage.rank] <;> rfl
  | read p u q =>
    simp only [effect, pe, uid, source, target] at *
    grind
  | _ =>
    simp only [effect, enter, set₂_apply, apply_ite Stage.rank] at *
    grind [Stage.rank]

theorem rank_le_effect (he : s.Enabled plan a) (p u : ℕ) :
    (s.stage p u).rank ≤ ((s.effect plan a).stage p u).rank := by
  rw [rank_effect he]
  split
  · next h =>
    rw [h.1, h.2, rank_of_enabled he]
    exact a.source_le_target.1
  · exact le_rfl

theorem created_of_start (he : s.Enabled plan (.start p u)) : u ∈ plan.program p ∧
    ∀ v ∈ plan.program p, plan.Before p v u → (s.stage p v).rank = 9 := by
  refine ⟨he.2.1, fun v hv hb => ?_⟩
  rw [he.2.2 v hv hb]
  rfl

theorem mem_peers : q ∈ peers plan p ↔ q < plan.npes ∧ q ≠ p := by
  simp [peers]

theorem nodup_peers : (peers plan p).Nodup := nodup_range.filter _

structure Inv (plan : Plan) (s : State) : Prop where
  started : ∀ {p u}, 0 < (s.stage p u).rank → u ∈ plan.program p ∧
    ∀ v ∈ plan.program p, plan.Before p v u → (s.stage p v).rank = 9
  uniqueid : ∀ {p u}, s.uniqueid p = some u ↔
    2 ≤ (s.stage p u).rank ∧ (s.stage p u).rank ≤ 6 ∨ (s.stage p u).rank = 7 ∧ s.cleared p = 0
  cleared : ∀ {p u}, (s.stage p u).rank = 7 → s.cleared p ≤ plan.npes + 1
  unsent : ∀ p, (s.unsent p).Nodup ∧ ∀ q ∈ s.unsent p, q < plan.npes ∧ q ≠ p
  signals : ∀ {p u}, 3 ≤ (s.stage p u).rank → (s.stage p u).rank ≤ 5 →
    ∀ q ∈ s.unsent p, q ∈ plan.members u
  kept : ∀ {p q u}, s.Sent q u p 1 → u ∈ plan.program p → ¬ s.Erased p q u →
    s.peInTeam p q = some (plan.index u q) ∧
      ∀ v ∈ plan.program p, plan.Before p v u → s.Erased p q v
  seen : ∀ {p q}, s.seen p q = true → ∃ u, (s.stage p u).rank = 2 ∧ 2 ≤ (s.stage q u).rank ∧
    p ≠ q ∧ s.peIndex p u q = none
  peIndex : ∀ {p u q k}, s.peIndex p u q = some k → k = plan.index u q ∧
    0 < (s.stage p u).rank ∧ (q = p ∨ 2 ≤ (s.stage q u).rank)
  peMapping : ∀ {p u q k}, s.peMapping p u k = some q ↔ s.peIndex p u q = some k
  own : ∀ {p u}, 0 < (s.stage p u).rank → s.peIndex p u p = some (plan.index u p)
  found : ∀ {p u}, (s.stage p u).rank = 1 ∨ (s.stage p u).rank = 2 →
    s.numPeersFound p = ((plan.members u).toFinset.filter (s.peIndex p u · ≠ none)).card
  mapped : ∀ {p u}, 3 ≤ (s.stage p u).rank →
    ∀ q ∈ plan.members u, s.peIndex p u q = some (plan.index u q)
  arrived : ∀ {p u}, ∀ state : PeState, state.rank < (s.stage p u).rank →
    ∀ q ∈ plan.members u, s.Sent q u p state.rank
  met : ∀ {p u n}, n = 6 ∨ n = 8 → n < (s.stage p u).rank →
    ∀ q ∈ plan.members u, n ≤ (s.stage q u).rank
  bits : ∀ {p q}, ∀ state : PeState, s.stateIdx p q &&& state.bit ≠ 0 ↔
    ∃ u, u ∈ plan.program p ∧ u ∈ plan.program q ∧ ¬ s.Erased p q u ∧ s.Sent q u p state.rank

theorem Inv.init : Inv plan init where
  started h := absurd h (Nat.lt_irrefl 0)
  uniqueid := by simp [State.init, Stage.rank]
  cleared h := by simp [State.init, Stage.rank] at h
  unsent p := by simp [State.init]
  signals h := by simp [State.init, Stage.rank] at h
  kept h := by simp [Sent, State.init, Stage.rank] at h
  seen h := by simp [State.init] at h
  peIndex h := by simp [State.init] at h
  peMapping := by simp [State.init]
  own h := absurd h (Nat.lt_irrefl 0)
  found h := by simp [State.init, Stage.rank] at h
  mapped h := by simp [State.init, Stage.rank] at h
  arrived _ h := by simp [State.init, Stage.rank] at h
  met _ h := by simp [State.init, Stage.rank] at h
  bits state := by
    simp only [State.init, Sent, Erased, Stage.rank]
    grind

theorem peInTeam_effect (plan : Plan) (s : State) (a : Action) (p q : ℕ) :
    (s.effect plan a).peInTeam p q = s.peInTeam p q ∨ (∃ u, a = .start p u ∧ p = q) ∨
      (∃ u, a = .put q u p) ∨ ∃ u, a = .resetSlot p u q := by
  cases a with
  | pass _ _ state => cases state <;> exact .inl rfl
  | read _ _ _ =>
    simp only [effect]
    split <;> exact .inl rfl
  | start _ _ | put _ _ _ | resetSlot _ _ _ =>
    simp only [effect, set₂_apply]
    split <;> simp_all
  | _ => exact .inl rfl

theorem stateIdx_effect (plan : Plan) (s : State) (a : Action) (p q : ℕ) :
    ((s.effect plan a).stateIdx p q = s.stateIdx p q ∧
      (∀ state, ¬ (a.pe = p ∧ p = q ∧ a.target = a.source + 1 ∧ a.target = rank state)) ∧
      (∀ u state, a ≠ .signal q u state p) ∧ ∀ u, a ≠ .resetSlot p u q) ∨
    (∃ u, a = .start p u ∧ p = q ∧ (s.effect plan a).stateIdx p q = 0) ∨
    (∃ state, a.pe = p ∧ p = q ∧ a.target = a.source + 1 ∧ a.target = rank state ∧
      (s.effect plan a).stateIdx p q = s.stateIdx p q ||| state.bit) ∨
    (∃ u state, a = .signal q u state p ∧ (s.effect plan a).stateIdx p q = s.stateIdx q q) ∨
    ∃ u, a = .resetSlot p u q ∧ (s.effect plan a).stateIdx p q = 0 := by
  cases a with
  | pass _ _ state =>
    cases state <;> simp only [effect, enter, set₂_apply] <;> grind
  | read _ _ _ =>
    left
    simp only [effect]
    split <;> simp <;> grind
  | finishPolling _ _ =>
    simp only [effect, enter, set₂_apply]
    grind
  | start _ _ | signal _ _ _ _ | resetSlot _ _ _ =>
    simp only [effect, set₂_apply]
    split
    · simp_all
    · grind
  | _ =>
    left
    simp only [effect]
    grind

section Frame

theorem before_or_before (hu : u ∈ plan.program p) (hv : v ∈ plan.program p) (huv : u ≠ v) :
    plan.Before p u v ∨ plan.Before p v u := by
  have h : (plan.program p).idxOf u ≠ (plan.program p).idxOf v := by
    intro h
    exact huv ((idxOf_inj hu).mp h)
  rcases Nat.lt_or_gt_of_ne h with h | h
  · exact .inl ⟨hu, h⟩
  · exact .inr ⟨hv, h⟩

variable (hi : s.Inv plan)
include hi

theorem Inv.running_unique (hu : 0 < (s.stage p u).rank) (hu' : (s.stage p u).rank < 9)
    (hv : 0 < (s.stage p v).rank) (hv' : (s.stage p v).rank < 9) : u = v := by
  by_contra huv
  obtain ⟨hpu, hbu⟩ := hi.started hu
  obtain ⟨hpv, hbv⟩ := hi.started hv
  rcases before_or_before hpu hpv huv with h | h
  · have := hbv u hpu h
    omega
  · have := hbu v hpv h
    omega

theorem Inv.only_running (he : s.Enabled plan a) (hv : 0 < (s.stage a.pe v).rank)
    (hv' : (s.stage a.pe v).rank < 9) : v = a.uid := by
  have hr := rank_of_enabled he
  by_cases h0 : a.source = 0
  · obtain ⟨p, u, rfl⟩ : ∃ p u, a = .start p u := by
      cases a <;> grind
    obtain ⟨hu, hb⟩ := created_of_start he
    simp only [pe, uid] at *
    by_contra hne
    obtain ⟨hpv, hb'⟩ := hi.started hv
    rcases before_or_before hu hpv (Ne.symm hne) with h | h
    · have := hb' u hu h
      omega
    · have := hb v hpv h
      omega
  · have := a.source_lt
    exact hi.running_unique hv hv' (by omega) (by omega)

theorem Inv.frame (he : s.Enabled plan a) (p u : ℕ) :
    (s.stage a.pe a.uid).rank = a.source ∧
      ((s.effect plan a).stage p u).rank =
        (if p = a.pe ∧ u = a.uid then a.target else (s.stage p u).rank) ∧
      (0 < (s.stage a.pe u).rank → (s.stage a.pe u).rank < 9 → u = a.uid) :=
  ⟨rank_of_enabled he, rank_effect he p u, hi.only_running he⟩

theorem Inv.erased_of_created (h : (s.stage q u).rank = 9) (hp : p ∈ plan.members u) (i : ℕ) :
    s.Erased p i u := by
  have h8 : 8 < (s.stage q u).rank := by omega
  exact .inl (hi.met (.inr rfl) h8 p hp)

theorem Inv.sent_mono (he : s.Enabled plan a) {n : ℕ} (hn : n = 1 ∨ 3 ≤ n ∧ n ≤ 5)
    (h : s.Sent q u p n) : (s.effect plan a).Sent q u p n := by
  obtain ⟨hr, hr', hv⟩ := hi.frame he q u
  rcases a with _ | _ | _ | _ | _ | _ | _ | ⟨_, _, _ | _ | _⟩ | _ | _ | _ | _ | _ <;>
    simp only [effect, enter, Sent, update_apply, Enabled] at * <;> grind

theorem Inv.erased_mono (he : s.Enabled plan a) (h : s.Erased p q u) :
    (s.effect plan a).Erased p q u := by
  obtain ⟨hr, hr', hv⟩ := hi.frame he p u
  rcases a with _ | _ | _ | _ | _ | _ | _ | ⟨_, _, _ | _ | _⟩ | _ | _ | _ | _ | _ <;>
    simp only [effect, enter, Erased, update_apply, Enabled] at * <;> grind

theorem Inv.erased_effect (he : s.Enabled plan a) (hq : q < plan.npes)
    (h : (s.effect plan a).Erased p q u) : s.Erased p q u ∨ a = .resetSlot p u q := by
  obtain ⟨hr, hr', hv⟩ := hi.frame he p u
  rcases a with _ | _ | _ | _ | _ | _ | _ | ⟨_, _, _ | _ | _⟩ | _ | _ | _ | _ | _ <;>
    simp only [effect, enter, Erased, update_apply, Enabled] at * <;> grind

theorem Inv.sent_one_effect (he : s.Enabled plan a) (hp : p < plan.npes)
    (h : (s.effect plan a).Sent q u p 1) :
    s.Sent q u p 1 ∨ a = .start q u ∧ p = q ∨ a = .put q u p := by
  obtain ⟨hr, hr', hv⟩ := hi.frame he q u
  have hs : p ≠ q → p ∈ peers plan q := by
    intro hne
    simp [peers, hp, hne]
  rcases a with _ | _ | _ | _ | _ | _ | _ | ⟨_, _, _ | _ | _⟩ | _ | _ | _ | _ | _ <;>
    simp only [effect, enter, Sent, update_apply, Enabled] at * <;> grind

theorem Inv.team_eq (h : ∀ q ∈ plan.members u, s.peIndex p u q = some (plan.index u q)) :
    s.team plan p u = plan.members u := by
  have hget : ∀ k ∈ range (plan.members u).length,
      s.peMapping p u k = (plan.members u)[k]? := by
    intro k hk
    have hk := mem_range.mp hk
    rw [getElem?_eq_getElem hk]
    refine hi.peMapping.mpr ?_
    rw [h _ (getElem_mem hk), Plan.index, (plan.members_nodup u).idxOf_getElem k hk]
  rw [team, filterMap_congr hget, Lists.filterMap_getElem?_range]

theorem Inv.mapped_of_finish (he : s.Enabled plan (.finishPolling p u)) :
    ∀ q ∈ plan.members u, s.peIndex p u q = some (plan.index u q) := by
  intro q hq
  have hr : (s.stage p u).rank = 2 := rank_of_enabled he
  have hlen := he.2.1
  rw [hi.found (.inr hr), ← toFinset_card_of_nodup (plan.members_nodup u)] at hlen
  have hall := Finset.eq_of_subset_of_card_le (Finset.filter_subset _ _) hlen
  have hmem := (Finset.mem_filter.mp (hall ▸ mem_toFinset.mpr hq)).2
  obtain ⟨k, hk⟩ := ne_none_iff_exists'.mp hmem
  rw [hk, (hi.peIndex hk).1]

theorem Inv.team_of_enter (he : s.Enabled plan a) (h3 : 3 ≤ a.target) :
    s.team plan a.pe a.uid = plan.members a.uid := by
  have hr := rank_of_enabled he
  by_cases h : 3 ≤ (s.stage a.pe a.uid).rank
  · exact hi.team_eq (hi.mapped h)
  · obtain ⟨p, u, rfl⟩ : ∃ p u, a = .finishPolling p u := by
      cases a <;> grind
    exact hi.team_eq (hi.mapped_of_finish he)

theorem Inv.mem_members (h : 0 < (s.stage p u).rank) : p ∈ plan.members u :=
  plan.mem_members p u (hi.started h).1

theorem Inv.lt_npes (h : 0 < (s.stage p u).rank) : p < plan.npes :=
  plan.members_lt u p (hi.mem_members h)

theorem Inv.two_le_rank (h : 3 ≤ (s.stage p u).rank) (hq : q ∈ plan.members u) :
    2 ≤ (s.stage q u).rank := by
  rcases (hi.peIndex (hi.mapped h q hq)).2.2 with rfl | h'
  · omega
  · exact h'

theorem Inv.sent_state_effect (he : s.Enabled plan a) (state : PeState) (hp : p ∈ plan.members u)
    (h : (s.effect plan a).Sent q u p state.rank) : s.Sent q u p state.rank ∨
      (a.pe = p ∧ p = q ∧ a.target = a.source + 1 ∧ a.target = state.rank) ∨
      a = .signal q u state p := by
  obtain ⟨hr, hr', hv⟩ := hi.frame he q u
  have hteam := hi.team_of_enter he
  have hstate : ∀ state' : PeState, state.rank = state'.rank → state = state' :=
    fun _ => rank_injective
  rcases a with _ | _ | _ | _ | _ | _ | _ | ⟨_, _, _ | _ | _⟩ | _ | _ | _ | _ | _ <;>
    simp only [effect, enter, Sent, update_apply, Enabled] at * <;> grind

end Frame

section Step

variable (hi : s.Inv plan) (he : s.Enabled plan a)
include hi he

theorem Inv.started_effect (h : 0 < ((s.effect plan a).stage p u).rank) : u ∈ plan.program p ∧
    ∀ v ∈ plan.program p, plan.Before p v u → ((s.effect plan a).stage p v).rank = 9 := by
  have hr := rank_of_enabled he
  have hr' := rank_effect he p
  have hb : ∀ v, (s.stage p v).rank = 9 → ((s.effect plan a).stage p v).rank = 9 := by
    intro v hv
    have := a.source_lt
    grind
  by_cases h0 : 0 < (s.stage p u).rank
  · exact ⟨(hi.started h0).1, fun v hv hvu => hb v ((hi.started h0).2 v hv hvu)⟩
  · obtain ⟨rfl, rfl, hs⟩ : p = a.pe ∧ u = a.uid ∧ a.source = 0 := by grind
    obtain ⟨p, u, rfl⟩ : ∃ p u, a = .start p u := by
      cases a <;> grind
    obtain ⟨hu, hc⟩ := created_of_start he
    exact ⟨hu, fun v hv hvu => hb v (hc v hv hvu)⟩

theorem Inv.uniqueid_effect : (s.effect plan a).uniqueid p = some u ↔
    2 ≤ ((s.effect plan a).stage p u).rank ∧ ((s.effect plan a).stage p u).rank ≤ 6 ∨
      ((s.effect plan a).stage p u).rank = 7 ∧ (s.effect plan a).cleared p = 0 := by
  obtain ⟨hr, hr', hv⟩ := hi.frame he p u
  have hu := @hi.uniqueid p u
  rcases a with _ | _ | _ | _ | _ | _ | _ | ⟨_, _, _ | _ | _⟩ | _ | _ | _ | _ | _ <;>
    simp only [effect, enter, update_apply, Enabled] at * <;> grind

theorem Inv.cleared_effect (h : ((s.effect plan a).stage p u).rank = 7) :
    (s.effect plan a).cleared p ≤ plan.npes + 1 := by
  obtain ⟨hr, hr', hv⟩ := hi.frame he p u
  have hc := @hi.cleared p u
  rcases a with _ | _ | _ | _ | _ | _ | _ | ⟨_, _, _ | _ | _⟩ | _ | _ | _ | _ | _ <;>
    simp only [effect, enter, update_apply, Enabled] at * <;> grind

theorem Inv.peInTeam_of_kept (hu : u ∈ plan.program p) (h : s.Sent q u p 1)
    (hne : ¬ (s.effect plan a).Erased p q u) :
    (s.effect plan a).peInTeam p q = s.peInTeam p q := by
  have hp : p ∈ plan.members u := plan.mem_members p u hu
  have hne' : ¬ s.Erased p q u := fun h => hne (hi.erased_mono he h)
  have hr := rank_of_enabled he
  rcases peInTeam_effect plan s a p q with heq | ⟨v, rfl, rfl⟩ | ⟨v, rfl⟩ | ⟨v, rfl⟩
  · exact heq
  · -- the owner does not start another creation
    have hv := hi.only_running (v := u) he
    simp only [Sent, Erased, pe, uid, source] at *
    grind
  · -- the peer has put its index already, or has seen the owner finish
    have hv := hi.only_running (v := u) he
    have h9 : (s.stage q u).rank ≠ 9 := fun h9 => hne' (hi.erased_of_created h9 hp q)
    have hq := hi.unsent q
    have := (s.stage q u).rank_le
    simp only [Sent, Erased, pe, uid, source, Enabled] at *
    grind
  · obtain ⟨hs, hc, -⟩ := he
    simp only [pe, uid, source] at hr
    by_cases hvu : v = u
    · subst hvu
      exact absurd (.inr ⟨hr, by simp [effect]⟩) hne
    · have hrest := (hi.kept h hu hne').2
      rcases before_or_before (hi.started (by omega)).1 hu hvu with hb | hb
      · rcases hrest v (hi.started (by omega)).1 hb with h8 | ⟨_, hc'⟩ <;> omega
      · exact absurd (.inl (by rw [(hi.started (by omega)).2 u hu hb]; decide)) hne'

theorem Inv.kept_effect (ok : s.WritesAfterReset plan a) (h : (s.effect plan a).Sent q u p 1)
    (hu : u ∈ plan.program p) (hne : ¬ (s.effect plan a).Erased p q u) :
    (s.effect plan a).peInTeam p q = some (plan.index u q) ∧
      ∀ v ∈ plan.program p, plan.Before p v u → (s.effect plan a).Erased p q v := by
  have hp := plan.members_lt u p (plan.mem_members p u hu)
  have hr := rank_of_enabled he
  rcases hi.sent_one_effect he hp h with h | ⟨rfl, rfl⟩ | rfl
  · obtain ⟨hval, hbefore⟩ := hi.kept h hu fun h => hne (hi.erased_mono he h)
    rw [hi.peInTeam_of_kept he hu h hne]
    exact ⟨hval, fun v hv hb => hi.erased_mono he (hbefore v hv hb)⟩
  · obtain ⟨_, hb⟩ := created_of_start he
    simp only [effect, set₂_self, true_and]
    intro v hv hvu
    refine hi.erased_mono he (.inl ?_)
    rw [hb v hv hvu]
    decide
  · have hown : s.peInTeam q q = some (plan.index u q) := by
      simp only [pe, uid, source] at hr
      refine (hi.kept (.inr ⟨hr, .inl rfl⟩) (hi.started (by omega)).1 ?_).1
      rintro (h | h) <;> omega
    simp only [effect, set₂_self, hown, true_and]
    intro v hv hvu
    exact hi.erased_mono he (ok hu v hv hvu)

theorem Inv.unsent_effect (p : ℕ) : ((s.effect plan a).unsent p).Nodup ∧
    ∀ q ∈ (s.effect plan a).unsent p, q < plan.npes ∧ q ≠ p := by
  have hp := hi.unsent p
  have hteam := hi.team_of_enter he
  have hnodup := plan.members_nodup a.uid
  have hlt := plan.members_lt a.uid
  have hpeers := @mem_peers plan
  have hpeers' := @nodup_peers plan
  rcases a with _ | _ | _ | _ | _ | _ | _ | ⟨_, _, _ | _ | _⟩ | _ | _ | _ | _ | _ <;>
    simp only [effect, enter, update_apply, Enabled] at * <;> grind

theorem Inv.signals_effect (h : 3 ≤ ((s.effect plan a).stage p u).rank)
    (h' : ((s.effect plan a).stage p u).rank ≤ 5) :
    ∀ q ∈ (s.effect plan a).unsent p, q ∈ plan.members u := by
  obtain ⟨hr, hr', hv⟩ := hi.frame he p u
  have hp := @hi.signals p u
  have hteam := hi.team_of_enter he
  rcases a with _ | _ | _ | _ | _ | _ | _ | ⟨_, _, _ | _ | _⟩ | _ | _ | _ | _ | _ <;>
    simp only [effect, enter, update_apply, Enabled] at * <;> grind

omit he in
theorem Inv.peInTeam_of_seen (hu : (s.stage p u).rank = 2) (h : s.seen p q = true) :
    s.peInTeam p q = some (plan.index u q) ∧ s.peIndex p u q = none ∧ 2 ≤ (s.stage q u).rank := by
  obtain ⟨v, hv, hq, hpq, hnone⟩ := hi.seen h
  obtain rfl := hi.running_unique (p := p) (u := u) (v := v) (by omega) (by omega) (by omega)
    (by omega)
  have hu' := (hi.started (p := p) (u := u) (by omega)).1
  refine ⟨(hi.kept (.inl (by omega)) hu' ?_).1, hnone, hq⟩
  rintro (h | h) <;> omega

theorem Inv.mapping_effect (p u : ℕ) :
    ((s.effect plan a).peIndex p u = s.peIndex p u ∧
      (s.effect plan a).peMapping p u = s.peMapping p u ∧
      (0 < ((s.effect plan a).stage p u).rank → (s.stage p u).rank < 9 →
        0 < (s.stage p u).rank ∧ (s.effect plan a).numPeersFound p = s.numPeersFound p)) ∨
    ∃ q, q ∈ plan.members u ∧ s.peIndex p u q = none ∧ a.pe = p ∧ a.uid = u ∧
      (s.effect plan a).peIndex p u = update (s.peIndex p u) q (some (plan.index u q)) ∧
      (s.effect plan a).peMapping p u =
        update (s.peMapping p u) (plan.index u q) (some q) ∧
      (a.source = 0 ∧ a.target = 1 ∧ q = p ∧ (s.effect plan a).numPeersFound p = 1 ∨
        a.source = 2 ∧ a.target = 2 ∧ 2 ≤ (s.stage q u).rank ∧
          (s.effect plan a).numPeersFound p = s.numPeersFound p + 1) := by
  obtain ⟨hr, hr', hv⟩ := hi.frame he p u
  cases a with
  | start i v =>
    simp only [pe, uid, source, target] at *
    by_cases h : p = i ∧ u = v
    · obtain ⟨rfl, rfl⟩ := h
      have hp := plan.mem_members p u he.2.1
      have hnone : s.peIndex p u p = none := by
        refine eq_none_iff_forall_ne_some.mpr fun k hk => ?_
        have := (hi.peIndex hk).2.1
        omega
      refine .inr ⟨p, hp, hnone, rfl, rfl, ?_, ?_, .inl ⟨trivial, trivial, rfl, ?_⟩⟩
      · funext i
        simp [effect, set₃_apply, update_apply]
      · funext i
        simp [effect, set₃_apply, update_apply]
      · simp [effect]
    · refine .inl ⟨?_, ?_, ?_⟩
      · funext i
        simp only [effect, set₃_apply]
        grind
      · funext i
        simp only [effect, set₃_apply]
        grind
      · simp only [effect, update_apply] at *
        grind
  | read i v j =>
    obtain ⟨hidx, hnone, hrank⟩ := hi.peInTeam_of_seen hr he.2.1
    simp only [effect, pe, uid, source, target] at *
    rw [if_pos hnone] at hr' ⊢
    by_cases h : p = i ∧ u = v
    · obtain ⟨rfl, rfl⟩ := h
      have hj := hi.mem_members (by omega : 0 < (s.stage j u).rank)
      refine .inr ⟨j, hj, hnone, rfl, rfl, ?_, ?_, .inr ⟨trivial, trivial, hrank, ?_⟩⟩
      · funext i
        simp [hidx, set₃_apply, update_apply]
      · funext i
        simp [hidx, set₃_apply, update_apply]
      · simp
    · refine .inl ⟨?_, ?_, ?_⟩
      · funext i
        grind
      · funext i
        grind
      · grind
  | pass _ _ state =>
    left
    cases state <;> simp only [effect, enter, true_and] at * <;> grind
  | _ =>
    left
    simp only [effect, enter, true_and] at *
    grind

theorem Inv.peIndex_effect {k : ℕ} (h : (s.effect plan a).peIndex p u q = some k) :
    k = plan.index u q ∧ 0 < ((s.effect plan a).stage p u).rank ∧
      (q = p ∨ 2 ≤ ((s.effect plan a).stage q u).rank) := by
  have hle := rank_le_effect he p u
  have hle' := rank_le_effect he q u
  rcases hi.mapping_effect he p u with ⟨hidx, -⟩ | ⟨j, hj, hnone, rfl, rfl, hidx, -, hcase⟩
  · have := hi.peIndex (hidx ▸ h)
    omega
  · rw [hidx] at h
    have htarget : 0 < ((s.effect plan a).stage a.pe a.uid).rank := by
      rw [rank_effect he, if_pos ⟨rfl, rfl⟩]
      omega
    have := @hi.peIndex a.pe a.uid q k
    grind

theorem Inv.peMapping_effect {k : ℕ} : (s.effect plan a).peMapping p u k = some q ↔
    (s.effect plan a).peIndex p u q = some k := by
  rcases hi.mapping_effect he p u with ⟨hidx, hmap, -⟩ | ⟨j, hj, hnone, -, -, hidx, hmap, -⟩
  · rw [hidx, hmap]
    exact hi.peMapping
  · rw [hidx, hmap, update_apply, update_apply]
    have hq := @hi.peMapping p u q k
    have hq' := @hi.peIndex p u q k
    have hinj : q ∈ plan.members u → plan.index u q = plan.index u j → q = j :=
      fun hq h => (idxOf_inj hq).mp h
    have hmem : s.peIndex p u q = some k → q ∈ plan.members u := by
      intro h
      obtain ⟨-, hp, rfl | hq⟩ := hi.peIndex h
      · exact hi.mem_members hp
      · exact hi.mem_members (by omega)
    grind

theorem Inv.own_effect (h : 0 < ((s.effect plan a).stage p u).rank) :
    (s.effect plan a).peIndex p u p = some (plan.index u p) := by
  rcases hi.mapping_effect he p u with ⟨hidx, -, hnum⟩ | ⟨j, hj, hnone, rfl, rfl, hidx, -, hcase⟩
  · rw [hidx]
    exact hi.own (by omega)
  · have := rank_of_enabled he
    have := @hi.own a.pe a.uid
    rw [hidx, update_apply]
    grind

theorem Inv.mapped_effect (h : 3 ≤ ((s.effect plan a).stage p u).rank) :
    ∀ q ∈ plan.members u, (s.effect plan a).peIndex p u q = some (plan.index u q) := by
  rw [rank_effect he] at h
  have hr := rank_of_enabled he
  rcases hi.mapping_effect he p u with ⟨hidx, -⟩ | ⟨j, hj, hnone, rfl, rfl, hidx, -, hcase⟩
  · rw [hidx]
    by_cases h3 : 3 ≤ (s.stage p u).rank
    · exact hi.mapped h3
    · obtain rfl : a = .finishPolling p u := by
        cases a <;> grind
      exact hi.mapped_of_finish he
  · rw [if_pos ⟨rfl, rfl⟩] at h
    omega

omit he in
theorem Inv.peIndex_of_poll (he : s.Enabled plan (.poll p u q)) :
    2 ≤ (s.stage q u).rank ∧ s.peIndex p u q = none := by
  have hr : (s.stage p u).rank = 2 := rank_of_enabled he
  obtain ⟨-, hpeer, huid, hnone, -⟩ := he
  have hq : 2 ≤ (s.stage q u).rank := by
    have := hi.uniqueid.mp huid
    omega
  refine ⟨hq, hnone.resolve_right ?_⟩
  have hu := (hi.started (p := p) (u := u) (by omega)).1
  have hne : ¬ s.Erased p q u := by
    rintro (h | h) <;> omega
  rw [(hi.kept (.inl (by omega)) hu hne).1]
  exact some_ne_none _

theorem Inv.seen_effect (h : (s.effect plan a).seen p q = true) :
    ∃ u, ((s.effect plan a).stage p u).rank = 2 ∧ 2 ≤ ((s.effect plan a).stage q u).rank ∧
      p ≠ q ∧ (s.effect plan a).peIndex p u q = none := by
  have hr := rank_of_enabled he
  by_cases h' : s.seen p q = true
  · obtain ⟨u, hp, hq, hpq, hnone⟩ := hi.seen h'
    have hr' := rank_effect he p u
    have hle := rank_le_effect he q u
    have hqp := mem_peers.mpr ⟨hi.lt_npes (by omega : 0 < (s.stage q u).rank), hpq.symm⟩
    refine ⟨u, ?_, by omega, hpq, ?_⟩
    · cases a with
      | finishPolling i v =>
        have := he.2.2 q
        grind
      | _ => grind
    · cases a with
      | pass _ _ state => cases state <;> exact hnone
      | read i v j =>
        obtain ⟨-, hnone', -⟩ := hi.peInTeam_of_seen hr he.2.1
        simp only [effect, pe, uid] at *
        rw [if_pos hnone'] at h ⊢
        grind
      | start i v =>
        simp only [effect, set₃_apply] at *
        grind
      | _ => exact hnone
  · obtain ⟨v, rfl⟩ : ∃ v, a = .poll p v q := by
      cases a with
      | pass _ _ state => cases state <;> exact absurd h h'
      | poll i v j =>
        simp only [effect, set₂_apply] at h
        split at h
        · simp_all
        · exact absurd h h'
      | read i v j =>
        simp only [effect] at h
        split at h <;> simp only [set₂_apply] at h <;> grind
      | _ => exact absurd h h'
    obtain ⟨hq, hnone⟩ := hi.peIndex_of_poll he
    exact ⟨v, hr, hq, (mem_peers.mp he.2.1).2.symm, hnone⟩

theorem Inv.found_effect (h : ((s.effect plan a).stage p u).rank = 1 ∨
      ((s.effect plan a).stage p u).rank = 2) : (s.effect plan a).numPeersFound p =
    ((plan.members u).toFinset.filter ((s.effect plan a).peIndex p u · ≠ none)).card := by
  have hle := rank_le_effect he p u
  rcases hi.mapping_effect he p u with ⟨hidx, -, hnum⟩ | ⟨j, hj, hnone, rfl, rfl, hidx, -, hcase⟩
  · have := hnum (by omega) (by omega)
    rw [hidx, this.2]
    exact hi.found (by omega)
  · have hr := rank_of_enabled he
    have hins : (plan.members a.uid).toFinset.filter ((s.effect plan a).peIndex a.pe a.uid · ≠ none)
        = insert j ((plan.members a.uid).toFinset.filter (s.peIndex a.pe a.uid · ≠ none)) := by
      ext i
      rw [hidx]
      simp only [Finset.mem_filter, List.mem_toFinset, update_apply, Finset.mem_insert]
      grind
    have hj' : j ∉ (plan.members a.uid).toFinset.filter (s.peIndex a.pe a.uid · ≠ none) := by
      intro h
      exact (Finset.mem_filter.mp h).2 hnone
    rw [hins, Finset.card_insert_of_notMem hj']
    rcases hcase with ⟨h0, -, rfl, hnum⟩ | ⟨h2, -, -, hnum⟩
    · rw [hnum, Finset.card_eq_zero.mpr]
      refine Finset.filter_eq_empty_iff.mpr fun i _ hne => ?_
      obtain ⟨k, hk⟩ := Option.ne_none_iff_exists'.mp hne
      have := (hi.peIndex hk).2.1
      omega
    · rw [hnum, hi.found (.inr (hr.trans h2))]

omit he in
theorem Inv.rank_bounds_of_sent (state : PeState) (hp : u ∈ plan.program p)
    (h : s.Sent q u p state.rank) : 2 ≤ (s.stage p u).rank := by
  have := state.rank_bounds
  have hq : 3 ≤ (s.stage q u).rank := by
    rcases h with h | h <;> omega
  exact hi.two_le_rank hq (plan.mem_members p u hp)

theorem Inv.arrived_effect (state : PeState) (h : state.rank < ((s.effect plan a).stage p u).rank) :
    ∀ q ∈ plan.members u, (s.effect plan a).Sent q u p state.rank := by
  intro q hq
  have hr := rank_of_enabled he
  rw [rank_effect he] at h
  refine hi.sent_mono he (.inr state.rank_bounds) ?_
  by_cases h' : state.rank < (s.stage p u).rank
  · exact hi.arrived state h' q hq
  · obtain ⟨h1, h2, h3⟩ : p = a.pe ∧ u = a.uid ∧ state.rank = a.source := by
      have := a.source_le_target
      grind
    have hpu : 3 ≤ (s.stage p u).rank ∧ (s.stage p u).rank ≤ 5 := by
      have := state.rank_bounds
      rw [h1, h2]
      omega
    obtain rfl : a = .pass p u state := by
      have := fun b => @PeState.rank_injective state b
      cases a <;> grind
    have hbit := he.2.2 q (by rwa [hi.team_eq (hi.mapped hpu.1)])
    obtain ⟨v, hv, -, hne, hsent⟩ := (hi.bits state).mp hbit
    have h2 := hi.rank_bounds_of_sent state hv hsent
    obtain rfl := hi.running_unique (p := p) (u := u) (v := v) (by omega) (by omega) (by omega) (by
      unfold Erased at hne
      omega)
    exact hsent

theorem Inv.met_effect {n : ℕ} (hn : n = 6 ∨ n = 8) (h : n < ((s.effect plan a).stage p u).rank) :
    ∀ q ∈ plan.members u, n ≤ ((s.effect plan a).stage q u).rank := by
  intro q hq
  refine le_trans ?_ (rank_le_effect he q u)
  have hr' := rank_effect he p u
  have hs := @hi.met p u n hn
  have hteam := hi.team_of_enter he
  cases a with
  | pass p u state =>
    grind
  | _ =>
    simp only [Enabled] at *
    grind [Stage.rank]

omit he in
theorem Inv.running_of_bits (state : PeState) (hv : v ∈ plan.program p) (hne : ¬ s.Erased p q v)
    (h : s.Sent q v p state.rank) : 0 < (s.stage p v).rank ∧ (s.stage p v).rank < 9 := by
  have := hi.rank_bounds_of_sent state hv h
  unfold Erased at hne
  omega

omit he in
theorem Inv.own_bits (state : PeState) (hu : 0 < (s.stage p u).rank)
    (hu' : (s.stage p u).rank < 7) :
    s.stateIdx p p &&& state.bit ≠ 0 ↔ state.rank ≤ (s.stage p u).rank := by
  rw [hi.bits]
  have hpu := (hi.started hu).1
  constructor
  · rintro ⟨v, hv, -, hne, hsent⟩
    have hrun := hi.running_of_bits state hv hne hsent
    obtain rfl := hi.running_unique hu (by omega) hrun.1 hrun.2
    rcases hsent with h | h <;> omega
  · intro h
    refine ⟨u, hpu, hpu, ?_, ?_⟩
    · rintro (h | h) <;> omega
    · rcases Nat.lt_or_eq_of_le h with h | h
      · exact .inl h
      · exact .inr ⟨h.symm, .inl rfl⟩

theorem Inv.bits_effect (state : PeState) :
    (s.effect plan a).stateIdx p q &&& state.bit ≠ 0 ↔ ∃ u, u ∈ plan.program p ∧
      u ∈ plan.program q ∧ ¬ (s.effect plan a).Erased p q u ∧
        (s.effect plan a).Sent q u p state.rank := by
  have hr := rank_of_enabled he
  have hbounds := state.rank_bounds
  -- a slot that still holds bits after the action belongs to a creation that the owner runs
  have hrun : ∀ v, v ∈ plan.program p → v ∈ plan.program q →
      ¬ (s.effect plan a).Erased p q v → (s.effect plan a).Sent q v p state.rank →
        ¬ s.Erased p q v ∧ (s.Sent q v p state.rank ∨
          (a.pe = p ∧ p = q ∧ a.target = a.source + 1 ∧ a.target = state.rank) ∨
          a = .signal q v state p) := by
    intro v hvp hvq hne hsent
    exact ⟨fun h => hne (hi.erased_mono he h),
      hi.sent_state_effect he state (plan.mem_members p v hvp) hsent⟩
  rcases stateIdx_effect plan s a p q with ⟨h, h1, h2, h3⟩ | ⟨u, rfl, rfl, h⟩ |
    ⟨state', rfl, rfl, h1, h2, h⟩ | ⟨u, state', rfl, h⟩ | ⟨u, rfl, h⟩
  · rw [h, hi.bits]
    constructor
    · rintro ⟨u, hp, hq, hne, hsent⟩
      refine ⟨u, hp, hq, fun h => ?_, hi.sent_mono he (.inr hbounds) hsent⟩
      have hlt := plan.members_lt u q (plan.mem_members q u hq)
      rcases hi.erased_effect he hlt h with h | h
      · exact hne h
      · exact h3 u h
    · rintro ⟨u, hp, hq, hne, hsent⟩
      obtain ⟨hne', hsent | hsent | rfl⟩ := hrun u hp hq hne hsent
      · exact ⟨u, hp, hq, hne', hsent⟩
      · exact absurd hsent (h1 state)
      · exact absurd rfl (h2 u state)
  · rw [h, Nat.zero_and]
    refine iff_of_false (fun h => h rfl) ?_
    rintro ⟨v, hvp, hvq, hne, hsent⟩
    obtain ⟨hne', hsent | hsent | hsent⟩ := hrun v hvp hvq hne hsent
    · obtain ⟨h0, h9⟩ := hi.running_of_bits state hvp hne' hsent
      have := hi.only_running he h0 h9
      grind
    · grind
    · grind
  · -- the PE enters a state barrier and sets its own bit
    have hb := state'.rank_bounds
    have hinj := @PeState.rank_injective state' state
    have hr' := rank_effect he a.pe a.uid
    rw [if_pos ⟨rfl, rfl⟩] at hr'
    rw [h, or_bit_and, hi.own_bits (u := a.uid) state (by omega) (by omega)]
    constructor
    · intro hle
      have hpu := (hi.started (p := a.pe) (u := a.uid) (by omega)).1
      refine ⟨a.uid, hpu, hpu, ?_, ?_⟩
      · rintro (h | h) <;> omega
      · unfold Sent
        grind
    · rintro ⟨v, hvp, hvq, hne, hsent⟩
      obtain ⟨hne', hsent | hsent | hsent⟩ := hrun v hvp hvq hne hsent
      · obtain ⟨h0, h9⟩ := hi.running_of_bits state hvp hne' hsent
        have := hi.only_running he h0 h9
        unfold Sent at hsent
        grind
      · exact .inr (hinj (by omega))
      · rw [hsent] at h1
        simp [target, source] at h1
  · -- the bits of the sender are its own
    obtain ⟨-, hunsent⟩ := he
    have hb := state'.rank_bounds
    simp only [pe, uid, source] at hr
    have hpq := ((hi.unsent q).2 p hunsent).2
    have hp : p ∈ plan.members u := hi.signals (by omega) (by omega) p hunsent
    have hpu := hi.two_le_rank (q := p) (by omega : 3 ≤ (s.stage q u).rank) hp
    rw [h, hi.own_bits (u := u) state (by omega) (by omega)]
    constructor
    · intro hle
      refine ⟨u, (hi.started (by omega)).1, (hi.started (by omega)).1, ?_, ?_⟩
      · have hle' : (s.stage p u).rank ≤ state'.rank := by
          by_contra hlt
          have hq := hi.mem_members (by omega : 0 < (s.stage q u).rank)
          rcases hi.arrived (p := p) state' (by omega) q hq with h | ⟨-, h | h⟩
          · omega
          · exact hpq h
          · exact h hunsent
        rintro (h | h) <;> simp only [effect] at h <;> omega
      · have hnot := (hi.unsent q).1.not_mem_erase (a := p)
        simp only [Sent, effect, update_self]
        grind
    · rintro ⟨v, hvp, hvq, hne, hsent⟩
      obtain ⟨hne', hsent | hsent | hsent⟩ := hrun v hvp hvq hne hsent
      · have h9 : (s.stage q v).rank ≠ 9 :=
          fun h9 => hne' (hi.erased_of_created h9 (plan.mem_members p v hvp) q)
        have := (s.stage q v).rank_le
        have hge : state.rank ≤ (s.stage q v).rank := by
          rcases hsent with h | h <;> omega
        obtain rfl := hi.running_unique (p := q) (u := u) (v := v) (by omega) (by omega) (by omega)
          (by omega)
        exact hge
      · exact absurd hsent.2.1 hpq
      · grind
  · rw [h, Nat.zero_and]
    refine iff_of_false (fun h => h rfl) ?_
    rintro ⟨v, hvp, hvq, hne, hsent⟩
    obtain ⟨hne', hsent | hsent | hsent⟩ := hrun v hvp hvq hne hsent
    · obtain ⟨h0, h9⟩ := hi.running_of_bits state hvp hne' hsent
      have hvu := hi.only_running he h0 h9
      subst hvu
      exact hne (.inr ⟨hr, by simp [effect]⟩)
    · grind
    · grind

theorem Inv.of_effect (ok : s.WritesAfterReset plan a) : (s.effect plan a).Inv plan where
  started := hi.started_effect he
  uniqueid := hi.uniqueid_effect he
  cleared := hi.cleared_effect he
  unsent := hi.unsent_effect he
  signals := hi.signals_effect he
  kept := hi.kept_effect he ok
  seen := hi.seen_effect he
  peIndex := hi.peIndex_effect he
  peMapping := hi.peMapping_effect he
  own := hi.own_effect he
  found := hi.found_effect he
  mapped := hi.mapped_effect he
  arrived := hi.arrived_effect he
  met := hi.met_effect he
  bits := hi.bits_effect he

end Step

end State

end Nvshmem.TeamCreate
