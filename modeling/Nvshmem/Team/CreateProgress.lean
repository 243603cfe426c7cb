import Nvshmem.Team.CreateInvariant
import Nvshmem.Transition.Inevitable

/-! # Team creation completes

Every action of a creation leaves less to do. When all members have started a creation, the
member that is furthest behind can always go on, so all of them finish it, and all with
the same mapping.
-/

namespace Nvshmem.TeamCreate

open Tables List Finset Function TeamCreate.Action PeState Stage

theorem Stage.rank_injective {a b : Stage} (h : a.rank = b.rank) : a = b := by
  rcases a with _ | _ | _ | (_ | _ | _) | _ | _ | _ | _ <;>
    rcases b with _ | _ | _ | (_ | _ | _) | _ | _ | _ | _ <;> first | rfl | simp [rank] at h

namespace State

variable {plan : Plan} {s t : State} {a : Action} {p q u v : ℕ}

def unknown (plan : Plan) (s : State) (p u : ℕ) : ℕ :=
  ∑ q ∈ Finset.range plan.npes, if s.peIndex p u q ≠ none then 0 else if s.seen p q then 1 else 2

def pending (plan : Plan) (s : State) (p u : ℕ) : ℕ :=
  match s.stage p u with
  | .publishing | .stateBarrier _ => (s.unsent p).length
  | .polling => s.unknown plan p u
  | .resetting => plan.npes + 1 - s.cleared p
  | _ => 0

def work (plan : Plan) (s : State) (p u : ℕ) : ℕ :=
  (9 - (s.stage p u).rank) * (2 * plan.npes + 2) + s.pending plan p u

def totalWork (plan : Plan) (s : State) : ℕ :=
  ∑ p ∈ Finset.range plan.npes, ∑ u ∈ (plan.program p).toFinset, s.work plan p u

theorem Inv.length_unsent_le (hi : s.Inv plan) : (s.unsent p).length ≤ plan.npes := by
  obtain ⟨hnodup, hlt⟩ := hi.unsent p
  rw [← toFinset_card_of_nodup hnodup, ← Finset.card_range plan.npes]
  refine Finset.card_le_card fun q hq => ?_
  exact Finset.mem_range.mpr (hlt q (mem_toFinset.mp hq)).1

theorem unknown_le : s.unknown plan p u ≤ 2 * plan.npes := by
  refine (sum_le_card_nsmul _ _ 2 fun q _ => ?_).trans_eq ?_
  · split_ifs <;> omega
  · rw [card_range, smul_eq_mul, mul_comm]

theorem Inv.pending_le (hi : s.Inv plan) : s.pending plan p u ≤ 2 * plan.npes + 1 := by
  have hun := hi.length_unsent_le (p := p)
  have hsum := @unknown_le plan s p u
  unfold pending
  split <;> omega

theorem pending_eq_zero (h : (s.stage p u).rank = 0 ∨ (s.stage p u).rank = 9) :
    s.pending plan p u = 0 := by
  unfold pending
  split
  case h_2 state heq =>
    have := state.rank_bounds
    simp only [heq, PeState.rank] at *
    omega
  all_goals simp_all [Stage.rank]

theorem effect_of_ne (hne : p ≠ a.pe) : (s.effect plan a).stage p = s.stage p ∧
    (s.effect plan a).unsent p = s.unsent p ∧ (s.effect plan a).seen p = s.seen p ∧
    (s.effect plan a).peIndex p = s.peIndex p ∧ (s.effect plan a).cleared p = s.cleared p := by
  have hset : ∀ {δ : Type} (f : ℕ → ℕ → δ) u v, set₂ f a.pe u v p = f p := by
    intro δ f u v
    funext i
    simp [set₂_apply, hne]
  have hset' : ∀ {δ : Type} (f : ℕ → ℕ → ℕ → δ) u i v, set₃ f a.pe u i v p = f p := by
    intro δ f u i v
    funext j k
    simp [set₃_apply, hne]
  cases a with
  | pass _ _ state =>
    cases state <;> simp only [effect, enter, pe] at * <;> simp [hset, hne]
  | read _ _ _ =>
    simp only [effect, pe] at *
    split <;> simp [hset, hset']
  | _ =>
    simp only [effect, enter, pe] at *
    simp [hset, hset', hne]

theorem work_of_ne (hne : p ≠ a.pe) : (s.effect plan a).work plan p u = s.work plan p u := by
  obtain ⟨h1, h2, h3, h4, h5⟩ := @effect_of_ne plan s a p hne
  rw [work, work, pending, pending, unknown, unknown, h1, h2, h3, h4, h5]

section Step

variable (hi : s.Inv plan) (he : s.Enabled plan a)
include hi he

theorem Inv.work_of_uid_ne (hne : u ≠ a.uid) :
    (s.effect plan a).work plan a.pe u = s.work plan a.pe u := by
  have hr : ((s.effect plan a).stage a.pe u).rank = (s.stage a.pe u).rank := by
    rw [rank_effect he, if_neg fun h => hne h.2]
  have hidle : (s.stage a.pe u).rank = 0 ∨ (s.stage a.pe u).rank = 9 := by
    by_contra h
    have := (s.stage a.pe u).rank_le
    exact hne (hi.only_running he (by omega) (by omega))
  rw [work, work, hr, pending_eq_zero hidle, pending_eq_zero (hr.symm ▸ hidle)]

theorem Inv.pending_lt (h : a.target = a.source) :
    (s.effect plan a).pending plan a.pe a.uid < s.pending plan a.pe a.uid := by
  cases a with
  | put p u i | signal p u state i =>
    obtain ⟨hs, hm⟩ := he
    have := length_erase_of_mem hm
    have := length_pos_of_mem hm
    simp only [pending, effect, pe, uid, hs, update_self]
    omega
  | resetUniqueid p u =>
    obtain ⟨hs, hc⟩ := he
    simp only [pending, effect, pe, uid, hs, update_self]
    omega
  | resetSlot p u i =>
    obtain ⟨hs, hc, hi⟩ := he
    simp only [pending, effect, pe, uid, hs, update_self]
    omega
  | poll p u q =>
    obtain ⟨-, hnone⟩ := hi.peIndex_of_poll he
    obtain ⟨hs, hq, -, -, hlane⟩ := he
    simp only [pending, effect, pe, uid, hs, unknown]
    refine Finset.sum_lt_sum (fun i _ => ?_) ⟨q, Finset.mem_range.mpr (mem_peers.mp hq).1, ?_⟩
    · grind
    · simp [hnone, hlane q hq rfl]
  | read p u q =>
    have hr : (s.stage p u).rank = 2 := rank_of_enabled he
    obtain ⟨hidx, hnone, hrank⟩ := hi.peInTeam_of_seen hr he.2.1
    obtain ⟨hs, hseen, -⟩ := he
    simp only [pending, effect, pe, uid, hnone, if_true, hs, unknown]
    refine Finset.sum_lt_sum (fun i _ => ?_) ⟨q, ?_, ?_⟩
    · grind
    · exact Finset.mem_range.mpr (hi.lt_npes (by omega : 0 < (s.stage q u).rank))
    · simp [hnone, hidx, hseen, set₃_apply]
  | pass p u state => simp [target, source] at h
  | _ => simp [target, source] at h

theorem Inv.work_lt (ok : s.WritesAfterReset plan a) :
    (s.effect plan a).work plan a.pe a.uid < s.work plan a.pe a.uid := by
  have hr := rank_of_enabled he
  have hr' := rank_effect he a.pe a.uid
  rw [if_pos ⟨rfl, rfl⟩] at hr'
  have hst := a.source_le_target
  have hlt := a.source_lt
  unfold work
  rcases Nat.lt_or_eq_of_le hst.1 with h | h
  · have hle := (hi.of_effect he ok).pending_le (p := a.pe) (u := a.uid)
    have hn : 9 - (s.stage a.pe a.uid).rank =
        9 - ((s.effect plan a).stage a.pe a.uid).rank + 1 := by
      omega
    rw [hn, Nat.add_one_mul (9 - _)]
    omega
  · have := hi.pending_lt he h.symm
    rw [hr', hr, ← h]
    omega

theorem Inv.totalWork_lt (ok : s.WritesAfterReset plan a) :
    (s.effect plan a).totalWork plan < s.totalWork plan := by
  have hle : ∀ p u, (s.effect plan a).work plan p u ≤ s.work plan p u := by
    intro p u
    by_cases hp : p = a.pe
    · subst hp
      by_cases hu : u = a.uid
      · subst hu
        exact (hi.work_lt he ok).le
      · exact (hi.work_of_uid_ne he hu).le
    · exact (work_of_ne hp).le
  have hu : a.uid ∈ plan.program a.pe := by
    have hr := rank_of_enabled he
    by_cases h0 : a.source = 0
    · cases a <;> grind [Enabled]
    · exact (hi.started (by omega)).1
  have hp := plan.members_lt _ _ (plan.mem_members _ _ hu)
  refine Finset.sum_lt_sum (fun p _ => Finset.sum_le_sum fun u _ => hle p u)
    ⟨a.pe, Finset.mem_range.mpr hp, ?_⟩
  exact Finset.sum_lt_sum (fun u _ => hle _ u) ⟨a.uid, mem_toFinset.mpr hu, hi.work_lt he ok⟩

end Step

def Joined (plan : Plan) (u : ℕ) (s : State) : Prop := ∀ p ∈ plan.members u, s.stage p u ≠ .waiting

def Complete (plan : Plan) (u : ℕ) (s : State) : Prop :=
  ∀ p ∈ plan.members u, s.stage p u = .created ∧ ∀ k, s.peMapping p u k = (plan.members u)[k]?

def guardedStep (plan : Plan) : State → Action → Option State :=
  Transition.restrict (WritesAfterReset plan) (fun s a => s.step plan a)

theorem guardedStep_eq_some : guardedStep plan s a = some t ↔
    s.WritesAfterReset plan a ∧ s.Enabled plan a ∧ s.effect plan a = t := by
  rw [guardedStep, Transition.restrict_eq_some, step_eq_some]

section Progress

variable (hi : s.Inv plan) 
include hi

theorem Inv.exists_enabled_polling (hp : p ∈ plan.members u) (hs : s.stage p u = .polling)
    (hmin : ∀ q ∈ plan.members u, (s.stage p u).rank ≤ (s.stage q u).rank) :
    ∃ a, a.Due ∧ s.Enabled plan a ∧ s.WritesAfterReset plan a := by
  have hr : (s.stage p u).rank = 2 := by
    rw [hs]
    rfl
  by_cases hseen : ∃ q, s.seen p q = true
  · obtain ⟨q, hq⟩ := hseen
    refine ⟨.read p u q, trivial, ⟨hs, hq, ?_⟩, trivial⟩
    rw [(hi.peInTeam_of_seen hr hq).1]
    exact Option.some_ne_none _
  · have hfree : ∀ q, s.seen p q = false := fun q => Bool.eq_false_iff.mpr fun h => hseen ⟨q, h⟩
    by_cases hall : ∃ q ∈ plan.members u, s.peIndex p u q = none
    · obtain ⟨q, hq, hnone⟩ := hall
      have hqp : q ≠ p := by
        rintro rfl
        rw [hi.own (by omega)] at hnone
        exact Option.some_ne_none _ hnone
      have h2 := hmin q hq
      have h3 : (s.stage q u).rank ≤ 3 := by
        by_contra hlt
        rcases hi.arrived (p := q) (u := u) .readPeInTeam (by
          rw [rank_readPeInTeam]
          omega) p hp with h | h <;> rw [rank_readPeInTeam] at h <;> omega
      refine ⟨.poll p u q, trivial, ⟨hs, ?_, ?_, .inl hnone, fun i _ _ => hfree i⟩, trivial⟩
      · exact mem_peers.mpr ⟨plan.members_lt u q hq, hqp⟩
      · exact hi.uniqueid.mpr (.inl (by omega))
    · push Not at hall
      refine ⟨.finishPolling p u, trivial, ⟨hs, ?_, fun i _ => hfree i⟩, trivial⟩
      rw [hi.found (.inr hr), filter_true_of_mem, toFinset_card_of_nodup]
      · exact plan.members_nodup u
      · exact fun q hq => hall q (mem_toFinset.mp hq)

theorem Inv.exists_enabled (hp : p ∈ plan.members u) (h0 : 0 < (s.stage p u).rank)
    (h9 : (s.stage p u).rank < 9)
    (hmin : ∀ q ∈ plan.members u, (s.stage p u).rank ≤ (s.stage q u).rank) :
    ∃ a, a.Due ∧ s.Enabled plan a ∧ s.WritesAfterReset plan a := by
  have hall : ∀ q ∈ plan.members u, u ∈ plan.program q := fun q hq =>
    (hi.started (h0.trans_le (hmin q hq))).1
  cases hs : s.stage p u with
  | waiting => simp [hs, Stage.rank] at h0
  | created => simp [hs, Stage.rank] at h9
  | publishing =>
    by_cases h : s.unsent p = []
    · exact ⟨.announce p u, trivial, ⟨hs, h⟩, trivial⟩
    · obtain ⟨i, hi'⟩ := exists_mem_of_ne_nil _ h
      refine ⟨.put p u i, trivial, ⟨hs, hi'⟩, ?_⟩
      intro hu v hv hb
      have := hmin i (plan.mem_members i u hu)
      left
      rw [(hi.started (by omega)).2 v hv hb]
      decide
  | polling => exact hi.exists_enabled_polling hp hs hmin
  | stateBarrier state =>
    by_cases h : ∃ q ∈ plan.members u, s.stage q u = .stateBarrier state ∧ s.unsent q ≠ []
    · obtain ⟨q, hq, hst, hne⟩ := h
      obtain ⟨i, hi'⟩ := exists_mem_of_ne_nil _ hne
      exact ⟨.signal q u state i, trivial, ⟨hst, hi'⟩, trivial⟩
    · -- everybody who is still here has signalled
      push Not at h
      have hr : (s.stage p u).rank = state.rank := by
        rw [hs, PeState.rank]
      have hb := state.rank_bounds
      refine ⟨.pass p u state, trivial, ⟨hs, h p hp hs, ?_⟩, trivial⟩
      rw [hi.team_eq (hi.mapped (by omega))]
      intro q hq
      have hle := hmin q hq
      have hne : ¬ s.Erased p q u := by
        rintro (h | h) <;> omega
      refine (hi.bits state).mpr ⟨u, hall p hp, hall q hq, hne, ?_⟩
      rcases Nat.lt_or_eq_of_le hle with hlt | heq
      · exact .inl (by omega)
      · have hsq : s.stage q u = .stateBarrier state := Stage.rank_injective (by rw [← heq, hs])
        exact .inr ⟨by omega, .inr (by simp [h q hq hsq])⟩
  | teamBarrier =>
    refine ⟨.leaveBarrier p u, trivial, ⟨hs, ?_⟩, trivial⟩
    rw [hi.team_eq (hi.mapped (by rw [hs]; decide))]
    rwa [hs] at hmin
  | resetting =>
    have hc := hi.cleared (p := p) (u := u) (by rw [hs]; rfl)
    rcases Nat.lt_or_eq_of_le hc with hlt | heq
    · cases hcl : s.cleared p with
      | zero => exact ⟨.resetUniqueid p u, trivial, ⟨hs, hcl⟩, trivial⟩
      | succ i => exact ⟨.resetSlot p u i, trivial, ⟨hs, hcl, by omega⟩, trivial⟩
    · exact ⟨.finishReset p u, trivial, ⟨hs, heq⟩, trivial⟩
  | teamSync =>
    refine ⟨.leaveSync p u, trivial, ⟨hs, ?_⟩, trivial⟩
    rw [hi.team_eq (hi.mapped (by rw [hs]; decide))]
    rwa [hs] at hmin

theorem Inv.peMapping_eq (h : 3 ≤ (s.stage p u).rank) (k : ℕ) :
    s.peMapping p u k = (plan.members u)[k]? := by
  refine Option.ext fun q => ?_
  rw [hi.peMapping, List.getElem?_eq_some_iff]
  constructor
  · intro hk
    obtain ⟨rfl, hp, hq⟩ := hi.peIndex hk
    have hmem : q ∈ plan.members u := by
      rcases hq with rfl | hq
      · exact hi.mem_members hp
      · exact hi.mem_members (by omega)
    exact ⟨idxOf_lt_length_of_mem hmem, getElem_idxOf _⟩
  · rintro ⟨hk, rfl⟩
    rw [hi.mapped h _ (getElem_mem hk), Plan.index,
      (plan.members_nodup u).idxOf_getElem k hk]

theorem Inv.exists_enabled_of_joined (hj : s.Joined plan u) (hc : ¬ s.Complete plan u) :
    ∃ a t, a.Due ∧ guardedStep plan s a = some t := by
  have hne : (plan.members u).toFinset.Nonempty := by
    by_contra h
    refine hc fun p hp => absurd ⟨p, mem_toFinset.mpr hp⟩ h
  obtain ⟨p, hp, hmin⟩ := exists_min_image _ (fun p => (s.stage p u).rank) hne
  simp only [mem_toFinset] at hp hmin
  have h0 : 0 < (s.stage p u).rank := by
    by_contra h
    exact hj p hp (rank_injective (by rw [Nat.eq_zero_of_not_pos h]; rfl))
  have h9 : (s.stage p u).rank < 9 := by
    by_contra h
    refine hc fun q hq => ?_
    have hle := hmin q hq
    have hle' := (s.stage q u).rank_le
    exact ⟨rank_injective (by rw [show (s.stage q u).rank = 9 by omega]; rfl),
      hi.peMapping_eq (by omega)⟩
  obtain ⟨a, hdue, he, ok⟩ := hi.exists_enabled hp h0 h9 hmin
  exact ⟨a, _, hdue, guardedStep_eq_some.mpr ⟨ok, he, rfl⟩⟩

end Progress

theorem Joined.effect (hj : s.Joined plan u) (he : s.Enabled plan a) :
    (s.effect plan a).Joined plan u := by
  intro p hp hw
  have hle := rank_le_effect he p u
  rw [hw] at hle
  exact hj p hp (rank_injective (Nat.le_zero.mp hle))

theorem Inv.inevitable (hi : s.Inv plan) (hj : s.Joined plan u) :
    Transition.Inevitable Due (guardedStep plan) (Complete plan u) s := by
  refine Transition.Inevitable.of_measure (I := fun s => s.Inv plan ∧ s.Joined plan u)
    (totalWork plan) ?_ ?_ ?_ ⟨hi, hj⟩
  · rintro s a t ⟨hi, hj⟩ h
    obtain ⟨ok, he, rfl⟩ := guardedStep_eq_some.mp h
    exact ⟨hi.of_effect he ok, hj.effect he⟩
  · rintro s a t ⟨hi, hj⟩ - h
    obtain ⟨ok, he, rfl⟩ := guardedStep_eq_some.mp h
    exact hi.totalWork_lt he ok
  · rintro s ⟨hi, hj⟩ hc
    exact hi.exists_enabled_of_joined hj hc

/-- A PE that sees a peer with its own unique id reads the index of the peer for that id, and an
index stays where it was written until its reader resets the slot for the same creation. -/
structure Sound (plan : Plan) (s : State) : Prop where
  read : ∀ {p u q k}, s.stage p u = .polling → s.seen p q = true → s.peInTeam p q = some k →
    k = plan.index u q
  kept : ∀ {p u q}, u ∈ plan.program p → s.Sent q u p Stage.publishing.rank →
    (s.stage p u).rank < Stage.resetting.rank → s.peInTeam p q = some (plan.index u q)

theorem Inv.sound (hi : s.Inv plan) : s.Sound plan where
  read hs hseen hk := by
    have hr := (hi.peInTeam_of_seen (by rw [hs]; rfl) hseen).1
    exact Option.some.inj (hk.symm.trans hr)
  kept hu hsent hr := by
    refine (hi.kept hsent hu ?_).1
    change _ < 7 at hr
    rintro (h | h) <;> omega

/-- If every PE writes its index to a member after the member has reset its slot in all earlier
creations, indices are read as they were published and are not erased, and a creation that all
members have started completes on all of them with the listed mapping. -/
theorem creations_complete (plan : Plan) (s : State)
    (h : Transition.Reachable (guardedStep plan) init s) :
    s.Sound plan ∧ ∀ u, s.Joined plan u →
      Transition.Inevitable Action.Due (guardedStep plan) (Complete plan u) s := by
  have hi : s.Inv plan := by
    refine h.invariant Inv.init fun {s a t} hi h => ?_
    obtain ⟨ok, he, rfl⟩ := guardedStep_eq_some.mp h
    exact hi.of_effect he ok
  exact ⟨hi.sound, fun u hj => hi.inevitable hj⟩

def twoTeams : Plan where
  npes := 3
  members
    | 0 => [0, 2]
    | 1 => [0, 1]
    | _ => []
  program
    | 0 => [0, 1]
    | 1 => [1]
    | 2 => [0]
    | _ => []
  members_nodup u := by
    rcases u with _ | _ | u <;> simp
  members_lt u := by
    rcases u with _ | _ | u <;> simp
  mem_members p := by
    rcases p with _ | _ | _ | p <;> simp

def firstTeam : List Action :=
  [.start 0 0, .put 0 0 1, .put 0 0 2, .announce 0 0, .start 2 0, .put 2 0 0, .put 2 0 1,
    .announce 2 0, .poll 0 0 2, .read 0 0 2, .finishPolling 0 0, .poll 2 0 0, .read 2 0 0,
    .finishPolling 2 0, .signal 0 0 .readPeInTeam 2, .signal 2 0 .readPeInTeam 0,
    .pass 0 0 .readPeInTeam, .pass 2 0 .readPeInTeam, .signal 0 0 .wroteIndex 2,
    .signal 2 0 .wroteIndex 0, .pass 0 0 .wroteIndex, .pass 2 0 .wroteIndex, .signal 0 0 .done 2,
    .signal 2 0 .done 0, .pass 0 0 .done, .pass 2 0 .done]

def firstResets : List Action :=
  [.leaveBarrier 0 0, .leaveBarrier 2 0, .resetUniqueid 0 0, .resetSlot 0 0 0, .resetSlot 0 0 1,
    .resetSlot 0 0 2, .finishReset 0 0, .resetUniqueid 2 0, .resetSlot 2 0 0, .resetSlot 2 0 1,
    .resetSlot 2 0 2, .finishReset 2 0, .leaveSync 0 0, .leaveSync 2 0]

def secondTeam : List Action := [.start 1 1, .put 1 1 0, .put 1 1 2, .announce 1 1]

theorem creations_complete_twoTeams : ∃ s, Transition.Reachable (guardedStep twoTeams) init s ∧
    s.Joined twoTeams 1 ∧ s.Sound twoTeams ∧
      Transition.Inevitable Action.Due (guardedStep twoTeams) (Complete twoTeams 1) s := by
  refine Transition.Reachable.exists_of_exec
    (firstTeam ++ firstResets ++ secondTeam ++ [.start 0 1])
    (fun s => s.stage 0 1 ≠ .waiting ∧ s.stage 1 1 ≠ .waiting) (by decide +kernel) ?_
  intro s h hstages
  have hj : s.Joined twoTeams 1 := by
    intro p hp
    obtain rfl | rfl : p = 0 ∨ p = 1 := by simpa [twoTeams] using hp
    · exact hstages.1
    · exact hstages.2
  exact ⟨hj, (creations_complete twoTeams s h).1, (creations_complete twoTeams s h).2 1 hj⟩

structure Bounded (plan : Plan) (s : State) : Prop where
  stage : ∀ {p u}, s.stage p u ≠ .waiting → u ∈ plan.program p
  seen : ∀ {p q}, s.seen p q = true → q < plan.npes
  peMapping : ∀ {p u k q}, s.peMapping p u k = some q → q < plan.npes
  unsent : ∀ {p q}, q ∈ s.unsent p → q < plan.npes

theorem Bounded.init : Bounded plan init where
  stage h := absurd rfl h
  seen h := absurd h Bool.false_ne_true
  peMapping h := absurd h.symm (Option.some_ne_none _)
  unsent h := absurd h not_mem_nil

theorem Bounded.team (hb : s.Bounded plan) (h : q ∈ s.team plan p u) : q < plan.npes := by
  obtain ⟨k, -, hk⟩ := mem_filterMap.mp h
  exact hb.peMapping hk

theorem Bounded.of_effect (hb : s.Bounded plan) (he : s.Enabled plan a) :
    (s.effect plan a).Bounded plan := by
  have hteam := @Bounded.team plan s
  have hpeers := @mem_peers plan
  have hlt : ∀ p u, u ∈ plan.program p → p < plan.npes :=
    fun p u hu => plan.members_lt u p (plan.mem_members p u hu)
  have ⟨h1, h2, h3, h4⟩ := hb
  cases a with
  | pass p u state =>
    cases state <;> simp only [effect, enter, Enabled] at * <;> constructor <;>
      simp only [set₂_apply, update_apply] <;> grind
  | read p u q =>
    simp only [effect, Enabled] at *
    split <;> constructor <;> simp only [set₂_apply, set₃_apply] <;> grind
  | _ =>
    simp only [effect, enter, Enabled] at *
    constructor <;> simp only [set₂_apply, set₃_apply, update_apply] <;> grind

theorem Bounded.of_enabled (hb : s.Bounded plan) (he : s.Enabled plan a) :
    a.uid ∈ plan.program a.pe := by
  cases a with
  | start p u => exact he.2.1
  | _ =>
    refine hb.stage ?_
    rw [pe, uid, he.1]
    simp

def earlyIndex : List Action :=
  firstTeam ++ secondTeam ++ firstResets ++ [.start 0 1, .put 0 1 1, .put 0 1 2, .announce 0 1,
    .poll 0 1 1, .poll 1 1 0, .read 1 1 0, .finishPolling 1 1, .signal 1 1 .readPeInTeam 0]

theorem not_inevitable_earlyIndex : ∃ s,
    Transition.exec (fun s a => s.step twoTeams a) init earlyIndex = some s ∧
      s.Joined twoTeams 1 ∧ ¬ s.Sound twoTeams ∧
      ¬ Transition.Inevitable Action.Due (fun s a => s.step twoTeams a)
        (Complete twoTeams 1) s := by
  refine Transition.exists_of_exec
    (fun s => s.stage 0 0 = .created ∧ s.stage 2 0 = .created ∧ s.stage 0 1 = .polling ∧
      s.stage 1 1 = .stateBarrier .readPeInTeam ∧ s.unsent 1 = [] ∧ s.peInTeam 0 1 = none ∧
      (∀ q < 3, ¬ s.Enabled twoTeams (.poll 0 1 q) ∧ ¬ s.Enabled twoTeams (.read 0 1 q)) ∧
      ¬ s.Enabled twoTeams (.finishPolling 0 1) ∧
      ¬ s.Enabled twoTeams (.pass 1 1 .readPeInTeam)) (by decide +kernel) ?_
  rintro s hs ⟨h00, h20, h01, h11, hunsent, hnone, hpoll, hfinish, hpass⟩
  have hb : s.Bounded twoTeams := by
    refine (Transition.Reachable.of_exec hs).invariant Bounded.init fun {s a t} hb h => ?_
    obtain ⟨he, rfl⟩ := step_eq_some.mp h
    exact hb.of_effect he
  have hstuck : ∀ a, ¬ s.Enabled twoTeams a := by
    intro a he
    have hu := hb.of_enabled he
    have hpu : (a.pe = 0 ∧ a.uid = 0) ∨ (a.pe = 2 ∧ a.uid = 0) ∨ (a.pe = 0 ∧ a.uid = 1) ∨
        (a.pe = 1 ∧ a.uid = 1) := by
      revert hu
      generalize a.pe = p
      rcases p with _ | _ | _ | p <;> simp [twoTeams]
    have hr := rank_of_enabled he
    have hlt := a.source_lt
    rcases hpu with ⟨hp, hu⟩ | ⟨hp, hu⟩ | ⟨hp, hu⟩ | ⟨hp, hu⟩ <;> rw [hp, hu] at hr
    · rw [h00] at hr
      exact hlt.ne hr.symm
    · rw [h20] at hr
      exact hlt.ne hr.symm
    · cases a with
      | poll p u q =>
        obtain ⟨rfl, rfl⟩ : p = 0 ∧ u = 1 := ⟨hp, hu⟩
        exact (hpoll q (mem_peers.mp he.2.1).1).1 he
      | read p u q =>
        obtain ⟨rfl, rfl⟩ : p = 0 ∧ u = 1 := ⟨hp, hu⟩
        exact (hpoll q (hb.seen he.2.1)).2 he
      | finishPolling p u =>
        obtain ⟨rfl, rfl⟩ : p = 0 ∧ u = 1 := ⟨hp, hu⟩
        exact hfinish he
      | _ => grind [Stage.rank]
    · rw [h11] at hr
      cases a with
      | signal p u state q =>
        obtain rfl : p = 1 := hp
        have hq := he.2
        rw [hunsent] at hq
        exact not_mem_nil hq
      | pass p u state =>
        obtain ⟨rfl, rfl⟩ : p = 1 ∧ u = 1 := ⟨hp, hu⟩
        obtain rfl : state = .readPeInTeam := PeState.rank_injective hr.symm
        exact hpass he
      | _ => grind [Stage.rank]
  refine ⟨?_, ?_, ?_⟩
  · intro p hp
    obtain rfl | rfl : p = 0 ∨ p = 1 := by simpa [twoTeams] using hp
    · rw [h01]
      decide
    · rw [h11]
      decide
  · intro hsound
    have := hsound.kept (p := 0) (u := 1) (q := 1) (by decide) (.inl (by rw [h11]; decide))
      (by rw [h01]; decide)
    rw [hnone] at this
    exact Option.some_ne_none _ this.symm
  · rintro (hc | ⟨⟨a, t, -, h⟩, -⟩)
    · have := (hc 0 (by decide)).1
      rw [h01] at this
      exact absurd this (by decide)
    · exact hstuck a (step_eq_some.mp h).1

end State

end Nvshmem.TeamCreate
