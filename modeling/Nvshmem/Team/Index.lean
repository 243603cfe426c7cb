import Nvshmem.Team.PoolInvariant
import Nvshmem.Transition.Exec

/-! # Agreement on team indices

The bitmaps of different PEs diverge, but the index of a new team is a function of
the bitmaps its members sent, and a member's own bitmap does not change while it
waits in the reduction. Hence members agree on the index, and a PE never enters a
team at an index that it already uses.
-/

namespace Nvshmem

open PeTeams Transition Option Function Option List TeamConfig

variable {cfg : TeamConfig} {s s' : TeamLayer} {pe idx : ℕ} {c : Creation} {origin : Origin}

/-- The index of the team of GPU leaders stays reserved on the PEs that are not leaders. -/
def TeamConfig.Reserved (cfg : TeamConfig) (pe idx : ℕ) : Prop :=
  idx = gpuLeadersIndex ∧ cfg.gpuLeader pe = false

theorem bitFetch_foldl_bitSet (l : List ℕ) (ptr : Bytes) (i : ℕ) :
    bitFetch (l.foldl bitSet ptr) i = true ↔ i ∈ l ∨ bitFetch ptr i = true := by
  induction l generalizing ptr with
  | nil => simp
  | cons j l ih =>
    rw [foldl_cons, ih, bitFetch_bitSet, Bool.or_eq_true, decide_eq_true_iff, mem_cons]
    tauto

theorem bitFetch_foldl_bitClear (l : List ℕ) (ptr : Bytes) (i : ℕ) :
    bitFetch (l.foldl bitClear ptr) i = true ↔ i ∉ l ∧ bitFetch ptr i = true := by
  induction l generalizing ptr with
  | nil => simp
  | cons j l ih =>
    rw [foldl_cons, ih, bitFetch_bitClear, Bool.and_eq_true, decide_eq_true_iff,
      mem_cons]
    tauto

theorem TeamConfig.bitFetch_initAvail (i : ℕ) :
    bitFetch cfg.initAvail i = true ↔ teamsMin ≤ i ∧ i < cfg.maxTeams := by
  rw [initAvail, bitFetch_foldl_bitClear, bitFetch_foldl_bitSet, mem_range,
    mem_range, not_lt, bitFetch_eq, BitVec.getLsbD_zero]
  simp

theorem TeamConfig.hasPredefined_iff {i : ℕ} :
    cfg.hasPredefined pe i = true ↔ i < teamsMin ∧ ¬ cfg.Reserved pe i := by
  rw [hasPredefined, Reserved, Bool.or_eq_true, decide_eq_true_iff,
    Bool.and_eq_true, beq_iff_eq, not_and, Bool.not_eq_false]
  have h5 : gpuLeadersIndex = 5 := rfl
  have h6 : teamsMin = 6 := rfl
  constructor
  · rintro (h | ⟨h, hl⟩)
    · exact ⟨by omega, fun _ => by omega⟩
    · exact ⟨by omega, fun _ => hl⟩
  · rintro ⟨h, hl⟩
    by_cases hi : i = gpuLeadersIndex
    · exact .inr ⟨hi, hl hi⟩
    · exact .inl (by omega)

theorem TeamConfig.initPe_teamPool_ne_none {i : ℕ} :
    (cfg.initPe pe).teamPool i ≠ none ↔ cfg.hasPredefined pe i = true := by
  rw [initPe]
  by_cases h : cfg.hasPredefined pe i <;> simp [h]

theorem TeamConfig.initPe_team {ref : TeamRef} {team : Team}
    (h : (cfg.initPe pe).team ref = some team) :
    ∃ i, ref = .predefined i ∧ cfg.hasPredefined pe i = true ∧ team = cfg.predefinedTeam pe i := by
  cases ref with
  | predefined i =>
    rw [initPe] at h
    by_cases hi : cfg.hasPredefined pe i = true
    · simp only [hi, if_true, some_inj] at h
      exact ⟨i, rfl, hi, h.symm⟩
    · simp [hi] at h
  | created c => cases h

theorem TeamConfig.initPe_consistent :
    (cfg.initPe pe).Consistent cfg.maxTeams (cfg.Reserved pe) where
  pooled i ref := by
    constructor
    · intro hp
      have hi := initPe_teamPool_ne_none.mp (hp ▸ some_ne_none ref)
      have heq : (cfg.initPe pe).teamPool i = some (.predefined i) := if_pos hi
      cases heq.symm.trans hp
      exact ⟨cfg.predefinedTeam pe i, if_pos hi, rfl⟩
    · rintro ⟨team, ht, rfl⟩
      obtain ⟨i, rfl, hi, rfl⟩ := initPe_team ht
      exact if_pos hi
  idx_lt ref team ht := by
    obtain ⟨i, rfl, hi, rfl⟩ := initPe_team ht
    exact (hasPredefined_iff.mp hi).1.trans_le cfg.teamsMin_le
  unused i hi := by
    by_contra hne
    exact (hasPredefined_iff.mp (initPe_teamPool_ne_none.mp hne)).2 hi
  bit_iff i hi := by
    have hres : cfg.Reserved pe i → i < teamsMin := by
      rintro ⟨rfl, -⟩
      decide
    rw [initPe_teamPool_ne_none, hasPredefined_iff, ← Bool.not_eq_true]
    show ¬ bitFetch cfg.initAvail i = true ↔ _
    rw [bitFetch_initAvail, not_and_or, not_le]
    constructor
    · rintro (hlt | hge)
      · by_cases hr : cfg.Reserved pe i
        · exact .inr hr
        · exact .inl ⟨hlt, hr⟩
      · omega
    · rintro (⟨hlt, -⟩ | hr)
      · exact .inl hlt
      · exact .inl (hres hr)

theorem TeamConfig.initPe_ordered : (cfg.initPe pe).Ordered where
  serial_lt ref team ht := by
    obtain ⟨i, rfl, hi, rfl⟩ := initPe_team ht
    exact (hasPredefined_iff.mp hi).1
  older ref team ht j hj hrec := by
    obtain ⟨i, rfl, hi, rfl⟩ := initPe_team ht
    have h6 : teamsMin = 6 := rfl
    simp only [predefinedTeam, ite_eq_iff, some_inj, reduceCtorEq, and_false,
      or_false] at hrec
    omega

namespace TeamLayer

structure Inv (cfg : TeamConfig) (s : TeamLayer) : Prop where
  consistent : ∀ pe, (s.pe pe).Consistent cfg.maxTeams (cfg.Reserved pe)
  ordered : ∀ pe, (s.pe pe).Ordered
  waiting : ∀ pe c, s.splitting pe = some c → pe ∈ c.members ∧
    s.sent c pe = some (s.pe pe).psyncPoolAvail ∧ (s.pe pe).team (.created c) = none
  chosen : ∀ pe c team, (s.pe pe).team (.created c) = some team →
    (∀ q ∈ c.members, (s.sent c q).isSome) ∧
      bit1stNonzero (s.psyncPoolAvailReduced c) nPsyncBytes = some team.teamIdx ∧ pe ∈ c.members
  predefined : ∀ pe idx team, (s.pe pe).team (.predefined idx) = some team → team.teamIdx = idx

theorem Inv.init : Inv cfg (init cfg) where
  consistent _ := initPe_consistent
  ordered _ := initPe_ordered
  waiting _ _ h := by cases h
  chosen _ _ _ h := by cases h
  predefined pe idx team h := by
    obtain ⟨i, heq, -, rfl⟩ := initPe_team h
    obtain rfl := TeamRef.predefined.inj heq
    rfl

theorem send_eq_some (h : s.send pe c = some s') :
    (s.splitting pe = none ∧ pe ∈ c.members ∧ s.sent c pe = none) ∧
      s' = { s with
        splitting := update s.splitting pe (some c)
        sent := update s.sent c
          (update (s.sent c) pe (some (s.pe pe).psyncPoolAvail)) } := by
  rw [send] at h
  split_ifs at h with hguard
  exact ⟨⟨hguard.1, hguard.2.1, isNone_iff_eq_none.mp hguard.2.2⟩, (some.inj h).symm⟩

theorem choose_eq_some (h : s.choose cfg pe c origin = some s') :
    (s.splitting pe = some c ∧ ∀ q ∈ c.members, (s.sent c q).isSome) ∧
      (s' = { s with splitting := update s.splitting pe none } ∨
        ∃ idx t, bit1stNonzero (s.psyncPoolAvailReduced c) nPsyncBytes = some idx ∧
          idx < cfg.maxTeams ∧ (s.pe pe).adopt origin idx = some t ∧
          s' = { s with
            pe := update s.pe pe (t.enter (.created c) origin idx)
            splitting := update s.splitting pe none }) := by
  rw [choose] at h
  split_ifs at h with hguard
  refine ⟨hguard, ?_⟩
  cases hidx : bit1stNonzero (s.psyncPoolAvailReduced c) nPsyncBytes with
  | none =>
    rw [hidx] at h
    exact .inl (some.inj h).symm
  | some idx =>
    rw [hidx] at h
    by_cases hmax : idx ≥ cfg.maxTeams
    · simp only [if_pos hmax, some_inj] at h
      exact .inl h.symm
    · simp only [if_neg hmax] at h
      obtain ⟨t, ht, rfl⟩ := map_eq_some_iff.mp h
      exact .inr ⟨idx, t, rfl, by omega, ht, rfl⟩

theorem destroy_eq_some (h : s.destroy cfg pe idx = some s') :
    s.splitting pe = none ∧ ∃ t, (s.pe pe).teamDestroy cfg.maxTeams idx = some t ∧
      s' = { s with pe := update s.pe pe t } := by
  rw [destroy] at h
  split_ifs at h with hguard
  obtain ⟨t, ht, rfl⟩ := map_eq_some_iff.mp h
  exact ⟨hguard, t, ht, rfl⟩

theorem Inv.send (hi : Inv cfg s) (h : s.send pe c = some s') : Inv cfg s' := by
  obtain ⟨⟨hfree, hmem, hnone⟩, rfl⟩ := send_eq_some h
  refine ⟨hi.consistent, hi.ordered, ?_, ?_, hi.predefined⟩
  · intro q d hq
    dsimp only at hq ⊢
    by_cases hqp : q = pe
    · subst hqp
      rw [update_self, some_inj] at hq
      subst hq
      refine ⟨hmem, by rw [update_self, update_self], ?_⟩
      cases hteam : (s.pe q).team (.created c) with
      | none => rfl
      | some team =>
        have hall := (hi.chosen q c team hteam).1 q hmem
        rw [hnone] at hall
        cases hall
    · rw [update_of_ne hqp] at hq
      obtain ⟨hqm, hsent, hteam⟩ := hi.waiting q d hq
      refine ⟨hqm, ?_, hteam⟩
      by_cases hdc : d = c
      · subst hdc
        rw [update_self, update_of_ne hqp, hsent]
      · rw [update_of_ne hdc, hsent]
  · intro q d team hteam
    have hold := hi.chosen q d team hteam
    have hdc : d ≠ c := by
      rintro rfl
      have hall := hold.1 pe hmem
      rw [hnone] at hall
      cases hall
    simp only [psyncPoolAvailReduced, update_of_ne hdc]
    exact hold

theorem Inv.bitFetch_of_waiting (hi : Inv cfg s) (hwait : s.splitting pe = some c)
    (hidx : bit1stNonzero (s.psyncPoolAvailReduced c) nPsyncBytes = some idx) :
    bitFetch (s.pe pe).psyncPoolAvail idx = true := by
  obtain ⟨hmem, hsent, -⟩ := hi.waiting pe c hwait
  have hbit := bitFetch_of_bit1stNonzero hidx
  rw [psyncPoolAvailReduced, bitFetch_reduceAnd, List.all_eq_true] at hbit
  exact hbit _ (List.mem_filterMap.mpr ⟨pe, hmem, hsent⟩)

theorem Inv.choose (hi : Inv cfg s) (h : s.choose cfg pe c origin = some s') : Inv cfg s' := by
  obtain ⟨⟨hwait, hall⟩, rfl | ⟨idx, t, hidx, hlt, hadopt, rfl⟩⟩ := choose_eq_some h
  · refine ⟨hi.consistent, hi.ordered, ?_, hi.chosen, hi.predefined⟩
    intro q d hq
    dsimp only at hq
    by_cases hqp : q = pe
    · subst hqp
      rw [update_self] at hq
      cases hq
    · rw [update_of_ne hqp] at hq
      exact hi.waiting q d hq
  obtain ⟨hmem, hsent, hnew⟩ := hi.waiting pe c hwait
  obtain ⟨hcons, hback⟩ := (hi.consistent pe).adopt hadopt
  have hbit : bitFetch t.psyncPoolAvail idx = true := by
    rw [(adopt_eq_some hadopt).1]
    exact hi.bitFetch_of_waiting hwait hidx
  have hnew' : t.team (.created c) = none := by
    cases hteam : t.team (.created c) with
    | none => rfl
    | some team =>
      obtain ⟨team', ht', -⟩ := hback _ team hteam
      rw [hnew] at ht'
      cases ht'
  have hteams : ∀ q ref team, (update s.pe pe (t.enter (.created c) origin idx) q).team ref
      = some team → (q = pe ∧ ref = .created c ∧ team.teamIdx = idx) ∨
        ∃ team', (s.pe q).team ref = some team' ∧ team'.teamIdx = team.teamIdx := by
    intro q ref team ht
    by_cases hqp : q = pe
    · subst hqp
      rw [update_self, enter_team] at ht
      by_cases href : ref = .created c
      · subst href
        rw [update_self, some_inj] at ht
        exact .inl ⟨rfl, rfl, by rw [← ht]; rfl⟩
      · rw [update_of_ne href] at ht
        exact .inr (hback ref team ht)
    · rw [update_of_ne hqp] at ht
      exact .inr ⟨team, ht, rfl⟩
  refine ⟨?_, ?_, ?_, ?_, ?_⟩
  · exact (forall_update_iff s.pe
      fun q t => t.Consistent cfg.maxTeams (cfg.Reserved q)).mpr
      ⟨hcons.enter hlt hbit hnew', fun q _ => hi.consistent q⟩
  · exact (forall_update_iff s.pe _).mpr
      ⟨(hi.ordered pe).enter hadopt hnew, fun q _ => hi.ordered q⟩
  · intro q d hq
    dsimp only at hq ⊢
    by_cases hqp : q = pe
    · subst hqp
      rw [update_self] at hq
      cases hq
    · rw [update_of_ne hqp] at hq ⊢
      exact hi.waiting q d hq
  · intro q d team ht
    rcases hteams q _ team ht with ⟨rfl, heq, hteam⟩ | ⟨team', ht', hteam⟩
    · obtain rfl := TeamRef.created.inj heq
      exact ⟨hall, by rw [hteam]; exact hidx, hmem⟩
    · rw [← hteam]
      exact hi.chosen q d team' ht'
  · intro q k team ht
    rcases hteams q _ team ht with ⟨-, heq, -⟩ | ⟨team', ht', hteam⟩
    · cases heq
    · rw [← hteam]
      exact hi.predefined q k team' ht'

theorem Inv.destroy (hi : Inv cfg s) (h : s.destroy cfg pe idx = some s') : Inv cfg s' := by
  obtain ⟨hfree, t, ht, rfl⟩ := destroy_eq_some h
  obtain ⟨F, hF⟩ := frees_of_teamDestroy (hi.consistent pe).pooled ht
  have hteams : ∀ q ref team, (update s.pe pe t q).team ref = some team →
      (s.pe q).team ref = some team := by
    intro q ref team hteam
    by_cases hqp : q = pe
    · subst hqp
      rw [update_self] at hteam
      exact ((hF.teams _ _).mp hteam).1
    · rwa [update_of_ne hqp] at hteam
  refine ⟨?_, ?_, ?_, ?_, ?_⟩
  · exact (forall_update_iff s.pe
      fun q t => t.Consistent cfg.maxTeams (cfg.Reserved q)).mpr
      ⟨hF.consistent (hi.consistent pe), fun q _ => hi.consistent q⟩
  · exact (forall_update_iff s.pe _).mpr
      ⟨hF.ordered (hi.ordered pe), fun q _ => hi.ordered q⟩
  · intro q d hq
    dsimp only at hq ⊢
    have hqp : q ≠ pe := by
      rintro rfl
      rw [hfree] at hq
      cases hq
    rw [update_of_ne hqp]
    exact hi.waiting q d hq
  · intro q d team hteam
    exact hi.chosen q d team (hteams q _ team hteam)
  · intro q k team hteam
    exact hi.predefined q k team (hteams q _ team hteam)

theorem Inv.step {a : TeamAction} (hi : Inv cfg s) (h : s.step cfg a = some s') : Inv cfg s' := by
  cases a with
  | send pe c => exact hi.send h
  | choose pe c origin => exact hi.choose h
  | destroy pe idx => exact hi.destroy h

theorem inv_of_reachable (hr : Reachable (step cfg) (init cfg) s) : Inv cfg s :=
  hr.invariant .init fun hi h => hi.step h

/-- What the PEs' bitmaps, pools and teams tell about the team indices. -/
structure IndexAgreement (cfg : TeamConfig) (s : TeamLayer) : Prop where
  same_index : ∀ pe pe' ref team team', (s.pe pe).team ref = some team →
    (s.pe pe').team ref = some team' → team.teamIdx = team'.teamIdx
  pool_iff : ∀ pe i ref, (s.pe pe).teamPool i = some ref ↔
    ∃ team, (s.pe pe).team ref = some team ∧ team.teamIdx = i
  bit_clear_iff : ∀ pe, ∀ i < cfg.maxTeams, bitFetch (s.pe pe).psyncPoolAvail i = false ↔
    (s.pe pe).teamPool i ≠ none ∨ (i = gpuLeadersIndex ∧ cfg.gpuLeader pe = false)
  apart : ∀ pe ref ref' team team', ref ≠ ref' → (s.pe pe).team ref = some team →
    (s.pe pe).team ref' = some team' → team.teamIdx ≠ team'.teamIdx ∧
      ∀ psyncLen, Disjoint (psyncRegion psyncLen team.teamIdx) (psyncRegion psyncLen team'.teamIdx)

theorem disjoint_psyncRegion {i j : ℕ} (h : i ≠ j) (psyncLen : ℕ) :
    Disjoint (psyncRegion psyncLen i) (psyncRegion psyncLen j) := by
  rw [Set.disjoint_left]
  rintro a ⟨hi, hi'⟩ ⟨hj, hj'⟩
  rcases Nat.lt_or_gt_of_ne h with hlt | hlt
  · have : (i + 1) * psyncLen ≤ j * psyncLen := Nat.mul_le_mul_right psyncLen hlt
    omega
  · have : (j + 1) * psyncLen ≤ i * psyncLen := Nat.mul_le_mul_right psyncLen hlt
    omega

/-- In every run of creations and destructions the PEs agree on the indices of their teams. -/
theorem indexAgreement_of_reachable (hr : Reachable (step cfg) (init cfg) s) :
    s.IndexAgreement cfg := by
  have hi := inv_of_reachable hr
  refine ⟨?_, fun pe => (hi.consistent pe).pooled, fun pe => (hi.consistent pe).bit_iff, ?_⟩
  · intro pe pe' ref team team' ht ht'
    cases ref with
    | predefined idx => rw [hi.predefined pe idx team ht, hi.predefined pe' idx team' ht']
    | created c =>
      have hidx := (hi.chosen pe c team ht).2.1
      rw [(hi.chosen pe' c team' ht').2.1] at hidx
      exact (some.inj hidx).symm
  · intro pe ref ref' team team' hne ht ht'
    have hidx : team.teamIdx ≠ team'.teamIdx := by
      intro heq
      exact hne ((hi.consistent pe).pooled.eq_of_teamIdx ht ht' heq)
    exact ⟨hidx, disjoint_psyncRegion hidx⟩

def eightTeams : TeamConfig where
  maxTeams := 8
  gpuLeader pe := pe % 2 == 0
  isTeamNode _ idx := idx == 2 || idx == 4
  isTeamSameMypeNode _ idx := idx == 3
  teamsMin_le := by decide
  maxTeams_le := by decide

def overlappingTeams : List TeamAction :=
  let evens : Creation := ⟨0, 0, 2, 2⟩
  let firsts : Creation := ⟨1, 0, 1, 2⟩
  let later : Creation := ⟨2, 1, 1, 2⟩
  [.send 0 evens, .send 2 evens, .choose 2 evens (.user false false),
    .choose 0 evens (.user false false), .send 1 firsts, .send 0 firsts,
    .choose 0 firsts (.teamNode 6), .choose 1 firsts (.user true false), .destroy 2 6,
    .send 2 later, .send 1 later, .choose 1 later (.user true false), .destroy 0 6,
    .choose 2 later (.user true false)]

theorem indexAgreement_overlappingTeams : ∃ s,
    exec (step eightTeams) (init eightTeams) overlappingTeams = some s ∧
      s.IndexAgreement eightTeams := by
  exact exists_of_exec (fun _ => True) (by decide +kernel) fun _ hs _ =>
    indexAgreement_of_reachable (.of_exec hs)

/-- At the start the bit of the GPU leaders is clear on a PE whose pool has no such team. -/
theorem gpuLeaders_bit_clear_unused :
    Reachable (step eightTeams) (init eightTeams) (init eightTeams) ∧
      gpuLeadersIndex < eightTeams.maxTeams ∧
      bitFetch ((init eightTeams).pe 1).psyncPoolAvail gpuLeadersIndex = false ∧
      ((init eightTeams).pe 1).teamPool gpuLeadersIndex = none :=
  ⟨⟨[], rfl⟩, by decide, by decide, by decide⟩

end TeamLayer

end Nvshmem
