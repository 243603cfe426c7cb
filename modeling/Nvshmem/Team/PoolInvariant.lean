import Nvshmem.Team.Pool

/-! # The team pool of one PE

Entering a team takes an index whose bit is set, and destroying a team frees
indices that are in use, through whatever internal teams the recursion reaches.
Both keep the bitmap and the pool in step, and the recursion ends because a
recorded index never refers to an older team.
-/

namespace Nvshmem

open Function Set

namespace PeTeams

variable {s s' t : PeTeams} {ref ref' : TeamRef} {team : Team} {idx i : ℕ} {F G : Set ℕ}

def Pooled (s : PeTeams) : Prop :=
  ∀ i ref, s.teamPool i = some ref ↔ ∃ team, s.team ref = some team ∧ team.teamIdx = i

theorem Pooled.teamPool_of_team (h : s.Pooled) (ht : s.team ref = some team) :
    s.teamPool team.teamIdx = some ref :=
  (h _ _).mpr ⟨team, ht, rfl⟩

theorem Pooled.eq_of_teamIdx (h : s.Pooled) {team' : Team} (ht : s.team ref = some team)
    (ht' : s.team ref' = some team') (heq : team.teamIdx = team'.teamIdx) : ref = ref' := by
  have hp := h.teamPool_of_team ht
  rw [heq, h.teamPool_of_team ht'] at hp
  exact (Option.some.inj hp).symm

/-- The teams at the indices in `F`, all of them in use, have been destroyed. -/
structure Frees (s s' : PeTeams) (F : Set ℕ) : Prop where
  used : ∀ i ∈ F, s.teamPool i ≠ none
  freed : ∀ i ∈ F, s'.teamPool i = none
  kept : ∀ i ∉ F, s'.teamPool i = s.teamPool i
  bits : ∀ i, bitFetch s'.psyncPoolAvail i = true ↔ i ∈ F ∨ bitFetch s.psyncPoolAvail i = true
  teams : ∀ ref team, s'.team ref = some team ↔ s.team ref = some team ∧ team.teamIdx ∉ F
  serials : s'.serials = s.serials

theorem Frees.refl (s : PeTeams) : Frees s s ∅ where
  used _ h := h.elim
  freed _ h := h.elim
  kept _ _ := rfl
  bits i := by simp
  teams ref team := by simp
  serials := rfl

theorem Frees.trans (h : Frees s s' F) (h' : Frees s' t G) : Frees s t (F ∪ G) where
  used i hi := by
    rcases hi with hi | hi
    · exact h.used i hi
    · intro hnone
      apply h'.used i hi
      by_cases hF : i ∈ F
      · exact h.freed i hF
      · rw [h.kept i hF, hnone]
  freed i hi := by
    by_cases hG : i ∈ G
    · exact h'.freed i hG
    · rw [h'.kept i hG]
      exact h.freed i (hi.resolve_right hG)
  kept i hi := by
    rw [mem_union, not_or] at hi
    rw [h'.kept i hi.2, h.kept i hi.1]
  bits i := by
    rw [h'.bits, h.bits, mem_union]
    tauto
  teams ref team := by
    rw [h'.teams, h.teams, mem_union]
    tauto
  serials := h'.serials.trans h.serials

theorem Frees.pooled (h : Frees s s' F) (hs : s.Pooled) : s'.Pooled := by
  intro i ref
  simp only [h.teams]
  by_cases hF : i ∈ F
  · rw [h.freed i hF]
    constructor
    · intro hnone
      cases hnone
    · rintro ⟨team, ⟨-, hnot⟩, rfl⟩
      exact absurd hF hnot
  · rw [h.kept i hF, hs i ref]
    constructor
    · rintro ⟨team, ht, rfl⟩
      exact ⟨team, ⟨ht, hF⟩, rfl⟩
    · rintro ⟨team, ⟨ht, -⟩, rfl⟩
      exact ⟨team, ht, rfl⟩

theorem Frees.release (h : Frees s s' F) (hs : s.Pooled) (ht : s.team ref = some team) :
    Frees s (s'.release ref team.teamIdx) (insert team.teamIdx F) where
  used i hi := by
    rcases hi with rfl | hi
    · rw [hs.teamPool_of_team ht]
      exact Option.some_ne_none _
    · exact h.used i hi
  freed i hi := by
    by_cases heq : i = team.teamIdx
    · rw [heq]
      exact update_self _ _ _
    · rw [release_teamPool, update_of_ne heq]
      exact h.freed i (hi.resolve_left heq)
  kept i hi := by
    rw [mem_insert_iff, not_or] at hi
    rw [release_teamPool, update_of_ne hi.1, h.kept i hi.2]
  bits i := by
    rw [release_psyncPoolAvail, bitFetch_bitSet, Bool.or_eq_true, decide_eq_true_iff, h.bits,
      mem_insert_iff, or_assoc]
  teams ref' team' := by
    rw [release_team]
    by_cases heq : ref' = ref
    · subst heq
      rw [update_self, ht, Option.some_inj]
      constructor
      · intro hnone
        cases hnone
      · rintro ⟨rfl, hnot⟩
        exact absurd (.inl rfl) hnot
    · rw [update_of_ne heq, h.teams, mem_insert_iff, not_or]
      constructor
      · rintro ⟨ht', hnot⟩
        exact ⟨ht', fun hidx => heq (hs.eq_of_teamIdx ht' ht hidx), hnot⟩
      · rintro ⟨ht', -, hnot⟩
        exact ⟨ht', hnot⟩
  serials := h.serials

theorem frees_of_destroySub {destroy : PeTeams → TeamRef → Option PeTeams} {skip : Bool}
    {idx : Option ℕ} (hs : s.Pooled)
    (hdestroy : ∀ {s ref s'}, s.Pooled → destroy s ref = some s' → ∃ F, Frees s s' F)
    (h : destroySub destroy s skip idx = some s') : ∃ F, Frees s s' F := by
  rw [destroySub] at h
  split_ifs at h
  · obtain rfl := Option.some.inj h
    exact ⟨∅, .refl s⟩
  · cases hpool : idx.bind s.teamPool with
    | none =>
      rw [hpool] at h
      obtain rfl := Option.some.inj h
      exact ⟨∅, .refl s⟩
    | some ref =>
      rw [hpool] at h
      exact hdestroy hs h

theorem frees_of_destroy {fuel : ℕ} (hs : s.Pooled) (h : destroy fuel s ref = some s') :
    ∃ F, Frees s s' F := by
  induction fuel generalizing s ref s' with
  | zero => cases h
  | succ fuel ih =>
    obtain ⟨team, ht, h⟩ := Option.bind_eq_some_iff.mp h
    obtain ⟨s₁, h₁, h⟩ := Option.bind_eq_some_iff.mp h
    obtain ⟨s₂, h₂, rfl⟩ := Option.map_eq_some_iff.mp h
    obtain ⟨F, hF⟩ := frees_of_destroySub hs ih h₁
    obtain ⟨G, hG⟩ := frees_of_destroySub (hF.pooled hs) ih h₂
    exact ⟨_, (hF.trans hG).release hs ht⟩

theorem frees_of_teamDestroy {maxTeams : ℕ} (hs : s.Pooled)
    (h : s.teamDestroy maxTeams idx = some s') : ∃ F, Frees s s' F := by
  rw [teamDestroy] at h
  split_ifs at h
  · obtain rfl := Option.some.inj h
    exact ⟨∅, .refl s⟩
  · cases hpool : s.teamPool idx with
    | none =>
      rw [hpool] at h
      obtain rfl := Option.some.inj h
      exact ⟨∅, .refl s⟩
    | some ref =>
      rw [hpool] at h
      exact frees_of_destroy hs h

/-- The bits below the limit are clear exactly at the indices in use and at those reserved. -/
structure Consistent (s : PeTeams) (maxTeams : ℕ) (reserved : ℕ → Prop) : Prop where
  pooled : s.Pooled
  idx_lt : ∀ ref team, s.team ref = some team → team.teamIdx < maxTeams
  unused : ∀ i, reserved i → s.teamPool i = none
  bit_iff : ∀ i < maxTeams,
    bitFetch s.psyncPoolAvail i = false ↔ s.teamPool i ≠ none ∨ reserved i

/-- A recorded index refers to no team that was entered before the team that records it. -/
structure Ordered (s : PeTeams) : Prop where
  serial_lt : ∀ ref team, s.team ref = some team → team.serial < s.serials
  older : ∀ ref team, s.team ref = some team → ∀ j, teamsMin ≤ j →
    team.teamNode = some j ∨ team.teamSameMypeNode = some j →
    ∀ ref' team', s.teamPool j = some ref' → s.team ref' = some team' → team.serial < team'.serial

section Preservation

variable {maxTeams : ℕ} {reserved : ℕ → Prop} {origin : Origin}

theorem Frees.teamPool_eq_some (h : Frees s s' F) (hp : s'.teamPool i = some ref) :
    s.teamPool i = some ref := by
  by_cases hF : i ∈ F
  · rw [h.freed i hF] at hp
    cases hp
  · rwa [← h.kept i hF]

theorem Frees.ordered (h : Frees s s' F) (ho : s.Ordered) : s'.Ordered where
  serial_lt ref team ht := by
    rw [h.serials]
    exact ho.serial_lt ref team ((h.teams _ _).mp ht).1
  older ref team ht j hj hrec ref' team' hp ht' :=
    ho.older ref team ((h.teams _ _).mp ht).1 j hj hrec ref' team' (h.teamPool_eq_some hp)
      ((h.teams _ _).mp ht').1

theorem Frees.consistent (h : Frees s s' F) (hc : s.Consistent maxTeams reserved) :
    s'.Consistent maxTeams reserved where
  pooled := h.pooled hc.pooled
  idx_lt ref team ht := hc.idx_lt ref team ((h.teams _ _).mp ht).1
  unused i hi := by
    have hnone := hc.unused i hi
    rwa [h.kept i fun hF => h.used i hF hnone]
  bit_iff i hi := by
    rw [← Bool.not_eq_true, h.bits]
    by_cases hF : i ∈ F
    · rw [h.freed i hF]
      constructor
      · intro hnot
        exact absurd (.inl hF) hnot
      · rintro (hne | hres)
        · exact absurd rfl hne
        · exact absurd (hc.unused i hres) (h.used i hF)
    · rw [h.kept i hF, ← hc.bit_iff i hi, ← Bool.not_eq_true, not_or]
      exact ⟨And.right, fun hbit => ⟨hF, hbit⟩⟩

theorem Consistent.adopt (hc : s.Consistent maxTeams reserved) (h : s.adopt origin idx = some t) :
    t.Consistent maxTeams reserved ∧ ∀ ref team, t.team ref = some team →
      ∃ team', s.team ref = some team' ∧ team'.teamIdx = team.teamIdx := by
  obtain ⟨havail, hpool, -, hteam⟩ := adopt_eq_some h
  have hback : ∀ ref team, t.team ref = some team →
      ∃ team', s.team ref = some team' ∧ team'.teamIdx = team.teamIdx := by
    intro ref team ht
    rcases hteam with heq | ⟨ref', old, new, hold, heq, hidx, -⟩
    · exact ⟨team, by rwa [← heq], rfl⟩
    · rw [heq] at ht
      by_cases href : ref = ref'
      · subst href
        rw [update_self, Option.some_inj] at ht
        exact ⟨old, hold, by rw [← ht, hidx]⟩
      · rw [update_of_ne href] at ht
        exact ⟨team, ht, rfl⟩
  have hforth : ∀ ref team, s.team ref = some team →
      ∃ team', t.team ref = some team' ∧ team'.teamIdx = team.teamIdx := by
    intro ref team ht
    rcases hteam with heq | ⟨ref', old, new, hold, heq, hidx, -⟩
    · exact ⟨team, by rwa [heq], rfl⟩
    · rw [heq]
      by_cases href : ref = ref'
      · subst href
        rw [hold, Option.some_inj] at ht
        exact ⟨new, update_self _ _ _, by rw [hidx, ht]⟩
      · exact ⟨team, by rwa [update_of_ne href], rfl⟩
  refine ⟨⟨?_, ?_, ?_, ?_⟩, hback⟩
  · intro i ref
    rw [hpool, hc.pooled i ref]
    constructor
    · rintro ⟨team, ht, rfl⟩
      exact hforth ref team ht
    · rintro ⟨team, ht, rfl⟩
      exact hback ref team ht
  · intro ref team ht
    obtain ⟨team', ht', hidx⟩ := hback ref team ht
    rw [← hidx]
    exact hc.idx_lt ref team' ht'
  · rw [hpool]
    exact hc.unused
  · rw [havail, hpool]
    exact hc.bit_iff

theorem Consistent.enter (hc : s.Consistent maxTeams reserved) (hidx : idx < maxTeams)
    (hbit : bitFetch s.psyncPoolAvail idx = true) (hnew : s.team ref = none) :
    (s.enter ref origin idx).Consistent maxTeams reserved := by
  have hfree : ¬ (s.teamPool idx ≠ none ∨ reserved idx) := by
    rw [← hc.bit_iff idx hidx, hbit]
    exact Bool.noConfusion
  rw [not_or, not_not] at hfree
  obtain ⟨hnone, hres⟩ := hfree
  refine ⟨?_, ?_, ?_, ?_⟩
  · intro i ref'
    rw [enter_teamPool, enter_team]
    by_cases hi : i = idx
    · subst hi
      rw [update_self, Option.some_inj]
      constructor
      · rintro rfl
        exact ⟨_, update_self _ _ _, rfl⟩
      · rintro ⟨team, ht, rfl⟩
        by_contra hne
        rw [update_of_ne (Ne.symm hne)] at ht
        rw [hc.pooled.teamPool_of_team ht] at hnone
        cases hnone
    · rw [update_of_ne hi, hc.pooled i ref']
      by_cases href : ref' = ref
      · subst href
        rw [update_self, hnew]
        constructor
        · rintro ⟨team, ht, -⟩
          cases ht
        · rintro ⟨team, ht, rfl⟩
          obtain rfl := Option.some.inj ht
          exact absurd rfl hi
      · rw [update_of_ne href]
  · intro ref' team ht
    rw [enter_team] at ht
    by_cases href : ref' = ref
    · subst href
      rw [update_self] at ht
      obtain rfl := Option.some.inj ht
      exact hidx
    · rw [update_of_ne href] at ht
      exact hc.idx_lt ref' team ht
  · intro i hi
    rw [enter_teamPool, update_of_ne (by rintro rfl; exact hres hi)]
    exact hc.unused i hi
  · intro i hi
    rw [enter_psyncPoolAvail, enter_teamPool, bitFetch_bitClear]
    by_cases heq : i = idx
    · subst heq
      simp
    · rw [update_of_ne heq, decide_eq_true heq, Bool.true_and]
      exact hc.bit_iff i hi

theorem Ordered.enter (ho : s.Ordered) (h : s.adopt origin idx = some t)
    (hnew : s.team ref = none) : (t.enter ref origin idx).Ordered := by
  obtain ⟨-, hpool, hserials, hteam⟩ := adopt_eq_some h
  have hold : ∀ ref' team, ref' ≠ ref → (t.enter ref origin idx).team ref' = some team →
      ∃ team', s.team ref' = some team' ∧ team'.serial = team.serial ∧ ∀ j,
        team.teamNode = some j ∨ team.teamSameMypeNode = some j →
          j = idx ∨ team'.teamNode = some j ∨ team'.teamSameMypeNode = some j := by
    intro ref' team hne ht
    rw [enter_team, update_of_ne hne] at ht
    rcases hteam with heq | ⟨parent, old, new, hp, heq, -, hser, hnode, hsame⟩
    · exact ⟨team, by rwa [← heq], rfl, fun j hj => .inr hj⟩
    · rw [heq] at ht
      by_cases hpar : ref' = parent
      · subst hpar
        rw [update_self, Option.some_inj] at ht
        subst ht
        refine ⟨old, hp, hser.symm, fun j hj => ?_⟩
        rcases hj with hj | hj
        · rcases hnode with hnode | hnode
          · exact .inr (.inl (by rw [← hnode, hj]))
          · exact .inl (Option.some.inj (by rw [← hj, hnode]))
        · rcases hsame with hsame | hsame
          · exact .inr (.inr (by rw [← hsame, hj]))
          · exact .inl (Option.some.inj (by rw [← hj, hsame]))
      · rw [update_of_ne hpar] at ht
        exact ⟨team, ht, rfl, fun j hj => .inr hj⟩
  have hself : (t.enter ref origin idx).team ref = some (origin.newTeam idx s.serials) := by
    rw [enter_team, update_self, hserials]
  refine ⟨?_, ?_⟩
  · intro ref' team ht
    rw [enter_serials, hserials]
    by_cases href : ref' = ref
    · subst href
      rw [hself, Option.some_inj] at ht
      rw [← ht]
      exact Nat.lt_succ_self _
    · obtain ⟨team', ht', hser, -⟩ := hold ref' team href ht
      have := ho.serial_lt ref' team' ht'
      omega
  · intro ref' team ht j hj hrec ref'' team'' hp ht''
    by_cases href : ref' = ref
    · subst href
      rw [hself, Option.some_inj] at ht
      subst ht
      rcases hrec with hrec | hrec <;> cases hrec
    obtain ⟨team', ht', hser, hrecs⟩ := hold ref' team href ht
    by_cases href'' : ref'' = ref
    · subst href''
      rw [hself, Option.some_inj] at ht''
      have := ho.serial_lt ref' team' ht'
      rw [← ht'', ← hser]
      exact this
    · obtain ⟨old'', hold'', hser'', -⟩ := hold ref'' team'' href'' ht''
      rw [enter_teamPool] at hp
      have hjidx : j ≠ idx := by
        rintro rfl
        rw [update_self, Option.some_inj] at hp
        exact href'' hp.symm
      rw [update_of_ne hjidx, hpool] at hp
      rw [← hser, ← hser'']
      exact ho.older ref' team' ht' j hj ((hrecs j hrec).resolve_left hjidx) ref'' old'' hp hold''

end Preservation

theorem teamsMin_le_of_not_isRsvdTeams {j : ℕ} (h : isRsvdTeams (some j) = false) :
    teamsMin ≤ j := by
  simpa [isRsvdTeams] using h

theorem destroySub_eq_some {destroy : PeTeams → TeamRef → Option PeTeams} {record : Option ℕ}
    (skip : Bool) (h : ∀ j ref, record = some j → teamsMin ≤ j → s.teamPool j = some ref →
      ∃ s', destroy s ref = some s') :
    ∃ s', destroySub destroy s skip record = some s' := by
  rw [destroySub]
  split_ifs with hskip
  · exact ⟨s, rfl⟩
  · cases record with
    | none => exact ⟨s, rfl⟩
    | some j =>
      rw [Bool.or_eq_true, not_or, Bool.not_eq_true, Bool.not_eq_true] at hskip
      cases hp : s.teamPool j with
      | none => exact ⟨s, by rw [Option.bind_some, hp]⟩
      | some ref =>
        rw [Option.bind_some, hp]
        exact h j ref rfl (teamsMin_le_of_not_isRsvdTeams hskip.2) hp

theorem destroy_eq_some {fuel : ℕ} (hs : s.Pooled) (ho : s.Ordered)
    (ht : s.team ref = some team) (hfuel : s.serials ≤ team.serial + fuel) :
    ∃ s', destroy fuel s ref = some s' := by
  induction fuel generalizing s ref team with
  | zero =>
    have := ho.serial_lt ref team ht
    omega
  | succ fuel ih =>
    have hsub : ∀ {u F} j ref', Frees s u F →
        team.teamNode = some j ∨ team.teamSameMypeNode = some j → teamsMin ≤ j →
        u.teamPool j = some ref' → ∃ u', destroy fuel u ref' = some u' := by
      intro u F j ref' hF hrec hj hp
      obtain ⟨team', ht', -⟩ := ((hF.pooled hs) j ref').mp hp
      have hlt := ho.older ref team ht j hj hrec ref' team' (hF.teamPool_eq_some hp)
        ((hF.teams _ _).mp ht').1
      exact ih (hF.pooled hs) (hF.ordered ho) ht' (by rw [hF.serials]; omega)
    obtain ⟨s₁, h₁⟩ := destroySub_eq_some team.isTeamNode fun j ref' hrec =>
      hsub j ref' (.refl s) (.inl hrec)
    obtain ⟨F, hF⟩ := frees_of_destroySub hs frees_of_destroy h₁
    obtain ⟨s₂, h₂⟩ := destroySub_eq_some team.isTeamSameMypeNode fun j ref' hrec =>
      hsub j ref' hF (.inr hrec)
    refine ⟨s₂.release ref team.teamIdx, ?_⟩
    rw [destroy, ht, Option.bind_some, h₁, Option.bind_some, h₂, Option.map_some]

theorem teamDestroy_eq_some (hs : s.Pooled) (ho : s.Ordered) (maxTeams idx : ℕ) :
    ∃ s', s.teamDestroy maxTeams idx = some s' := by
  rw [teamDestroy]
  split_ifs
  · exact ⟨s, rfl⟩
  · cases hp : s.teamPool idx with
    | none => exact ⟨s, rfl⟩
    | some ref =>
      obtain ⟨team, ht, -⟩ := (hs idx ref).mp hp
      exact destroy_eq_some hs ho ht (by omega)

end PeTeams

end Nvshmem
