import Nvshmem.Team.Bitmap

/-! # Team pools and the choice of a team index

A PE that takes part in a team creation contributes its bitmap to a reduction over
the members of the new team, takes the first index that is available on all of them
and enters the team in its pool. Destroying a team destroys the internal teams
recorded in it and returns its index.
-/

namespace Nvshmem

open Function

def teamsMin : ℕ := 6

def gpuLeadersIndex : ℕ := 5

def nPsyncBytes : ℕ := 32

/-- One collective team creation. The ticket tells calls with equal arguments apart. -/
structure Creation where
  ticket : ℕ
  start : ℕ
  stride : ℤ
  size : ℕ
deriving DecidableEq

def Creation.members (c : Creation) : List ℕ :=
  (List.range c.size).map fun i => ((c.start : ℤ) + i * c.stride).toNat

inductive TeamRef where
  | predefined (idx : ℕ)
  | created (c : Creation)
deriving DecidableEq

/-- The fields of a team structure that concern its index and its internal teams. The serial
number, which the program does not keep, counts the teams a PE has entered in its pool. -/
structure Team where
  teamIdx : ℕ
  isTeamNode : Bool
  teamNode : Option ℕ
  isTeamSameMypeNode : Bool
  teamSameMypeNode : Option ℕ
  serial : ℕ

/-- The state of the team layer on one PE: `team` holds the allocated structures. -/
structure PeTeams where
  psyncPoolAvail : Bytes
  teamPool : ℕ → Option TeamRef
  team : TeamRef → Option Team
  serials : ℕ

/-- The `long` entries of the psync pool that belong to a team index. -/
def psyncRegion (psyncLen idx : ℕ) : Set ℕ := Set.Ico (idx * psyncLen) ((idx + 1) * psyncLen)

def isRsvdTeams : Option ℕ → Bool
  | none => true
  | some idx => idx < teamsMin

namespace PeTeams

def release (s : PeTeams) (ref : TeamRef) (idx : ℕ) : PeTeams :=
  { s with
    psyncPoolAvail := bitSet s.psyncPoolAvail idx
    teamPool := update s.teamPool idx none
    team := update s.team ref none }

section Release

variable (s : PeTeams) (ref : TeamRef) (idx : ℕ)

@[simp] theorem release_psyncPoolAvail :
    (s.release ref idx).psyncPoolAvail = bitSet s.psyncPoolAvail idx := rfl
@[simp] theorem release_teamPool :
    (s.release ref idx).teamPool = update s.teamPool idx none := rfl
@[simp] theorem release_team : (s.release ref idx).team = update s.team ref none := rfl

end Release

def destroySub (destroy : PeTeams → TeamRef → Option PeTeams) (s : PeTeams) (skip : Bool)
    (idx : Option ℕ) : Option PeTeams :=
  if skip || isRsvdTeams idx then some s
  else
    match idx.bind s.teamPool with
    | none => some s
    | some ref => destroy s ref

/-- `nvshmemi_team_destroy`, which fails on a dangling pointer. -/
def destroy : ℕ → PeTeams → TeamRef → Option PeTeams
  | 0, _, _ => none
  | fuel + 1, s, ref => (s.team ref).bind fun team =>
    (destroySub (destroy fuel) s team.isTeamNode team.teamNode).bind fun s =>
      (destroySub (destroy fuel) s team.isTeamSameMypeNode team.teamSameMypeNode).map fun s =>
        s.release ref team.teamIdx

/-- `nvshmem_team_destroy`, which reports an attempt on a predefined team but goes on. -/
def teamDestroy (maxTeams : ℕ) (s : PeTeams) (idx : ℕ) : Option PeTeams :=
  if idx ≥ maxTeams then some s
  else
    match s.teamPool idx with
    | none => some s
    | some ref => destroy (s.serials + 1) s ref

inductive Origin where
  | user (isTeamNode isTeamSameMypeNode : Bool)
  | teamNode (parent : ℕ)
  | teamSameMypeNode (parent : ℕ)

def Origin.newTeam (origin : Origin) (idx serial : ℕ) : Team where
  teamIdx := idx
  isTeamNode := match origin with
    | .user isTeamNode _ => isTeamNode
    | .teamNode _ => true
    | .teamSameMypeNode _ => false
  teamNode := none
  isTeamSameMypeNode := match origin with
    | .user _ isTeamSameMypeNode => isTeamSameMypeNode
    | .teamNode _ => false
    | .teamSameMypeNode _ => true
  teamSameMypeNode := none
  serial := serial

def adopt (s : PeTeams) (origin : Origin) (idx : ℕ) : Option PeTeams :=
  let record (parent : ℕ) (f : Team → Team) : Option PeTeams :=
    (s.teamPool parent).bind fun ref => (s.team ref).map fun team =>
      { s with team := update s.team ref (some (f team)) }
  match origin with
  | .user _ _ => some s
  | .teamNode parent => record parent fun team => { team with teamNode := some idx }
  | .teamSameMypeNode parent =>
    record parent fun team => { team with teamSameMypeNode := some idx }

def enter (s : PeTeams) (ref : TeamRef) (origin : Origin) (idx : ℕ) : PeTeams :=
  { psyncPoolAvail := bitClear s.psyncPoolAvail idx
    teamPool := update s.teamPool idx (some ref)
    team := update s.team ref (some (origin.newTeam idx s.serials))
    serials := s.serials + 1 }

section Enter

variable (s : PeTeams) (ref : TeamRef) (origin : Origin) (idx : ℕ)

@[simp] theorem enter_psyncPoolAvail :
    (s.enter ref origin idx).psyncPoolAvail = bitClear s.psyncPoolAvail idx := rfl
@[simp] theorem enter_teamPool :
    (s.enter ref origin idx).teamPool = update s.teamPool idx (some ref) := rfl
@[simp] theorem enter_team : (s.enter ref origin idx).team =
    update s.team ref (some (origin.newTeam idx s.serials)) := rfl
@[simp] theorem enter_serials : (s.enter ref origin idx).serials = s.serials + 1 := rfl

end Enter

theorem adopt_eq_some {s t : PeTeams} {origin : Origin} {idx : ℕ}
    (h : s.adopt origin idx = some t) :
    t.psyncPoolAvail = s.psyncPoolAvail ∧ t.teamPool = s.teamPool ∧ t.serials = s.serials ∧
      (t.team = s.team ∨ ∃ ref team team', s.team ref = some team ∧
        t.team = update s.team ref (some team') ∧ team'.teamIdx = team.teamIdx ∧
        team'.serial = team.serial ∧
        (team'.teamNode = team.teamNode ∨ team'.teamNode = some idx) ∧
        (team'.teamSameMypeNode = team.teamSameMypeNode ∨
          team'.teamSameMypeNode = some idx)) := by
  cases origin with
  | user isTeamNode isTeamSameMypeNode =>
    cases h
    exact ⟨rfl, rfl, rfl, .inl rfl⟩
  | teamNode parent =>
    obtain ⟨ref, -, h⟩ := Option.bind_eq_some_iff.mp h
    obtain ⟨team, ht, rfl⟩ := Option.map_eq_some_iff.mp h
    exact ⟨rfl, rfl, rfl, .inr ⟨ref, team, _, ht, rfl, rfl, rfl, .inr rfl, .inl rfl⟩⟩
  | teamSameMypeNode parent =>
    obtain ⟨ref, -, h⟩ := Option.bind_eq_some_iff.mp h
    obtain ⟨team, ht, rfl⟩ := Option.map_eq_some_iff.mp h
    exact ⟨rfl, rfl, rfl, .inr ⟨ref, team, _, ht, rfl, rfl, rfl, .inl rfl, .inr rfl⟩⟩

end PeTeams

/-- The limits of the team layer and what the placement of the PEs decides. -/
structure TeamConfig where
  maxTeams : ℕ
  gpuLeader : ℕ → Bool
  isTeamNode : ℕ → ℕ → Bool
  isTeamSameMypeNode : ℕ → ℕ → Bool
  teamsMin_le : teamsMin ≤ maxTeams
  maxTeams_le : maxTeams ≤ nPsyncBytes * 8

namespace TeamConfig

variable (cfg : TeamConfig)

def initAvail : Bytes :=
  (List.range teamsMin).foldl bitClear ((List.range cfg.maxTeams).foldl bitSet fun _ => 0#8)

def hasPredefined (pe idx : ℕ) : Bool :=
  idx < gpuLeadersIndex || (idx == gpuLeadersIndex && cfg.gpuLeader pe)

def predefinedTeam (pe idx : ℕ) : Team where
  teamIdx := idx
  isTeamNode := cfg.isTeamNode pe idx
  teamNode := if idx = 0 then some 2 else none
  isTeamSameMypeNode := cfg.isTeamSameMypeNode pe idx
  teamSameMypeNode := if idx = 0 then some 3 else none
  serial := idx

def initPe (pe : ℕ) : PeTeams where
  psyncPoolAvail := cfg.initAvail
  teamPool idx := if cfg.hasPredefined pe idx then some (.predefined idx) else none
  team
    | .predefined idx => if cfg.hasPredefined pe idx then some (cfg.predefinedTeam pe idx) else none
    | .created _ => none
  serials := teamsMin

end TeamConfig

/-- All PEs, the creation each of them waits in, and the bitmaps sent to each reduction. -/
structure TeamLayer where
  pe : ℕ → PeTeams
  splitting : ℕ → Option Creation
  sent : Creation → ℕ → Option Bytes

inductive TeamAction where
  | send (pe : ℕ) (c : Creation)
  | choose (pe : ℕ) (c : Creation) (origin : PeTeams.Origin)
  | destroy (pe idx : ℕ)

namespace TeamLayer

def init (cfg : TeamConfig) : TeamLayer where
  pe := cfg.initPe
  splitting _ := none
  sent _ _ := none

def psyncPoolAvailReduced (s : TeamLayer) (c : Creation) : Bytes :=
  reduceAnd (c.members.filterMap (s.sent c))

/-- The first half of `nvshmemi_team_set_team_idx_v1`: start the reduction and wait in it. -/
def send (s : TeamLayer) (pe : ℕ) (c : Creation) : Option TeamLayer :=
  if s.splitting pe = none ∧ pe ∈ c.members ∧ (s.sent c pe).isNone then
    some { s with
      splitting := update s.splitting pe (some c)
      sent := update s.sent c
        (update (s.sent c) pe (some (s.pe pe).psyncPoolAvail)) }
  else none

def choose (cfg : TeamConfig) (s : TeamLayer) (pe : ℕ) (c : Creation) (origin : PeTeams.Origin) :
    Option TeamLayer :=
  if s.splitting pe = some c ∧ ∀ q ∈ c.members, (s.sent c q).isSome then
    match bit1stNonzero (s.psyncPoolAvailReduced c) nPsyncBytes with
    | none => some { s with splitting := update s.splitting pe none }
    | some idx =>
      if idx ≥ cfg.maxTeams then some { s with splitting := update s.splitting pe none }
      else ((s.pe pe).adopt origin idx).map fun t =>
        { s with
          pe := update s.pe pe (t.enter (.created c) origin idx)
          splitting := update s.splitting pe none }
  else none

def destroy (cfg : TeamConfig) (s : TeamLayer) (pe idx : ℕ) : Option TeamLayer :=
  if s.splitting pe = none then
    ((s.pe pe).teamDestroy cfg.maxTeams idx).map fun t => { s with pe := update s.pe pe t }
  else none

def step (cfg : TeamConfig) (s : TeamLayer) : TeamAction → Option TeamLayer
  | .send pe c => s.send pe c
  | .choose pe c origin => s.choose cfg pe c origin
  | .destroy pe idx => s.destroy cfg pe idx

end TeamLayer

end Nvshmem
