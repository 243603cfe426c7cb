import Nvshmem.Tables.Update
import Nvshmem.Transition.Exec

/-! # Team creation by unique id

A PE that creates a team writes its index in the team to every other PE, announces the
unique id of the team, and asks all PEs for theirs. From a peer that announces the same
unique id it takes the index that the peer has written. The members then pass three state
barriers and a barrier of the new team, and each resets its own synchronisation area
before the team is synchronised once more.
-/

namespace Nvshmem.TeamCreate

open Tables Function

/-- The bits of `state_idx`. -/
inductive PeState where
  | readPeInTeam | wroteIndex | done
deriving DecidableEq

def PeState.bit : PeState → ℕ
  | .readPeInTeam => 1
  | .wroteIndex => 2
  | .done => 4

/-- Where a PE is in `nvshmemi_team_create`. -/
inductive Stage where
  | waiting | publishing | polling
  | stateBarrier (state : PeState)
  | teamBarrier | resetting | teamSync | created
deriving DecidableEq

def Stage.rank : Stage → ℕ
  | .waiting => 0
  | .publishing => 1
  | .polling => 2
  | .stateBarrier .readPeInTeam => 3
  | .stateBarrier .wroteIndex => 4
  | .stateBarrier .done => 5
  | .teamBarrier => 6
  | .resetting => 7
  | .teamSync => 8
  | .created => 9

/-- The teams to be created, by their unique ids: the PEs of each in the order of their indices,
and the creations that each PE runs, one after another. -/
structure Plan where
  npes : ℕ
  members : ℕ → List ℕ
  program : ℕ → List ℕ
  members_nodup : ∀ u, (members u).Nodup
  members_lt : ∀ u, ∀ p ∈ members u, p < npes
  mem_members : ∀ p, ∀ u ∈ program p, p ∈ members u

def Plan.index (plan : Plan) (u p : ℕ) : ℕ := (plan.members u).idxOf p

def Plan.Before (plan : Plan) (p v u : ℕ) : Prop :=
  v ∈ plan.program p ∧ (plan.program p).idxOf v < (plan.program p).idxOf u

instance (plan : Plan) (p v u : ℕ) : Decidable (plan.Before p v u) :=
  inferInstanceAs (Decidable (_ ∧ _))

/-- The synchronisation areas of all PEs and the state of their kernels. The first index is the
PE. In `pe_mapping` of the team with a unique id, `peMapping` is the part that is indexed by team
and `peIndex` the part that is indexed by world. -/
structure State where
  stage : ℕ → ℕ → Stage
  uniqueid : ℕ → Option ℕ
  peInTeam : ℕ → ℕ → Option ℕ
  stateIdx : ℕ → ℕ → ℕ
  /-- The peers that the puts or signals of the current stage have not reached. -/
  unsent : ℕ → List ℕ
  /-- The peers whose unique id has been found and whose index is awaited. -/
  seen : ℕ → ℕ → Bool
  peMapping : ℕ → ℕ → ℕ → Option ℕ
  peIndex : ℕ → ℕ → ℕ → Option ℕ
  numPeersFound : ℕ → ℕ
  /-- How far the reset is: the unique id first, then one slot after another. -/
  cleared : ℕ → ℕ

inductive Action where
  | start (p u : ℕ)
  | put (p u i : ℕ)
  | announce (p u : ℕ)
  | poll (p u q : ℕ)
  | read (p u q : ℕ)
  | finishPolling (p u : ℕ)
  | signal (p u : ℕ) (state : PeState) (q : ℕ)
  | pass (p u : ℕ) (state : PeState)
  | leaveBarrier (p u : ℕ)
  | resetUniqueid (p u : ℕ)
  | resetSlot (p u i : ℕ)
  | finishReset (p u : ℕ)
  | leaveSync (p u : ℕ)

/-- A PE may start a creation when it likes, and goes on with one that it has started. -/
def Action.Due : Action → Prop
  | .start _ _ => False
  | _ => True

namespace State

def init : State where
  stage _ _ := .waiting
  uniqueid _ := none
  peInTeam _ _ := none
  stateIdx _ _ := 0
  unsent _ := []
  seen _ _ := false
  peMapping _ _ _ := none
  peIndex _ _ _ := none
  numPeersFound _ := 0
  cleared _ := 0

variable (plan : Plan) (s : State)

/-- The members of a team as `pe_mapping` has them. -/
def team (p u : ℕ) : List ℕ :=
  (List.range (plan.members u).length).filterMap (s.peMapping p u)

def peers (p : ℕ) : List ℕ := (List.range plan.npes).filter (· ≠ p)

/-- Enter `nvshmemi_team_creation_state_barrier`. -/
def enter (p u : ℕ) (state : PeState) : State :=
  { s with
    stage := set₂ s.stage p u (.stateBarrier state)
    stateIdx := set₂ s.stateIdx p p (s.stateIdx p p ||| state.bit)
    unsent := update s.unsent p ((s.team plan p u).filter (· ≠ p)) }

/-- When an action can be taken. A poll that finds a peer which is in the mapping already, and whose
index is there, changes nothing and is left out. -/
def Enabled : Action → Prop
  | .start p u => s.stage p u = .waiting ∧ u ∈ plan.program p ∧
      ∀ v ∈ plan.program p, plan.Before p v u → s.stage p v = .created
  | .put p u i => s.stage p u = .publishing ∧ i ∈ s.unsent p
  | .announce p u => s.stage p u = .publishing ∧ s.unsent p = []
  -- a lane of the warp asks the peers of its residue one after another
  | .poll p u q => s.stage p u = .polling ∧ q ∈ peers plan p ∧ s.uniqueid q = some u ∧
      (s.peIndex p u q = none ∨ s.peInTeam p q = none) ∧
      ∀ i ∈ peers plan p, i % 32 = q % 32 → s.seen p i = false
  | .read p u q => s.stage p u = .polling ∧ s.seen p q = true ∧ s.peInTeam p q ≠ none
  | .finishPolling p u => s.stage p u = .polling ∧ (plan.members u).length ≤ s.numPeersFound p ∧
      ∀ q ∈ peers plan p, s.seen p q = false
  | .signal p u state q => s.stage p u = .stateBarrier state ∧ q ∈ s.unsent p
  | .pass p u state => s.stage p u = .stateBarrier state ∧ s.unsent p = [] ∧
      ∀ q ∈ s.team plan p u, s.stateIdx p q &&& state.bit ≠ 0
  | .leaveBarrier p u => s.stage p u = .teamBarrier ∧
      ∀ q ∈ s.team plan p u, Stage.teamBarrier.rank ≤ (s.stage q u).rank
  | .resetUniqueid p u => s.stage p u = .resetting ∧ s.cleared p = 0
  | .resetSlot p u i => s.stage p u = .resetting ∧ s.cleared p = i + 1 ∧ i < plan.npes
  | .finishReset p u => s.stage p u = .resetting ∧ s.cleared p = plan.npes + 1
  | .leaveSync p u => s.stage p u = .teamSync ∧
      ∀ q ∈ s.team plan p u, Stage.teamSync.rank ≤ (s.stage q u).rank

instance (a : Action) : Decidable (s.Enabled plan a) := by
  cases a <;> exact inferInstanceAs (Decidable (_ ∧ _))

def effect : Action → State
  -- `nvshmemi_copy_internal_team_pe_info`, and the PE's own entries of `pe_mapping`
  | .start p u =>
    { s with
      stage := set₂ s.stage p u .publishing
      peInTeam := set₂ s.peInTeam p p (some (plan.index u p))
      stateIdx := set₂ s.stateIdx p p 0
      unsent := update s.unsent p (peers plan p)
      peMapping := set₃ s.peMapping p u (plan.index u p) (some p)
      peIndex := set₃ s.peIndex p u p (some (plan.index u p))
      numPeersFound := update s.numPeersFound p 1 }
  | .put p _ i =>
    { s with
      peInTeam := set₂ s.peInTeam i p (s.peInTeam p p)
      unsent := update s.unsent p ((s.unsent p).erase i) }
  -- after `nvshmemi_quiet`
  | .announce p u =>
    { s with
      stage := set₂ s.stage p u .polling
      uniqueid := update s.uniqueid p (some u) }
  | .poll p _ q => { s with seen := set₂ s.seen p q true }
  | .read p u q =>
    if s.peIndex p u q = none then
      { s with
        seen := set₂ s.seen p q false
        peMapping := set₃ s.peMapping p u ((s.peInTeam p q).getD 0) (some q)
        peIndex := set₃ s.peIndex p u q (s.peInTeam p q)
        numPeersFound := update s.numPeersFound p (s.numPeersFound p + 1) }
    else { s with seen := set₂ s.seen p q false }
  | .finishPolling p u => s.enter plan p u .readPeInTeam
  | .signal p _ _ q =>
    { s with
      stateIdx := set₂ s.stateIdx q p (s.stateIdx p p)
      unsent := update s.unsent p ((s.unsent p).erase q) }
  | .pass p u .readPeInTeam => s.enter plan p u .wroteIndex
  | .pass p u .wroteIndex => s.enter plan p u .done
  | .pass p u .done => { s with stage := set₂ s.stage p u .teamBarrier }
  | .leaveBarrier p u =>
    { s with
      stage := set₂ s.stage p u .resetting
      cleared := update s.cleared p 0 }
  -- `nvshmemi_reset_team_creation_psync`, one kernel after another
  | .resetUniqueid p _ =>
    { s with
      uniqueid := update s.uniqueid p none
      cleared := update s.cleared p 1 }
  | .resetSlot p _ i =>
    { s with
      peInTeam := set₂ s.peInTeam p i none
      stateIdx := set₂ s.stateIdx p i 0
      cleared := update s.cleared p (i + 2) }
  | .finishReset p u => { s with stage := set₂ s.stage p u .teamSync }
  | .leaveSync p u => { s with stage := set₂ s.stage p u .created }

def step (a : Action) : Option State := if s.Enabled plan a then some (s.effect plan a) else none

variable {plan s} {t : State} {a : Action}

theorem step_eq_some : s.step plan a = some t ↔ s.Enabled plan a ∧ s.effect plan a = t := by
  rw [step, Option.ite_none_right_eq_some, Option.some.injEq]

end State

end Nvshmem.TeamCreate
