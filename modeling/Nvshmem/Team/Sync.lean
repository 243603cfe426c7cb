import Nvshmem.Dissemination.Heard
import Nvshmem.Tables.Update
import Nvshmem.Transition.Inevitable

/-! # Team sync by dissemination

In every phase the threads of a PE signal the PEs at certain shifts after it in the team,
each into the slot of the signalling PE, and then wait for the PEs at the same shifts
before it. The three variants of the source differ in their shifts and in the way they find
a neighbour. Syncs use the two signal arrays in turn; a signal is the counter of the sync,
and a slot is waited for until it holds at least that.
-/

namespace Nvshmem.TeamSync

open Tables Function

/-- A team; PE `x` of the team is PE `peMapping x` of the job. The stride is not positive if the
team is not strided. -/
structure Team where
  size : ℕ
  start : ℕ
  stride : ℤ
  peMapping : ℕ → ℕ
  size_pos : 0 < size
  peMapping_inj : ∀ {x y}, x < size → y < size → peMapping x = peMapping y → x = y
  peMapping_strided : 0 < stride → ∀ {x}, x < size → peMapping x = start + x * stride.toNat

/-- `nvshmemi_team_translate_pe_to_team_world_wrap`. -/
def Team.translateWrap (team : Team) (pe : ℕ) : ℕ := team.peMapping (pe % team.size)

structure Schedule where
  size : ℕ
  mype : ℕ → ℕ
  groupSize : ℕ
  numPhases : ℕ
  /-- The shifts of a thread in a phase. -/
  shifts : ℕ → ℕ → List ℕ
  toNbr : ℕ → ℕ → ℕ
  fromNbr : ℕ → ℕ → ℕ
  size_pos : 0 < size
  mype_inj : ∀ {x y}, x < size → y < size → mype x = mype y → x = y
  shifts_bounds : ∀ {i t d}, d ∈ shifts i t → 0 < d ∧ d < size
  toNbr_eq : ∀ {x d}, x < size → toNbr x d = mype ((x + d) % size)
  fromNbr_eq : ∀ {x y d}, x < size → y < size → d < size → (y + d) % size = x →
    fromNbr x d = mype y

section Variants

/-- The loop `while (temp)` that counts the phases. -/
def countPhases (next : ℕ → ℕ) : ℕ → ℕ → ℕ
  | 0, _ => 0
  | fuel + 1, temp => if temp = 0 then 0 else countPhases next fuel (next temp) + 1

/-- The shifts of the loop over `j` of thread `myIdx`. -/
def loopShifts (shift : ℕ → ℕ) (size k groupSize myIdx : ℕ) : List ℕ :=
  ((List.range' (myIdx + 1) ((k - 1 - myIdx + groupSize - 1) / groupSize) groupSize).map
    shift).takeWhile (· < size)

def fromNbrIdx (size my shift : ℕ) : ℕ := if my < shift then size + my - shift else my - shift

theorem loopShifts_bounds {shift : ℕ → ℕ} (hpos : ∀ j, 0 < j → 0 < shift j)
    {size k groupSize myIdx d : ℕ} (h : d ∈ loopShifts shift size k groupSize myIdx) :
    0 < d ∧ d < size := by
  have hlt := List.mem_takeWhile_imp h
  obtain ⟨j, hj, rfl⟩ := List.mem_map.mp ((List.takeWhile_subset _) h)
  obtain ⟨i, -, rfl⟩ := List.mem_range'.mp hj
  exact ⟨hpos _ (by omega), of_decide_eq_true hlt⟩

theorem fromNbrIdx_eq {size x y d : ℕ} (hy : y < size) (hd : d < size)
    (h : (y + d) % size = x) : fromNbrIdx size x d = y := by
  unfold fromNbrIdx
  rcases Nat.lt_or_ge (y + d) size with hlt | hge
  · rw [Nat.mod_eq_of_lt hlt] at h
    rw [if_neg (by omega)]
    omega
  · rw [Nat.mod_eq_sub_mod hge, Nat.mod_eq_of_lt (by omega)] at h
    rw [if_pos (by omega)]
    omega

structure Params where
  barrierTgDissemKval : ℕ
  groupSize : ℕ
  /-- The GPUs of the team are P2P connected and the scope is a block. -/
  p2pBlock : Bool
  two_le_kval : 2 ≤ barrierTgDissemKval
  groupSize_pos : 0 < groupSize

variable (team : Team) (params : Params)

/-- `sync_dissem_pow2_threadgroup<k, logk>`. -/
def syncDissemPow2 (k logk : ℕ) : Schedule where
  size := team.size
  mype := team.peMapping
  groupSize := params.groupSize
  numPhases := countPhases (· >>> logk) (team.size - 1) (team.size - 1)
  shifts i t := loopShifts (· <<< i) team.size k params.groupSize t
  toNbr x d := team.translateWrap (x + d)
  fromNbr x d := team.translateWrap (fromNbrIdx team.size x d)
  size_pos := team.size_pos
  mype_inj := team.peMapping_inj
  shifts_bounds := loopShifts_bounds fun j hj => by
    rw [Nat.shiftLeft_eq]
    exact Nat.mul_pos hj (Nat.two_pow_pos _)
  toNbr_eq _ := rfl
  fromNbr_eq _ hy hd h := by
    rw [Team.translateWrap, fromNbrIdx_eq hy hd h, Nat.mod_eq_of_lt hy]

/-- The radix of `sync_dissem_threadgroup`. -/
def dissemK : ℕ := min params.barrierTgDissemKval team.size

theorem dissemK_pos : 0 < dissemK team params :=
  lt_min (by have := params.two_le_kval; omega) team.size_pos

structure Neighbours where
  toNbr : ℕ → ℕ → ℕ
  fromNbr : ℕ → ℕ → ℕ
  toNbr_eq : ∀ {x d}, x < team.size → toNbr x d = team.peMapping ((x + d) % team.size)
  fromNbr_eq : ∀ {x y d}, x < team.size → y < team.size → d < team.size →
    (y + d) % team.size = x → fromNbr x d = team.peMapping y

def syncDissemWith (nbrs : Neighbours team) : Schedule where
  size := team.size
  mype := team.peMapping
  groupSize := params.groupSize
  numPhases := countPhases (· / dissemK team params) (team.size - 1) (team.size - 1)
  shifts i t := loopShifts (· * dissemK team params ^ i) team.size (dissemK team params)
    params.groupSize t
  toNbr := nbrs.toNbr
  fromNbr := nbrs.fromNbr
  size_pos := team.size_pos
  mype_inj := team.peMapping_inj
  shifts_bounds := loopShifts_bounds fun _ hj =>
    Nat.mul_pos hj (Nat.pow_pos (dissemK_pos team params))
  toNbr_eq := nbrs.toNbr_eq
  fromNbr_eq := nbrs.fromNbr_eq

/-- `sync_dissem_threadgroup_non_strided`. -/
def syncDissemNonStrided : Schedule :=
  syncDissemWith team params
    { toNbr := fun x d => team.peMapping ((x + d) % team.size)
      fromNbr := fun x d => team.peMapping (fromNbrIdx team.size x d)
      toNbr_eq := fun _ => rfl
      fromNbr_eq := fun _ hy hd h => congrArg team.peMapping (fromNbrIdx_eq hy hd h) }

def myIdxInActiveSet (x : ℕ) : ℕ := (team.peMapping x - team.start) / team.stride.toNat

variable {team} in
theorem myIdxInActiveSet_eq (hstride : 0 < team.stride) {x : ℕ} (hx : x < team.size) :
    myIdxInActiveSet team x = x := by
  rw [myIdxInActiveSet, team.peMapping_strided hstride hx, Nat.add_sub_cancel_left,
    Nat.mul_div_cancel _ (Int.pos_iff_toNat_pos.mp hstride)]

/-- `sync_dissem_threadgroup_2`. -/
def syncDissem2 (hstride : 0 < team.stride) : Schedule :=
  syncDissemWith team params
    { toNbr := fun x d =>
        team.start + (myIdxInActiveSet team x + d) % team.size * team.stride.toNat
      fromNbr := fun x d =>
        team.start + fromNbrIdx team.size (myIdxInActiveSet team x) d * team.stride.toNat
      toNbr_eq := fun hx => by
        rw [myIdxInActiveSet_eq hstride hx,
          team.peMapping_strided hstride (Nat.mod_lt _ team.size_pos)]
      fromNbr_eq := fun hx hy hd h => by
        rw [myIdxInActiveSet_eq hstride hx, fromNbrIdx_eq hy hd h,
          team.peMapping_strided hstride hy] }

/-- `sync_dissem_threadgroup`. -/
def syncDissem : Schedule :=
  if h : 0 < team.stride then syncDissem2 team params h else syncDissemNonStrided team params

/-- The radix by which `nvshmemi_sync_algo_threadgroup` selects a variant. -/
def algoK : ℕ :=
  if params.p2pBlock then team.size else max (min params.barrierTgDissemKval team.size) 2

/-- `nvshmemi_sync_algo_threadgroup`. -/
def syncAlgo : Schedule :=
  match algoK team params with
  | 2 => syncDissemPow2 team params 2 1
  | 4 => syncDissemPow2 team params 4 2
  | 8 => syncDissemPow2 team params 8 3
  | 16 => syncDissemPow2 team params 16 4
  | 32 => syncDissemPow2 team params 32 5
  | _ => syncDissem team params

end Variants

inductive Op where
  | notify (shift : ℕ)
  | await (shift : ℕ)
deriving DecidableEq

def Schedule.program (sch : Schedule) (i t : ℕ) : List Op :=
  if i < sch.numPhases ∧ t < sch.groupSize then
    (sch.shifts i t).map .notify ++ (sch.shifts i t).map .await
  else []

/-- The value that is stored, and the phase of the sender, which is not stored. -/
structure Signal where
  counter : ℕ
  phase : ℕ

/-- PEs by their number in the team; signal arrays and slots by the number of the PE in the job. -/
structure State where
  counter : ℕ → ℕ
  /-- The phase of a PE that is in a sync. -/
  phase : ℕ → Option ℕ
  /-- What each thread of a PE still has to do in the phase. -/
  work : ℕ → ℕ → List Op
  pSync : ℕ → ℕ → ℕ → Signal
  /-- Signals to a slot that have not arrived. They arrive in order. -/
  inFlight : ℕ → ℕ → ℕ → List Signal

inductive Action where
  | enter (x : ℕ)
  | notify (x t shift : ℕ)
  | await (x t shift : ℕ)
  | threadgroupSync (x i : ℕ)
  | leave (x : ℕ)
  | deliver (x parity y : ℕ)

/-- A PE may call the sync when it likes; everything else is done at some time. -/
def Action.Due : Action → Prop
  | .enter _ => False
  | _ => True

instance : DecidablePred Action.Due := fun a => by
  cases a <;> unfold Action.Due <;> infer_instance

namespace State

def init : State where
  counter _ := 1
  phase _ := none
  work _ _ := []
  pSync _ _ _ := ⟨0, 0⟩
  inFlight _ _ _ := []

variable (sch : Schedule) (s : State)

def entered (x : ℕ) : ℕ := if s.phase x = none then s.counter x - 1 else s.counter x

def returned (x : ℕ) : ℕ := s.counter x - 1

def Enabled : Action → Prop
  | .enter x => x < sch.size ∧ s.phase x = none
  | .notify x t d => (s.work x t).head? = some (.notify d)
  | .await x t d => (s.work x t).head? = some (.await d) ∧
      s.counter x ≤ (s.pSync (sch.mype x) (s.counter x % 2) (sch.fromNbr x d)).counter
  | .threadgroupSync x i => s.phase x = some i ∧ i < sch.numPhases ∧
      ∀ t < sch.groupSize, s.work x t = []
  | .leave x => s.phase x = some sch.numPhases
  | .deliver x parity y => x < sch.size ∧ parity < 2 ∧ y < sch.size ∧
      s.inFlight (sch.mype x) parity (sch.mype y) ≠ []

def effect : Action → State
  | .enter x =>
    { s with
      phase := update s.phase x (some 0)
      work := update s.work x (sch.program 0) }
  | .notify x t d =>
    { s with
      work := set₂ s.work x t (s.work x t).tail
      inFlight := set₃ s.inFlight (sch.toNbr x d) (s.counter x % 2) (sch.mype x)
        (s.inFlight (sch.toNbr x d) (s.counter x % 2) (sch.mype x) ++
          [⟨s.counter x, (s.phase x).getD 0⟩]) }
  | .await x t _ => { s with work := set₂ s.work x t (s.work x t).tail }
  | .threadgroupSync x i =>
    { s with
      phase := update s.phase x (some (i + 1))
      work := update s.work x (sch.program (i + 1)) }
  | .leave x =>
    { s with
      counter := update s.counter x (s.counter x + 1)
      phase := update s.phase x none }
  | .deliver x parity y =>
    { s with
      pSync := set₃ s.pSync (sch.mype x) parity (sch.mype y)
        ((s.inFlight (sch.mype x) parity (sch.mype y)).headD
          (s.pSync (sch.mype x) parity (sch.mype y)))
      inFlight := set₃ s.inFlight (sch.mype x) parity (sch.mype y)
        (s.inFlight (sch.mype x) parity (sch.mype y)).tail }

instance (a : Action) : Decidable (s.Enabled sch a) := by
  cases a <;> unfold Enabled <;> infer_instance

def step (a : Action) : Option State := if s.Enabled sch a then some (s.effect sch a) else none

variable {sch s} {t : State} {a : Action}

theorem step_eq_some : s.step sch a = some t ↔ s.Enabled sch a ∧ s.effect sch a = t := by
  rw [step, Option.ite_none_right_eq_some, Option.some.injEq]

end State

end Nvshmem.TeamSync
