import Nvshmem.Lists.Update
import Nvshmem.Team.SyncProgress

/-! # Team syncs with a radix

With a general radix the shifts of a phase are multiples of its power, all different from
those of other phases, and one hears of everyone digit by digit. The variant for powers of
two only doubles its shifts from phase to phase, but has as many phases as there are
digits: it is correct for the teams that are small enough for that.
-/

namespace Nvshmem.TeamSync

open Dissemination Transition List Nat

variable {sch : Schedule} {team : Team} {params : Params} {i j k t d temp fuel logk : ℕ}

/-- Nobody returns from a sync before all have entered it, and a sync that all have entered
ends. -/
def Schedule.Correct (sch : Schedule) : Prop :=
  ∀ s, Reachable (State.step sch) State.init s → s.Barrier sch ∧
    ∀ m, (∀ x < sch.size, m ≤ s.entered x) →
      Inevitable Action.Due (State.step sch) (State.Returned sch m) s

theorem Schedule.correct_of_heard (hcov : ∀ e < sch.size, Heard sch.Occurs sch.numPhases e) :
    sch.Correct := by
  intro s hs
  have hi := State.safe_of_reachable hcov hs
  exact ⟨hi.barrier, fun m hall => hi.inevitable hcov hall⟩

theorem Schedule.not_correct_of_deaf (hsize : 1 < sch.size)
    (hdeaf : ∀ e, Heard sch.Occurs sch.numPhases e → e < sch.size - 1) : ¬ sch.Correct := by
  intro h
  obtain ⟨s, hs, hent, hret⟩ := State.exists_returned hsize hdeaf
  have := (h s hs).1 (sch.size - 1) (by omega) 0 (by omega)
  omega

/-- The threads share the shifts for `j` from 1 to `k - 1` that are less than the team size. -/
theorem exists_mem_loopShifts {shift : ℕ → ℕ} (hmono : Monotone shift) {size groupSize : ℕ}
    (hg : 0 < groupSize) : (∃ t < groupSize, d ∈ loopShifts shift size k groupSize t) ↔
      ∃ j, 0 < j ∧ j < k ∧ d = shift j ∧ d < size := by
  have hmem : ∀ {t}, d ∈ loopShifts shift size k groupSize t ↔
      (∃ i < (k - 1 - t + groupSize - 1) / groupSize, shift (t + 1 + groupSize * i) = d) ∧
        d < size := by
    intro t
    have hsorted : ((range' (t + 1) ((k - 1 - t + groupSize - 1) / groupSize)
        groupSize).map shift).Pairwise (· ≤ ·) :=
      (pairwise_le_range' groupSize).map shift fun _ _ h => hmono h
    rw [loopShifts, Lists.mem_takeWhile_lt hsorted, mem_map]
    simp only [mem_range']
    constructor
    · rintro ⟨⟨j, ⟨i, hi, rfl⟩, rfl⟩, hlt⟩
      exact ⟨⟨i, hi, rfl⟩, hlt⟩
    · rintro ⟨⟨i, hi, rfl⟩, hlt⟩
      exact ⟨⟨_, ⟨i, hi, rfl⟩, rfl⟩, hlt⟩
  constructor
  · rintro ⟨t, ht, h⟩
    obtain ⟨⟨i, hi, rfl⟩, hlt⟩ := hmem.mp h
    refine ⟨_, by omega, ?_, rfl, hlt⟩
    have hle := (Nat.le_div_iff_mul_le hg).mp hi
    rw [succ_mul, mul_comm] at hle
    omega
  · rintro ⟨j, h0, hjk, rfl, hlt⟩
    have hsplit := div_add_mod (j - 1) groupSize
    have hmod := mod_lt (j - 1) hg
    refine ⟨(j - 1) % groupSize, hmod, hmem.mpr ⟨⟨(j - 1) / groupSize, ?_, ?_⟩, hlt⟩⟩
    · refine (Nat.le_div_iff_mul_le hg).mpr ?_
      rw [succ_mul, mul_comm]
      omega
    · congr 1
      omega

theorem countPhases_eq (hk : 1 < k) (hfuel : temp ≤ fuel) :
    countPhases (· / k) fuel temp = (Nat.digits k temp).length := by
  induction fuel generalizing temp with
  | zero =>
    rw [le_zero.mp hfuel, digits_zero]
    rfl
  | succ fuel ih =>
    rw [countPhases]
    split
    next h =>
      rw [h, digits_zero]
      rfl
    next h =>
      have hpos := Nat.pos_of_ne_zero h
      have hdiv : temp / k < temp := Nat.div_lt_self hpos hk
      rw [digits_def' hk hpos, length_cons, ih (by omega)]

theorem occurs_syncDissemPow2 (h : i < (syncDissemPow2 team params k logk).numPhases) :
    (syncDissemPow2 team params k logk).Occurs i d ↔ Multiples 2 k team.size i d := by
  have hmono : Monotone fun j => j <<< i := fun a b hab => by
    simp only [shiftLeft_eq]
    exact Nat.mul_le_mul_right _ hab
  have hmem : (∃ t < params.groupSize, d ∈ loopShifts (· <<< i) team.size k params.groupSize t) ↔
      Multiples 2 k team.size i d := by
    rw [exists_mem_loopShifts hmono params.groupSize_pos]
    simp only [shiftLeft_eq, Multiples]
  exact ⟨fun hocc => hmem.mp hocc.2, fun hm => ⟨h, hmem.mpr hm⟩⟩

theorem heard_syncDissemPow2 {e : ℕ} (h : i ≤ (syncDissemPow2 team params k logk).numPhases) :
    Heard (syncDissemPow2 team params k logk).Occurs i e ↔ Heard (Multiples 2 k team.size) i e := by
  constructor
  · exact fun hh => hh.congr fun j hj s => occurs_syncDissemPow2 (hj.trans_le h)
  · exact fun hh => hh.congr fun j hj s => (occurs_syncDissemPow2 (hj.trans_le h)).symm

theorem numPhases_syncDissemPow2 (hlogk : 0 < logk) :
    (syncDissemPow2 team params (2 ^ logk) logk).numPhases =
      (Nat.digits (2 ^ logk) (team.size - 1)).length := by
  rw [← countPhases_eq (Nat.one_lt_two_pow hlogk.ne') le_rfl]
  simp only [syncDissemPow2, shiftRight_eq_div_pow]

theorem syncDissemPow2_correct_iff (hlogk : 0 < logk) :
    (syncDissemPow2 team params (2 ^ logk) logk).Correct ↔ team.size - 1 ≤
      (2 ^ logk - 1) * (2 ^ (Nat.digits (2 ^ logk) (team.size - 1)).length - 1) := by
  have hphases : (syncDissemPow2 team params (2 ^ logk) logk).numPhases = _ :=
    numPhases_syncDissemPow2 hlogk
  rw [← hphases]
  have hk : 2 ≤ 2 ^ logk := Nat.one_lt_two_pow hlogk.ne'
  constructor
  · intro h
    by_contra hlt
    have hsize : 1 < team.size := by omega
    refine Schedule.not_correct_of_deaf hsize (fun e he => ?_) h
    have := ((heard_syncDissemPow2 le_rfl).mp he).le_of_doubling
    change e < team.size - 1
    omega
  · intro h
    refine Schedule.correct_of_heard fun e he => (heard_syncDissemPow2 le_rfl).mpr ?_
    have he : e < team.size := he
    exact heard_of_le_doubling hk (dvd_pow_self 2 hlogk.ne') he (by omega)

/-- A sync with a radix that is a power of two is correct exactly if doubling distances reach
everyone. -/
theorem syncAlgo_correct_iff (team : Team) (params : Params)
    (h : algoK team params ∈ [2, 4, 8, 16, 32]) :
    (syncAlgo team params).Correct ↔ team.size - 1 ≤ (algoK team params - 1) *
      (2 ^ (Nat.digits (algoK team params) (team.size - 1)).length - 1) := by
  simp only [mem_cons, not_mem_nil, or_false] at h
  unfold syncAlgo
  rcases h with h | h | h | h | h <;> rw [h]
  · exact @syncDissemPow2_correct_iff team params 1 (by decide)
  · exact @syncDissemPow2_correct_iff team params 2 (by decide)
  · exact @syncDissemPow2_correct_iff team params 3 (by decide)
  · exact @syncDissemPow2_correct_iff team params 4 (by decide)
  · exact @syncDissemPow2_correct_iff team params 5 (by decide)

def worldTeam (size : ℕ) (size_pos : 0 < size) : Team where
  size := size
  start := 0
  stride := 1
  peMapping x := x
  size_pos := size_pos
  peMapping_inj _ _ h := h
  peMapping_strided _ x _ := by simp

theorem warp_pos : 0 < 32 := by decide

def radixFour : Params where
  barrierTgDissemKval := 4
  groupSize := 32
  p2pBlock := false
  two_le_kval := by decide
  groupSize_pos := warp_pos

/-- Ten PEs can sync with radix 4. -/
theorem syncAlgo_correct_iff_tenPes :
    algoK (worldTeam 10 (by decide)) radixFour ∈ [2, 4, 8, 16, 32] ∧
      (syncAlgo (worldTeam 10 (by decide)) radixFour).Correct := by
  have h : algoK (worldTeam 10 (by decide)) radixFour = 4 := by decide
  refine ⟨by rw [h]; decide, (syncAlgo_correct_iff _ _ (by rw [h]; decide)).mpr ?_⟩
  rw [h]
  simp [worldTeam]

/-- Of eleven, PE 10 may return from its first sync before PE 0 has entered its own. -/
theorem returned_elevenPes : ∃ s,
    Reachable (State.step (syncAlgo (worldTeam 11 (by decide)) radixFour)) State.init s ∧
      s.entered 0 = 0 ∧ 1 ≤ s.returned 10 := by
  refine @State.exists_returned (syncAlgo (worldTeam 11 (by decide)) radixFour)
    (by decide) fun e he => ?_
  have hle := ((@heard_syncDissemPow2 (worldTeam 11 (by decide)) radixFour _ 4 2 e le_rfl).mp
    he).le_of_doubling
  have hphases : (syncDissemPow2 (worldTeam 11 (by decide)) radixFour 4 2).numPhases = 2 := by
    decide
  rw [hphases] at hle
  change e < 10
  omega

section General

def State.Matched (sch : Schedule) (s : State) : Prop :=
  ∀ x t d, s.Enabled sch (.await x t d) →
    (s.pSync (sch.mype x) (s.counter x % 2) (sch.fromNbr x d)).counter = s.counter x ∧
    s.phase x = some (s.pSync (sch.mype x) (s.counter x % 2) (sch.fromNbr x d)).phase

variable {nbrs : Neighbours team}

theorem occurs_syncDissemWith (h : i < (syncDissemWith team params nbrs).numPhases) :
    (syncDissemWith team params nbrs).Occurs i d ↔
      Multiples (dissemK team params) (dissemK team params) team.size i d := by
  have hmono : Monotone fun j => j * dissemK team params ^ i := fun a b hab =>
    Nat.mul_le_mul_right _ hab
  have hmem := @exists_mem_loopShifts (dissemK team params) d _ hmono team.size _
    params.groupSize_pos
  exact ⟨fun hocc => hmem.mp hocc.2, fun hm => ⟨h, hmem.mpr hm⟩⟩

theorem heard_syncDissemWith {e : ℕ} (he : e < team.size) :
    Heard (syncDissemWith team params nbrs).Occurs (syncDissemWith team params nbrs).numPhases
      e := by
  refine Heard.congr ?_ fun j hj s => (occurs_syncDissemWith hj).symm
  by_cases hsize : team.size = 1
  · obtain rfl : e = 0 := by omega
    exact .self
  · have hk : 1 < dissemK team params := lt_min params.two_le_kval (by have := team.size_pos; omega)
    refine heard_of_lt_pow he ?_
    change e < dissemK team params ^ countPhases _ _ _
    rw [countPhases_eq hk le_rfl]
    refine lt_of_le_of_lt ?_ (lt_base_pow_length_digits hk)
    omega

theorem syncDissemWith_correct : (syncDissemWith team params nbrs).Correct ∧
    ∀ s, Reachable (State.step (syncDissemWith team params nbrs)) State.init s →
      s.Matched (syncDissemWith team params nbrs) := by
  refine ⟨Schedule.correct_of_heard fun e he => heard_syncDissemWith he, fun s hs x t d he => ?_⟩
  have hi := State.safe_of_reachable (fun e he => heard_syncDissemWith he) hs
  obtain ⟨i, hp, hocc, hcounter, hocc'⟩ := hi.signal_of_await he
  refine ⟨hcounter, hp.trans (congrArg some ?_)⟩
  exact ((occurs_syncDissemWith hocc.1).mp hocc).unique ((occurs_syncDissemWith hocc'.1).mp hocc')

end General

end Nvshmem.TeamSync
