import Mathlib

/-! # The predefined teams of the nodes

A PE builds the team of the PEs on its node and the team of the PEs that have its rank on their
nodes. The first one is a start and a stride that fit the PEs with its host hash, the second one
supposes that the nodes have consecutive PEs.
-/

namespace Nvshmem.NodeTeams

open List List Finset Nat

structure Job where
  npes : ℕ
  hostHash : ℕ → ℕ

structure Team where
  myPe : ℕ
  start : ℤ
  stride : ℤ
  size : ℕ

/-- `nvshmemi_team_populate_pe_mappings_from_constant_stride` -/
def Team.pe (t : Team) (i : ℕ) : ℤ := t.start + i * t.stride

inductive Kind where
  | node | sameMypeNode

/-- `check_for_linear_stride` on start, stride and size. -/
def checkForLinearStride : ℤ × ℤ × ℕ → ℕ → Option (ℤ × ℤ × ℕ)
  | (start, stride, size), pe =>
    if start < 0 then some (pe, stride, size + 1)
    else if stride < 0 then some (start, pe - start, size + 1)
    else if (pe - start).tmod stride ≠ 0 then none
    else some (start, stride, size + 1)

namespace Job

variable (job : Job) (mype : ℕ)

def mypeNode : ℕ := ((Finset.range mype).filter (job.hostHash · = job.hostHash mype)).card

def npesNode : ℕ := ((Finset.range job.npes).filter (job.hostHash · = job.hostHash mype)).card

/-- The teams that `nvshmemi_team_init` builds on a PE. -/
def team : Kind → Team
  | .node =>
    match ((List.range job.npes).filter (job.hostHash · = job.hostHash mype)).foldlM
      checkForLinearStride (-1, -1, 0) with
    | some (start, stride, size) =>
      ⟨job.mypeNode mype, start, if stride = -1 then 1 else stride, size⟩
    | none => ⟨job.mypeNode mype, mype, 1, 1⟩
  | .sameMypeNode =>
    ⟨mype / job.npesNode mype, job.mypeNode mype, job.npesNode mype,
      job.npes / job.npesNode mype⟩

def Member (kind : Kind) (pe mype : ℕ) : Prop :=
  ∃ i < (job.team mype kind).size, (job.team mype kind).pe i = pe

structure Correct : Prop where
  own : ∀ kind, ∀ mype < job.npes, (job.team mype kind).myPe < (job.team mype kind).size ∧
    (job.team mype kind).pe (job.team mype kind).myPe = mype
  agree : ∀ kind, ∀ p < job.npes, ∀ q < job.npes, job.Member kind p q → job.Member kind q p →
    (job.team p kind).size = (job.team q kind).size ∧ (job.team p kind).pe = (job.team q kind).pe
  node : ∀ p < job.npes, ∀ q < job.npes, job.Member .node q p → job.hostHash q = job.hostHash p
  sameMypeNode : ∀ p < job.npes, ∀ q < job.npes, ∀ r < job.npes, job.Member .sameMypeNode q p →
    job.Member .sameMypeNode r p → job.hostHash q = job.hostHash r → q = r

def Uniform (k : ℕ) : Prop := ∀ mype < job.npes, job.npesNode mype = k

variable {job} {k p q : ℕ}

theorem Uniform.pos (h : job.Uniform k) (hp : p < job.npes) : 0 < k := by
  rw [← h p hp]
  exact card_pos.mpr ⟨p, by simp [hp]⟩

theorem hostHash_eq_iff (hk : 0 < k) (hrank : ∀ p < job.npes, job.mypeNode p = p % k)
    (hp : p < job.npes) (hq : q < p) :
    job.hostHash q = job.hostHash p ↔ q / k = p / k := by
  induction p using Nat.strong_induction_on generalizing q with
  | _ p ih =>
    have hsame : ∀ {a b}, a < p → b < p → a / k = b / k → job.hostHash a = job.hostHash b := by
      intro a b ha hb hab
      rcases Nat.lt_trichotomy a b with hlt | rfl | hlt
      · exact (ih b hb (hb.trans hp) hlt).mpr hab
      · rfl
      · exact ((ih a ha (ha.trans hp) hlt).mpr hab.symm).symm
    have hblock : ∀ q < p, job.hostHash q = job.hostHash p → q / k = p / k := by
      intro q hq heq
      by_contra hne
      have hlt : q / k < p / k := lt_of_le_of_ne (Nat.div_le_div_right hq.le) hne
      have hle : k * (q / k + 1) ≤ k * (p / k) := Nat.mul_le_mul_left k hlt
      have hp' := Nat.mul_div_le p k
      rw [Nat.mul_succ] at hle
      -- the whole block of `q` is on the node, and it is longer than the rank
      have hsub : Finset.Ico (k * (q / k)) (k * (q / k) + k) ⊆
          (Finset.range p).filter (job.hostHash · = job.hostHash p) := by
        intro x hx
        rw [Finset.mem_Ico] at hx
        have hx' : x / k = q / k := Nat.div_eq_of_lt_le (by rw [mul_comm]; exact hx.1)
          (by rw [mul_comm]; exact hx.2)
        exact Finset.mem_filter.mpr ⟨Finset.mem_range.mpr (by omega),
          (hsame (by omega) hq hx').trans heq⟩
      have hcard := Finset.card_le_card hsub
      rw [Nat.card_Ico, ← mypeNode, hrank p hp] at hcard
      have := Nat.mod_lt p hk
      omega
    refine ⟨hblock q hq, fun heq => ?_⟩
    have hdiv := Nat.div_add_mod p k
    have hset : (Finset.range p).filter (job.hostHash · = job.hostHash p) =
        Finset.Ico (k * (p / k)) p := by
      refine Finset.eq_of_subset_of_card_le (fun x hx => ?_) ?_
      · obtain ⟨hx, hx'⟩ := Finset.mem_filter.mp hx
        rw [Finset.mem_range] at hx
        rw [Finset.mem_Ico, ← hblock x hx hx']
        exact ⟨Nat.mul_div_le x k, hx⟩
      · rw [Nat.card_Ico, ← mypeNode, hrank p hp]
        omega
    have hmem : q ∈ Finset.Ico (k * (p / k)) p :=
      Finset.mem_Ico.mpr ⟨heq ▸ Nat.mul_div_le q k, hq⟩
    rw [← hset] at hmem
    exact (Finset.mem_filter.mp hmem).2

theorem foldlM_range' {a n : ℕ} (hn : 0 < n) :
    (range' a n).foldlM checkForLinearStride (-1, -1, 0) =
      some ((a : ℤ), if n = 1 then -1 else 1, n) := by
  have hrest : ∀ (l : List ℕ) (n : ℕ), l.foldlM checkForLinearStride ((a : ℤ), 1, n) =
      some ((a : ℤ), 1, n + l.length) := by
    intro l
    induction l with
    | nil => exact fun n => rfl
    | cons x l ih =>
      intro n
      have hstep : checkForLinearStride ((a : ℤ), 1, n) x = some ((a : ℤ), 1, n + 1) := by
        simp [checkForLinearStride]
      rw [foldlM_cons, hstep, length_cons,
        show n + (l.length + 1) = n + 1 + l.length by omega]
      exact ih (n + 1)
  obtain ⟨n, rfl⟩ := Nat.exists_eq_add_of_le' hn
  cases n with
  | zero => rfl
  | succ n =>
    have hsecond : checkForLinearStride ((a : ℤ), -1, 1) (a + 1) = some ((a : ℤ), 1, 2) := by
      simp [checkForLinearStride]
    change ((checkForLinearStride ((a : ℤ), -1, 1) (a + 1)).bind fun r =>
      (range' (a + 2) n).foldlM checkForLinearStride r) = _
    rw [hsecond, Option.bind_some, hrest, length_range', Nat.add_comm 2, if_neg (by omega)]

section Blocks

variable (h : job.Uniform k) (hrank : ∀ p < job.npes, job.mypeNode p = p % k)
include h hrank

section Ranks

variable (hp : p < job.npes)
include hp

theorem hostHash_eq_iff_div (hq : q < job.npes) :
    job.hostHash q = job.hostHash p ↔ q / k = p / k := by
  have hk := h.pos hp
  rcases Nat.lt_trichotomy q p with hlt | rfl | hlt
  · exact hostHash_eq_iff hk hrank hp hlt
  · exact iff_of_true rfl rfl
  · rw [eq_comm, hostHash_eq_iff hk hrank hq hlt, eq_comm]

theorem block_le : k * (p / k) + k ≤ job.npes := by
  by_contra hlt
  have hsub : (Finset.range job.npes).filter (job.hostHash · = job.hostHash p) ⊆
      Finset.Ico (k * (p / k)) job.npes := by
    intro x hx
    obtain ⟨hx, hx'⟩ := Finset.mem_filter.mp hx
    rw [Finset.mem_range] at hx
    rw [Finset.mem_Ico, ← (hostHash_eq_iff_div h hrank hp hx).mp hx']
    exact ⟨Nat.mul_div_le x k, hx⟩
  have hcard := Finset.card_le_card hsub
  rw [← npesNode, h p hp, Nat.card_Ico] at hcard
  have := h.pos hp
  omega

theorem filter_range_eq :
    (List.range job.npes).filter (job.hostHash · = job.hostHash p) =
      List.range' (k * (p / k)) k := by
  have hle := block_le h hrank hp
  have hmem : ∀ x < job.npes, decide (job.hostHash x = job.hostHash p) = true ↔
      k * (p / k) ≤ x ∧ x < k * (p / k) + k := by
    intro x hx
    rw [decide_eq_true_iff, hostHash_eq_iff_div h hrank hp hx, Nat.div_eq_iff (h.pos hp),
      mul_comm (p / k)]
    have := h.pos hp
    omega
  obtain ⟨m, hm⟩ := Nat.exists_eq_add_of_le hle
  rw [range_eq_range', hm, add_assoc, ← range'_append_1, ← range'_append_1,
    filter_append, filter_append, zero_add, filter_eq_nil_iff.mpr,
    filter_eq_self.mpr, filter_eq_nil_iff.mpr, nil_append, append_nil]
  all_goals
    intro x hx
    rw [mem_range'_1] at hx
    rw [hmem x (by omega)]
    omega

theorem team_node : job.team p .node = ⟨p % k, ↑(k * (p / k)), 1, k⟩ := by
  rw [team, filter_range_eq h hrank hp, foldlM_range' (h.pos hp), hrank p hp]
  split_ifs <;> rfl

theorem team_sameMypeNode : job.team p .sameMypeNode = ⟨p / k, ↑(p % k), k, job.npes / k⟩ := by
  rw [team, hrank p hp, h p hp]

theorem member_node : job.Member .node q p ↔ q / k = p / k := by
  rw [Member, team_node h hrank hp, Nat.div_eq_iff (h.pos hp), mul_comm (p / k)]
  have := h.pos hp
  simp only [Team.pe, mul_one]
  constructor
  · rintro ⟨i, hi, heq⟩
    omega
  · intro hq
    exact ⟨q - k * (p / k), by omega, by omega⟩

theorem mod_of_member (hq : job.Member .sameMypeNode q p) : q % k = p % k := by
  obtain ⟨i, -, heq⟩ := hq
  rw [team_sameMypeNode h hrank hp, Team.pe] at heq
  dsimp only at heq
  have hcast : q = p % k + i * k := by exact_mod_cast heq.symm
  rw [hcast, add_mul_mod_self_right, mod_mod]

end Ranks

theorem correct_of_rank : job.Correct where
  own kind mype hp := by
    have hmod := div_add_mod mype k
    have hlt := mod_lt mype (h.pos hp)
    cases kind with
    | node =>
      rw [team_node h hrank hp]
      refine ⟨hlt, ?_⟩
      simp only [Team.pe]
      omega
    | sameMypeNode =>
      rw [team_sameMypeNode h hrank hp]
      refine ⟨?_, ?_⟩
      · have hle := block_le h hrank hp
        rw [← mul_succ, mul_comm] at hle
        exact (Nat.le_div_iff_mul_le (h.pos hp)).mpr hle
      · simp only [Team.pe]
        exact_mod_cast (mod_add_div' mype k)
  agree kind p hp q hq hpq _ := by
    cases kind with
    | node =>
      have heq := (member_node h hrank hq).mp hpq
      rw [team_node h hrank hp, team_node h hrank hq, heq]
      exact ⟨rfl, rfl⟩
    | sameMypeNode =>
      rw [team_sameMypeNode h hrank hp, team_sameMypeNode h hrank hq,
        mod_of_member h hrank hq hpq]
      exact ⟨rfl, rfl⟩
  node p hp q hq hmem := (hostHash_eq_iff_div h hrank hp hq).mpr ((member_node h hrank hp).mp hmem)
  sameMypeNode p hp q hq r hr hq' hr' heq := by
    have hdiv := (hostHash_eq_iff_div h hrank hr hq).mp heq
    have hmod := (mod_of_member h hrank hp hq').trans (mod_of_member h hrank hp hr').symm
    rw [← div_add_mod q k, hdiv, hmod, div_add_mod]

end Blocks

/-- Where the nodes have the same number of PEs, their teams are as they should be if and only if
the rank of each PE on its node is its remainder, that is, the nodes are blocks of consecutive
PEs. -/
theorem correct_iff (job : Job) (k : ℕ) (h : job.Uniform k) :
    job.Correct ↔ ∀ mype < job.npes, job.mypeNode mype = mype % k := by
  refine ⟨fun hc mype hp => ?_, fun hrank => correct_of_rank h hrank⟩
  have hown := (hc.own .sameMypeNode mype hp).2
  rw [team, Team.pe, h mype hp] at hown
  dsimp only at hown
  have := mod_add_div' mype k
  omega

def inBlocks : Job := ⟨4, fun pe => pe / 2⟩

theorem correct_inBlocks : inBlocks.Correct := by
  have h : inBlocks.Uniform 2 := by
    unfold Uniform
    decide
  exact (correct_iff inBlocks 2 h).mpr (by decide)

def inTurns : Job := ⟨4, fun pe => pe % 2⟩

theorem not_correct_inTurns : inTurns.Uniform 2 ∧ ¬ inTurns.Correct := by
  refine ⟨by unfold Uniform; decide, fun h => ?_⟩
  exact absurd (h.own .sameMypeNode 1 (by decide)).2 (by decide)

end Job

end Nvshmem.NodeTeams
