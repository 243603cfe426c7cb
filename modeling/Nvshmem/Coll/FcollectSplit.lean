import Nvshmem.Intervals.Split

/-! # Work split of the low-latency fcollect

The warps of a thread group form warp groups. The groups share out the PEs, and the warps
of a group the elements of each PE, in chunks. When the number of warp groups does not
divide the number of warps, the warps that are left over form further groups, whose PEs
lie outside the team.
-/

namespace Nvshmem.Fcollect

open List Nat

inductive LlVersion where
  | ll8 | ll128
deriving DecidableEq

namespace LlVersion

def dataBytesPerWarp : LlVersion → ℕ
  | .ll8 => 256
  | .ll128 => 480

def psyncBytesPerWarp : LlVersion → ℕ
  | .ll8 => 512
  | .ll128 => 512

def maxUnroll : ℕ := 4

end LlVersion

/-- What the split of a call depends on. `nodeSize` is the size of the team of the PEs that are
packed for directly, if there is one. -/
structure Call where
  llVersion : LlVersion
  sizeofT : ℕ
  nelems : ℕ
  nthreads : ℕ
  teamSize : ℕ
  myPe : ℕ
  nodeSize : Option ℕ
  sizeofT_mem : sizeofT ∈ [2, 4, 8]
  myPe_lt : myPe < teamSize
  nodeSize_pos : ∀ n ∈ nodeSize, 0 < n

/-- Elements of a chunk and where their packets are, relative to the block of the PE. -/
structure Chunk where
  dataElementOffset : ℕ
  psyncElementOffset : ℕ
  count : ℕ
deriving DecidableEq

structure Piece where
  pe : ℕ
  chunk : Chunk
deriving DecidableEq

namespace Call

variable (c : Call)

def warpCount : ℕ := c.nthreads / 32

def maxDataElemsPerWarp : ℕ := c.llVersion.dataBytesPerWarp * LlVersion.maxUnroll / c.sizeofT

def maxPsyncElemsPerWarp : ℕ := c.llVersion.psyncBytesPerWarp * LlVersion.maxUnroll / c.sizeofT

def Small : Prop := c.llVersion = .ll8 ∧ c.nelems < c.maxDataElemsPerWarp

instance : Decidable c.Small := inferInstanceAs (Decidable (_ ∧ _))

def numWarpGroups : ℕ := max 1 (c.warpCount / max 1 (c.nelems / c.maxDataElemsPerWarp))

def numWarpsPerGroup : ℕ := c.warpCount / c.numWarpGroups

def warpGroupId (warp : ℕ) : ℕ := warp / c.numWarpsPerGroup

def numPesPerGroup (size warp : ℕ) : ℕ :=
  size / c.numWarpGroups + if c.warpGroupId warp < size % c.numWarpGroups then 1 else 0

def startPe (size warp : ℕ) : ℕ :=
  c.numPesPerGroup size warp * c.warpGroupId warp +
    if size % c.numWarpGroups ≤ c.warpGroupId warp then size % c.numWarpGroups else 0

def chunkLoop : ℕ → ℕ → ℕ → List Chunk
  | 0, _, _ => []
  | fuel + 1, dataOffset, psyncOffset =>
    if dataOffset + c.maxDataElemsPerWarp < c.nelems then
      ⟨dataOffset, psyncOffset, c.maxDataElemsPerWarp⟩ ::
        chunkLoop fuel (dataOffset + c.numWarpsPerGroup * c.maxDataElemsPerWarp)
          (psyncOffset + c.numWarpsPerGroup * c.maxPsyncElemsPerWarp)
    else if dataOffset < c.nelems then [⟨dataOffset, psyncOffset, c.nelems - dataOffset⟩] else []

def chunks (warp : ℕ) : List Chunk :=
  c.chunkLoop c.nelems (warp % c.numWarpsPerGroup * c.maxDataElemsPerWarp)
    (warp % c.numWarpsPerGroup * c.maxPsyncElemsPerWarp)

/-- A loop from `first` to `stop` with the number of warps as its stride. -/
def warpLoop (first stop : ℕ) : List ℕ :=
  List.range' first ((stop - first + c.warpCount - 1) / c.warpCount) c.warpCount

/-- What a warp packs for the PEs of the node team, by their index after wrapping. -/
def packs (size warp : ℕ) : List Piece :=
  if c.Small then
    (c.warpLoop (warp + c.myPe) (size + c.myPe)).map fun ii => ⟨ii % size, 0, 0, c.nelems⟩
  else
    (c.chunks warp).flatMap fun chunk =>
      (List.range (c.numPesPerGroup size warp)).map fun pe =>
        ⟨(c.startPe size warp + pe) % size, chunk⟩

def recvs (warp : ℕ) : List Piece :=
  if c.Small then (c.warpLoop warp c.teamSize).map fun ii => ⟨ii, 0, 0, c.nelems⟩
  else
    (c.chunks warp).flatMap fun chunk =>
      (List.range' (c.startPe c.teamSize warp) (c.numPesPerGroup c.teamSize warp)).map fun pe =>
        ⟨pe, chunk⟩

end Call

def Piece.Covers (p : Piece) (pe e : ℕ) : Prop :=
  p.pe = pe ∧ p.chunk.dataElementOffset ≤ e ∧ e < p.chunk.dataElementOffset + p.chunk.count

namespace Call

variable {c : Call} {size warp pe e q : ℕ} {chunk : Chunk} {p : Piece}

def Covered (c : Call) : Prop :=
  ∀ pe < c.teamSize, ∀ e < c.nelems, ∃! wp : ℕ × Piece,
    wp.1 < c.warpCount ∧ wp.2 ∈ c.recvs wp.1 ∧ wp.2.Covers pe e

def InRange (c : Call) : Prop :=
  ∀ warp < c.warpCount, (∀ p ∈ c.recvs warp, p.pe < c.teamSize) ∧
    ∀ size ∈ c.nodeSize, ∀ p ∈ c.packs size warp, p.pe < size

theorem maxDataElemsPerWarp_pos : 0 < c.maxDataElemsPerWarp := by
  have h := c.sizeofT_mem
  simp only [mem_cons, not_mem_nil, or_false] at h
  unfold maxDataElemsPerWarp LlVersion.dataBytesPerWarp LlVersion.maxUnroll
  rcases h with h | h | h <;> rw [h] <;> cases c.llVersion <;> decide

theorem numWarpGroups_pos : 0 < c.numWarpGroups := lt_max_of_lt_left Nat.one_pos

theorem numWarpsPerGroup_pos (h : 0 < c.warpCount) : 0 < c.numWarpsPerGroup := by
  refine Nat.div_pos (max_le h ?_) numWarpGroups_pos
  exact Nat.div_le_self _ _

theorem startPe_eq :
    c.startPe size warp = Split.blockStart size c.numWarpGroups (c.warpGroupId warp) := rfl

theorem numPesPerGroup_eq :
    c.numPesPerGroup size warp = Split.blockSize size c.numWarpGroups (c.warpGroupId warp) := rfl

/-- Chunk `q` of the elements of a PE. -/
def chunkAt (c : Call) (q : ℕ) : Chunk :=
  ⟨q * c.maxDataElemsPerWarp, q * c.maxPsyncElemsPerWarp,
    min c.maxDataElemsPerWarp (c.nelems - q * c.maxDataElemsPerWarp)⟩

theorem mem_chunkLoop {fuel : ℕ} (hw : 0 < c.numWarpsPerGroup) (hfuel : c.nelems ≤ fuel + q) :
    chunk ∈ c.chunkLoop fuel (q * c.maxDataElemsPerWarp) (q * c.maxPsyncElemsPerWarp) ↔
      ∃ j, (q + j * c.numWarpsPerGroup) * c.maxDataElemsPerWarp < c.nelems ∧
        chunk = c.chunkAt (q + j * c.numWarpsPerGroup) := by
  have hpos := @maxDataElemsPerWarp_pos c
  induction fuel generalizing q with
  | zero =>
    simp only [chunkLoop, not_mem_nil, false_iff]
    rintro ⟨j, hj, -⟩
    have hle : q ≤ (q + j * c.numWarpsPerGroup) * c.maxDataElemsPerWarp :=
      (Nat.le_add_right _ _).trans (Nat.le_mul_of_pos_right _ hpos)
    omega
  | succ fuel ih =>
    have hnext := ih (q := q + c.numWarpsPerGroup) (by omega)
    rw [add_mul q, add_mul q] at hnext
    rw [chunkLoop]
    split
    next hfull =>
      have hat : c.chunkAt q = ⟨q * c.maxDataElemsPerWarp, q * c.maxPsyncElemsPerWarp,
          c.maxDataElemsPerWarp⟩ := by
        rw [chunkAt, min_eq_left (by omega)]
      rw [mem_cons, ← hat]
      refine (or_congr_right hnext).trans ?_
      constructor
      · rintro (rfl | ⟨j, hj, rfl⟩)
        · exact ⟨0, by rw [zero_mul, add_zero]; omega, by rw [zero_mul, add_zero]⟩
        · refine ⟨j + 1, ?_, ?_⟩ <;> rw [add_mul j, one_mul, add_comm (j * _), ← add_assoc]
          exact hj
      · rintro ⟨_ | j, hj, rfl⟩
        · exact .inl (by rw [zero_mul, add_zero])
        · rw [add_mul j, one_mul, add_comm (j * _), ← add_assoc] at hj ⊢
          exact .inr ⟨j, hj, rfl⟩
    next hlast =>
      -- all further chunks start after the last element
      have hnone : ∀ j, (q + (j + 1) * c.numWarpsPerGroup) * c.maxDataElemsPerWarp ≥ c.nelems := by
        intro j
        have hle : q + 1 ≤ q + (j + 1) * c.numWarpsPerGroup :=
          Nat.add_le_add_left (Nat.mul_pos j.succ_pos hw) q
        have := Nat.mul_le_mul_right c.maxDataElemsPerWarp hle
        rw [add_mul q] at this
        omega
      have hiff : (∃ j, (q + j * c.numWarpsPerGroup) * c.maxDataElemsPerWarp < c.nelems ∧
          chunk = c.chunkAt (q + j * c.numWarpsPerGroup)) ↔
          q * c.maxDataElemsPerWarp < c.nelems ∧ chunk = c.chunkAt q := by
        constructor
        · rintro ⟨_ | j, hj, rfl⟩
          · rw [zero_mul] at hj ⊢
            exact ⟨hj, rfl⟩
          · exact absurd hj (not_lt.mpr (hnone j))
        · rintro ⟨h, rfl⟩
          exact ⟨0, by rwa [zero_mul, add_zero], by rw [zero_mul, add_zero]⟩
      rw [hiff]
      split
      next h =>
        rw [mem_singleton, chunkAt, min_eq_right (by omega)]
        exact ⟨fun heq => ⟨h, heq⟩, And.right⟩
      next h => simp [h]

theorem mem_chunks (hw : 0 < c.warpCount) : chunk ∈ c.chunks warp ↔
    ∃ q, q % c.numWarpsPerGroup = warp % c.numWarpsPerGroup ∧
      q * c.maxDataElemsPerWarp < c.nelems ∧ chunk = c.chunkAt q := by
  have hpos := numWarpsPerGroup_pos hw
  rw [chunks, mem_chunkLoop hpos (Nat.le_add_right _ _)]
  constructor
  · rintro ⟨j, hj, rfl⟩
    exact ⟨_, by rw [add_mul_mod_self_right, mod_mod], hj, rfl⟩
  · rintro ⟨q, hq, hlt, rfl⟩
    refine ⟨q / c.numWarpsPerGroup, ?_⟩
    rw [← hq, mul_comm (q / _), mod_add_div]
    exact ⟨hlt, rfl⟩

theorem covers_chunkAt (he : e < c.nelems) :
    Piece.Covers ⟨pe, c.chunkAt q⟩ pe e ↔ q = e / c.maxDataElemsPerWarp := by
  have hpos := @maxDataElemsPerWarp_pos c
  constructor
  · rintro ⟨-, hle, hlt⟩
    change e < q * c.maxDataElemsPerWarp + min _ _ at hlt
    refine (Nat.div_eq_of_lt_le hle ?_).symm
    rw [succ_mul]
    omega
  · rintro rfl
    have hle := div_mul_le_self e c.maxDataElemsPerWarp
    have hlt := lt_div_mul_add hpos (a := e)
    refine ⟨rfl, hle, ?_⟩
    change e < e / c.maxDataElemsPerWarp * c.maxDataElemsPerWarp + min _ _
    omega

theorem mem_warpLoop {first stop x : ℕ} (hw : 0 < c.warpCount) : x ∈ c.warpLoop first stop ↔
    ∃ i, x = first + c.warpCount * i ∧ x < stop := by
  rw [warpLoop, mem_range']
  constructor
  · rintro ⟨i, hi, rfl⟩
    refine ⟨i, rfl, ?_⟩
    have hle := (Nat.le_div_iff_mul_le hw).mp hi
    rw [succ_mul, mul_comm] at hle
    omega
  · rintro ⟨i, rfl, hlt⟩
    refine ⟨i, (Nat.le_div_iff_mul_le hw).mpr ?_, rfl⟩
    rw [succ_mul, mul_comm]
    omega

theorem mem_recvs_small (h : c.Small) (hw : 0 < c.warpCount) (hwarp : warp < c.warpCount) :
    p ∈ c.recvs warp ↔
      p.pe < c.teamSize ∧ p.pe % c.warpCount = warp ∧ p.chunk = ⟨0, 0, c.nelems⟩ := by
  rw [recvs, if_pos h, mem_map]
  simp only [mem_warpLoop hw]
  constructor
  · rintro ⟨_, ⟨i, rfl, hlt⟩, rfl⟩
    exact ⟨hlt, by rw [add_mul_mod_self_left, mod_eq_of_lt hwarp], rfl⟩
  · obtain ⟨pe, chunk⟩ := p
    rintro ⟨hlt, rfl, hchunk⟩
    exact ⟨pe, ⟨pe / c.warpCount, (mod_add_div _ _).symm, hlt⟩, by rw [← hchunk]⟩

theorem mem_recvs (h : ¬ c.Small) (hw : 0 < c.warpCount) : p ∈ c.recvs warp ↔
    ∃ q, q % c.numWarpsPerGroup = warp % c.numWarpsPerGroup ∧
      q * c.maxDataElemsPerWarp < c.nelems ∧ p.chunk = c.chunkAt q ∧
      c.startPe c.teamSize warp ≤ p.pe ∧
      p.pe < c.startPe c.teamSize warp + c.numPesPerGroup c.teamSize warp := by
  rw [recvs, if_neg h, mem_flatMap]
  simp only [mem_chunks hw, mem_map, mem_range'_1]
  constructor
  · rintro ⟨_, ⟨q, hq, hlt, rfl⟩, pe, ⟨hle, hpe⟩, rfl⟩
    exact ⟨q, hq, hlt, rfl, hle, hpe⟩
  · obtain ⟨pe, chunk⟩ := p
    rintro ⟨q, hq, hlt, rfl, hle, hpe⟩
    exact ⟨_, ⟨q, hq, hlt, rfl⟩, pe, ⟨hle, hpe⟩, rfl⟩

theorem covered_of_small (h : c.Small) (hw : 0 < c.warpCount) : c.Covered := by
  intro pe hpe e he
  have hlt := mod_lt pe hw
  refine ⟨(pe % c.warpCount, ⟨pe, 0, 0, c.nelems⟩), ⟨hlt, ?_, rfl, Nat.zero_le e, by simpa⟩, ?_⟩
  · exact (mem_recvs_small h hw hlt).mpr ⟨hpe, rfl, rfl⟩
  · rintro ⟨warp, pe', chunk⟩ ⟨hwarp, hmem, hcov⟩
    obtain rfl : pe' = pe := hcov.1
    have hpiece : pe' < c.teamSize ∧ pe' % c.warpCount = warp ∧ chunk = ⟨0, 0, c.nelems⟩ :=
      (mem_recvs_small h hw hwarp).mp hmem
    rw [hpiece.2.1, hpiece.2.2]

theorem covered_of_not_small (h : ¬ c.Small) (hw : 0 < c.warpCount) : c.Covered := by
  intro pe hpe e he
  have hpos := numWarpsPerGroup_pos hw
  obtain ⟨g, hg, hstart, hstop⟩ := Split.exists_block (@numWarpGroups_pos c) hpe
  have hr := mod_lt (e / c.maxDataElemsPerWarp) hpos
  have hid : c.warpGroupId (e / c.maxDataElemsPerWarp % c.numWarpsPerGroup +
      c.numWarpsPerGroup * g) = g := by
    rw [warpGroupId, add_mul_div_left _ _ hpos, div_eq_of_lt hr, zero_add]
  refine ⟨(e / c.maxDataElemsPerWarp % c.numWarpsPerGroup + c.numWarpsPerGroup * g,
    ⟨pe, c.chunkAt (e / c.maxDataElemsPerWarp)⟩), ⟨?_, ?_, (covers_chunkAt he).mpr rfl⟩, ?_⟩
  · calc e / c.maxDataElemsPerWarp % c.numWarpsPerGroup + c.numWarpsPerGroup * g
        < c.numWarpsPerGroup + c.numWarpsPerGroup * g := Nat.add_lt_add_right hr _
      _ = c.numWarpsPerGroup * (g + 1) := by ring
      _ ≤ c.numWarpsPerGroup * c.numWarpGroups := Nat.mul_le_mul_left _ hg
      _ ≤ c.warpCount := div_mul_le_self _ _
  · refine (mem_recvs h hw).mpr ⟨e / c.maxDataElemsPerWarp, ?_, ?_, rfl, ?_⟩
    · rw [add_mul_mod_self_left, mod_mod]
    · exact (div_mul_le_self _ _).trans_lt he
    · rw [startPe_eq, numPesPerGroup_eq, hid]
      exact ⟨hstart, hstop⟩
  · rintro ⟨warp, pe', chunk⟩ ⟨-, hmem, hcov⟩
    obtain ⟨q, hq, -, rfl, hle, hlt⟩ := (mem_recvs h hw).mp hmem
    obtain rfl : pe' = pe := hcov.1
    obtain rfl := (covers_chunkAt he).mp hcov
    have hwarp : c.warpGroupId warp = g := Split.block_unique hle hlt hstart hstop
    rw [hq, ← hwarp, warpGroupId, mod_add_div]

theorem pe_lt_of_mem_packs (hsize : 0 < size) (hp : p ∈ c.packs size warp) : p.pe < size := by
  unfold packs at hp
  split at hp
  · obtain ⟨ii, -, rfl⟩ := mem_map.mp hp
    exact mod_lt _ hsize
  · obtain ⟨chunk, -, hp⟩ := mem_flatMap.mp hp
    obtain ⟨pe, -, rfl⟩ := mem_map.mp hp
    exact mod_lt _ hsize

theorem recvs_lt_iff (h : ¬ c.Small) (hw : 0 < c.warpCount) (hn : 0 < c.nelems) :
    (∀ warp < c.warpCount, ∀ p ∈ c.recvs warp, p.pe < c.teamSize) ↔
      c.warpCount % c.numWarpGroups = 0 ∨ c.teamSize < c.numWarpGroups := by
  have hpos := numWarpsPerGroup_pos hw
  have hdiv := div_add_mod c.warpCount c.numWarpGroups
  constructor
  · intro hall
    by_contra hnot
    push Not at hnot
    -- the first warp that is left over
    have hlt : c.numWarpGroups * c.numWarpsPerGroup < c.warpCount := by
      unfold numWarpsPerGroup
      omega
    have hid : c.warpGroupId (c.numWarpGroups * c.numWarpsPerGroup) = c.numWarpGroups :=
      Nat.mul_div_cancel _ hpos
    have hstart : c.teamSize ≤ c.startPe c.teamSize (c.numWarpGroups * c.numWarpsPerGroup) := by
      rw [startPe_eq, hid]
      exact Split.le_blockStart numWarpGroups_pos le_rfl
    have hcount : 0 < c.numPesPerGroup c.teamSize (c.numWarpGroups * c.numWarpsPerGroup) :=
      Nat.add_pos_left (Nat.div_pos hnot.2 numWarpGroups_pos) _
    have hmem := (mem_recvs (p := ⟨c.startPe c.teamSize (c.numWarpGroups * c.numWarpsPerGroup),
      c.chunkAt 0⟩) h hw).mpr ⟨0, by rw [mul_mod_left, zero_mod], by rwa [zero_mul], rfl,
        le_rfl, Nat.lt_add_of_pos_right hcount⟩
    exact absurd (hall _ hlt _ hmem) (not_lt.mpr hstart)
  · intro hcond warp hwarp p hp
    obtain ⟨q, -, -, -, hle, hlt⟩ := (mem_recvs h hw).mp hp
    rcases Nat.lt_or_ge (c.warpGroupId warp) c.numWarpGroups with hg | hg
    · exact hlt.trans_le (Split.block_le numWarpGroups_pos hg)
    · rcases hcond with hmod | hsmall
      · have hlt' : warp / c.numWarpsPerGroup < c.numWarpGroups := by
          refine Nat.div_lt_of_lt_mul ?_
          rw [mul_comm, numWarpsPerGroup]
          omega
        exact absurd hg (not_le.mpr hlt')
      · have hzero : c.numPesPerGroup c.teamSize warp = 0 := by
          rw [numPesPerGroup, div_eq_of_lt hsmall, mod_eq_of_lt hsmall,
            if_neg (by omega)]
        omega

/-- The split is exact if there are whole warps, and no groups of left-over warps that find PEs for
themselves. -/
theorem split_iff (c : Call) : c.Covered ∧ c.InRange ↔ c.nelems = 0 ∨ 0 < c.nthreads / 32 ∧
    (c.Small ∨
      (c.nthreads / 32) % max 1 (c.nthreads / 32 / max 1 (c.nelems / c.maxDataElemsPerWarp)) = 0 ∨
      c.teamSize < max 1 (c.nthreads / 32 / max 1 (c.nelems / c.maxDataElemsPerWarp))) := by
  have hpacks : ∀ warp, ∀ size ∈ c.nodeSize, ∀ p ∈ c.packs size warp, p.pe < size :=
    fun warp size hsize p hp => pe_lt_of_mem_packs (c.nodeSize_pos size hsize) hp
  have hsmall : c.Small → 0 < c.warpCount → c.InRange := fun h hw warp hwarp =>
    ⟨fun p hp => ((mem_recvs_small h hw hwarp).mp hp).1, hpacks warp⟩
  constructor
  · rintro ⟨hcov, hrange⟩
    rcases Nat.eq_zero_or_pos c.nelems with hn | hn
    · exact .inl hn
    · have hteam : 0 < c.teamSize := zero_lt_of_lt c.myPe_lt
      obtain ⟨wp, ⟨hwp, -⟩, -⟩ := hcov 0 hteam 0 hn
      have hw := zero_lt_of_lt hwp
      refine .inr ⟨hw, or_iff_not_imp_left.mpr fun h => ?_⟩
      exact (recvs_lt_iff h hw hn).mp fun warp hwarp => (hrange warp hwarp).1
  · rintro (hn | ⟨hw, h⟩)
    · refine ⟨fun pe _ e he => by omega, fun warp hwarp => ?_⟩
      have hw := zero_lt_of_lt hwarp
      by_cases hs : c.Small
      · exact hsmall hs hw warp hwarp
      · refine ⟨fun p hp => ?_, hpacks warp⟩
        obtain ⟨q, -, hlt, -⟩ := (mem_recvs hs hw).mp hp
        omega
    · by_cases hs : c.Small
      · exact ⟨covered_of_small hs hw, hsmall hs hw⟩
      · refine ⟨covered_of_not_small hs hw, fun warp hwarp => ⟨?_, hpacks warp⟩⟩
        intro p hp
        obtain ⟨q, -, hlt, -⟩ := (mem_recvs hs hw).mp hp
        exact (recvs_lt_iff hs hw (by omega)).mpr (h.resolve_left hs) warp hwarp p hp

def fiveWarps : Call where
  llVersion := .ll8
  sizeofT := 4
  nelems := 512
  nthreads := 160
  teamSize := 2
  myPe := 0
  nodeSize := some 2
  sizeofT_mem := by decide
  myPe_lt := by decide
  nodeSize_pos n hn := by
    obtain rfl := Option.mem_some.mp hn
    decide

/-- The fifth warp waits for PE 2 of a team of two. -/
theorem not_inRange_fiveWarps : (⟨2, 0, 0, 256⟩ : Piece) ∈ fiveWarps.recvs 4 ∧
    ¬ fiveWarps.InRange := by
  have hmem : (⟨2, 0, 0, 256⟩ : Piece) ∈ fiveWarps.recvs 4 := by decide +kernel
  exact ⟨hmem, fun h => absurd ((h 4 (by decide)).1 _ hmem) (by decide)⟩

end Call

end Nvshmem.Fcollect
