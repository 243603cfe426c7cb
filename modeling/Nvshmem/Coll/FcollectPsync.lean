import Nvshmem.Coll.Alltoall
import Nvshmem.Coll.FcollectSplit
import Nvshmem.Coll.LL128RoundTrip
import Nvshmem.Team.Psync

/-! # The stores of a fcollect into the synchronization space

`nvshmemi_fcollect_threadgroup` selects an algorithm. The low-latency ones store the block of the PE
with flags in between, in their own memory and in that of the peers, at a place that they compute
from the number of elements. The space for it was computed from the thresholds.
-/

namespace Nvshmem.FcollectPsync

open List List Nat

open Alltoall (Scope)

open Fcollect (LlVersion)

open Psync (Params word roundUp ll128CalcPsyncSize)

open Loops

/-- `fcollect_algo_t` -/
inductive Algo where
  | ll8 | oneshot | nvls | nvlsLl | ll128 | invalid
deriving DecidableEq

/-- A call on a PE: the settings, the arguments, and what the library knows about the teams. The
group has one thread or whole warps. -/
structure Args where
  params : Params
  fcollectAlgo : ℕ
  sizeofT : ℕ
  isHalfPrec : Bool
  nelems : ℕ
  scope : Scope
  numWarps : ℕ
  teamSize : ℕ
  myPe : ℕ
  fcollectCount : ℕ
  /-- `are_gpus_p2p_connected` of all PEs, of those of the node and of the team. -/
  worldP2p : Bool
  nodeP2p : Bool
  teamP2p : Bool
  /-- `is_team_node` of the team with shared memory and of the team. -/
  sharedTeamNode : Bool
  isTeamNode : Bool
  /-- The size of the team of the members on the node, if there is one. -/
  teamNode : Option ℕ
  /-- The members whose heap is not mapped. -/
  unmapped : ℕ → Bool
  /-- The team has resources for multicast. -/
  nvls : Bool

/-- The types have at most 8 bytes, and the buffers are in memory. The PEs of a team on one node
are connected if all PEs of the node are. -/
structure Args.Valid (c : Args) : Prop where
  sizeofT_mem : c.sizeofT ∈ [1, 2, 4, 8]
  sizeofT_half : c.isHalfPrec = true → c.sizeofT = 2
  numWarps_pos : 0 < c.numWarps
  myPe_lt : c.myPe < c.teamSize
  teamSize_le : c.teamSize ≤ c.params.npes
  buffer_lt : c.teamSize * (c.nelems * c.sizeofT) < 2 ^ 62
  teamNode_pos : ∀ n ∈ c.teamNode, 0 < n
  p2p_of_node : c.nodeP2p = true → c.isTeamNode = true → c.teamP2p = true

structure Call extends Args where
  valid : toArgs.Valid

namespace Call

variable (c : Call)

def msgsize : ℕ := c.nelems * c.sizeofT

def groupSize : ℕ := if c.scope = .thread then 1 else 32 * c.numWarps

/-- `valid_ll_configuration` -/
def ValidLl : Prop :=
  c.scope ≠ .thread ∧ (4 ≤ c.sizeofT ∧ c.nelems % 2 = 0 ∨
      c.isHalfPrec = true ∧ c.nelems % 4 = 0 ∧ c.teamSize % 2 = 0) ∧
    (c.worldP2p = true ∨ c.sharedTeamNode = true ∨ c.nodeP2p = false)

instance : Decidable c.ValidLl := inferInstanceAs (Decidable (_ ∧ _ ∧ _))

def ValidNvlsLl : Prop :=
  4 ≤ c.sizeofT ∧ c.nelems % 2 = 0 ∧ c.msgsize ≤ c.params.fcollectLlThreshold ∧ c.nvls = true

instance : Decidable c.ValidNvlsLl := inferInstanceAs (Decidable (_ ∧ _ ∧ _ ∧ _))

def nvlsOrOneshot : Algo := if c.nvls = true ∧ c.msgsize % 4 = 0 then .nvls else .oneshot

def algo : Algo :=
  match c.fcollectAlgo with
  | 0 =>
    if c.ValidLl ∧ c.msgsize ≤ c.params.fcollectLlThreshold then .ll8
    else if c.ValidLl ∧ c.msgsize < c.params.fcollectLl128Threshold then .ll128
    else if c.ValidNvlsLl ∧ c.scope = .block then .nvlsLl
    else c.nvlsOrOneshot
  | 1 => if c.ValidLl then .ll8 else .oneshot
  | 2 => .oneshot
  | 3 => c.nvlsOrOneshot
  | 4 => if c.ValidNvlsLl then .nvlsLl else c.nvlsOrOneshot
  | 6 => if c.ValidLl then .ll128 else .oneshot
  | _ => .invalid

/-- The stores of a thread in `nvshmemi_packLL`, and without unrolling in `nvshmemi_packLL_naive`:
their places relative to the start of the block, and their lengths. -/
def packLL (sizeofT nelems unroll groupSize tid : ℕ) : List (ℕ × ℕ) :=
  (strided (tid * unroll * 2) (nelems * sizeofT / 4) (groupSize * unroll * 2)).flatMap fun e =>
    (List.range unroll).map fun k => (4 * (e * 2) + 16 * k, 16)

def Packs (v : LlVersion) (sizeofT count unroll numWarps : ℕ) (r : ℕ × ℕ) : Prop :=
  match v with
  | .ll8 => ∃ tid < 32 * numWarps, r ∈ packLL sizeofT count unroll (32 * numWarps) tid
  | .ll128 => ∃ call : LL128.Call, call.sizeofT = sizeofT ∧ call.nelems = count ∧
      ∃ tid < 32 * numWarps,
        ∃ st ∈ call.packLL128 (fun _ => 0) 0 0 (fun _ => 0) numWarps unroll tid,
          r = (st.addr, st.len)

def halfOffset : LlVersion → ℕ
  | .ll8 =>
    c.sizeofT * word (2 * c.teamSize * (c.params.fcollectLlThreshold / c.sizeofT) *
      (c.fcollectCount % 2))
  | .ll128 =>
    c.sizeofT * word (c.teamSize *
      ll128CalcPsyncSize (c.params.fcollectLl128Threshold / c.sizeofT) c.sizeofT *
      (c.fcollectCount % 2))

def psyncRemoteWriteElements : LlVersion → ℕ
  | .ll8 => roundUp (c.nelems * 2) (16 / c.sizeofT)
  | .ll128 => ll128CalcPsyncSize c.nelems c.sizeofT

def packOffset (v : LlVersion) : ℕ := word (c.myPe * c.psyncRemoteWriteElements v)

def blockStart (v : LlVersion) : ℕ := c.halfOffset v + c.sizeofT * c.packOffset v

def teamiNode : Option ℕ :=
  if c.nodeP2p then
    if c.teamP2p then some c.teamSize else if c.sharedTeamNode then c.teamNode else none
  else none

theorem teamiNode_pos : ∀ n ∈ c.teamiNode, 0 < n := by
  intro n hn
  rw [teamiNode] at hn
  split_ifs at hn
  · exact Option.some.inj hn ▸ zero_lt_of_lt c.valid.myPe_lt
  · exact c.valid.teamNode_pos n hn
  all_goals exact nomatch hn

def split (v : LlVersion) (h : c.sizeofT ∈ [2, 4, 8]) : Fcollect.Call where
  llVersion := v
  sizeofT := c.sizeofT
  nelems := c.nelems
  nthreads := 32 * c.numWarps
  teamSize := c.teamSize
  myPe := c.myPe
  nodeSize := c.teamiNode
  sizeofT_mem := h
  myPe_lt := c.valid.myPe_lt
  nodeSize_pos := c.teamiNode_pos

def unroll (sp : Fcollect.Call) (chunk : Fcollect.Chunk) : ℕ :=
  if chunk.dataElementOffset + sp.maxDataElemsPerWarp < sp.nelems then LlVersion.maxUnroll else 1

/-- `nvshmemi_fcollect_allpush_ll_threadgroup`: a store into the space of some PE, by its place in
the space and its length. -/
inductive Stores (v : LlVersion) : ℕ × ℕ → Prop
  | own {r : ℕ × ℕ} : (c.nodeP2p = false ∨ c.isTeamNode = false) →
      Packs v c.sizeofT c.nelems 1 c.numWarps r → Stores v (c.blockStart v + r.1, r.2)
  | put {peer : ℕ} : ¬ (c.nodeP2p = true ∧ c.teamP2p = true) →
      peer < c.teamSize → peer ≠ c.myPe → (c.nodeP2p = true → c.unmapped peer = true) →
      Stores v (c.blockStart v, c.sizeofT * c.psyncRemoteWriteElements v)
  | node {size warp : ℕ} {piece : Fcollect.Piece} {r : ℕ × ℕ} (h : c.sizeofT ∈ [2, 4, 8]) :
      size ∈ c.teamiNode → warp < c.numWarps → piece ∈ (c.split v h).packs size warp →
      Packs v c.sizeofT piece.chunk.count (unroll (c.split v h) piece.chunk) 1 r →
      Stores v (c.blockStart v + c.sizeofT * piece.chunk.psyncElementOffset + r.1, r.2)

/-- `nvshmemi_fcollect_nvls_ll_threadgroup`: the stores of a thread. -/
def nvlsStores (tid : ℕ) : List (ℕ × ℕ) :=
  (strided (2 * tid) (c.msgsize / 4) (2 * c.groupSize)).map fun i =>
    (word (2 * c.teamSize * c.params.fcollectLlThreshold * (c.fcollectCount % 2)) +
      8 * (word (c.myPe * c.nelems * c.sizeofT) / 4) + 8 * i, 16)

def StoresInside : Prop :=
  match c.algo with
  | .ll8 => ∀ r, c.Stores .ll8 r → r.1 + r.2 ≤ 8 * Psync.Device.fcollectPsyncLenPerTeam c.params
  | .ll128 =>
    ∀ r, c.Stores .ll128 r → r.1 + r.2 ≤ 8 * Psync.Device.fcollectLl128PsyncLenPerTeam c.params
  | .nvlsLl =>
    ∀ tid < c.groupSize, ∀ r ∈ c.nvlsStores tid,
      r.1 + r.2 ≤ 8 * Psync.Device.fcollectPsyncLenPerTeam c.params
  | _ => True

structure Inside (psyncPool : ℕ) : Prop where
  layout : c.params.LayoutCorrect psyncPool
  stores : c.StoresInside

def packets (nelems : ℕ) : ℕ := (nelems + 120 / c.sizeofT - 1) / (120 / c.sizeofT)

/-- The area has room for the half before the one in use and the blocks up to that of the PE. -/
def Room : LlVersion → Prop
  | .ll8 =>
    2 * c.teamSize * (c.params.fcollectLlThreshold / c.sizeofT * c.sizeofT) *
        (c.fcollectCount % 2) + (c.myPe + 1) * (2 * c.msgsize) ≤
      4 * (c.params.npes * c.params.fcollectLlThreshold)
  | .ll128 =>
    c.teamSize * c.packets (c.params.fcollectLl128Threshold / c.sizeofT) * (c.fcollectCount % 2) +
        (c.myPe + 1) * c.packets c.nelems ≤
      2 * (c.params.npes * c.params.ll128Packets)

def ForcedRoom : Prop :=
  c.ValidLl → (c.fcollectAlgo = 1 → c.Room .ll8) ∧ (c.fcollectAlgo = 6 → c.Room .ll128)

section Span

def AcceptedCount (sizeofT count : ℕ) : Prop :=
  4 ≤ sizeofT ∧ count % 2 = 0 ∨ sizeofT = 2 ∧ count % 4 = 0

def span (v : LlVersion) (sizeofT count : ℕ) : ℕ :=
  match v with
  | .ll8 => 2 * (count * sizeofT)
  | .ll128 => 128 * ((count + 120 / sizeofT - 1) / (120 / sizeofT))

variable {v : LlVersion} {sizeofT count u w : ℕ} {r : ℕ × ℕ}

theorem sizeofT_cases (h : sizeofT ∈ [2, 4, 8]) : sizeofT = 2 ∨ sizeofT = 4 ∨ sizeofT = 8 := by
  simpa using h

theorem AcceptedCount.dvd (h : sizeofT ∈ [2, 4, 8]) (hc : AcceptedCount sizeofT count) :
    ∃ y, count * sizeofT = 8 * y := by
  rw [AcceptedCount] at hc
  refine dvd_of_mod_eq_zero ?_
  rcases sizeofT_cases h with rfl | rfl | rfl <;> omega

theorem exists_mem_packLL_iff {g y : ℕ} (hg : 0 < g) (hu : 0 < u) (hy : count * sizeofT = 8 * y)
    (hdvd : u ∣ y) :
    (∃ tid < g, r ∈ packLL sizeofT count u g tid) ↔ ∃ x < y, r = (16 * x, 16) := by
  obtain ⟨z, rfl⟩ := hdvd
  have hsub : count * sizeofT / 4 = 2 * (u * z) := by omega
  have hstep : 0 < g * u * 2 := Nat.mul_pos (Nat.mul_pos hg hu) Nat.two_pos
  simp only [packLL, mem_flatMap, mem_map, mem_range, hsub, mem_strided hstep]
  constructor
  · rintro ⟨tid, htid, e, ⟨hlt, j, rfl⟩, k, hk, rfl⟩
    have he : tid * u * 2 + g * u * 2 * j = 2 * (u * (tid + g * j)) := by ring
    rw [he] at hlt ⊢
    have hm : tid + g * j < z := Nat.lt_of_mul_lt_mul_left (a := u) (by omega)
    have hle : u * (tid + g * j + 1) ≤ u * z := Nat.mul_le_mul_left u hm
    rw [mul_succ] at hle
    exact ⟨u * (tid + g * j) + k, by omega, by rw [Prod.mk.injEq]; exact ⟨by ring, rfl⟩⟩
  · rintro ⟨x, hx, rfl⟩
    have hdiv := div_add_mod x u
    have hmod := div_add_mod (x / u) g
    refine ⟨x / u % g, mod_lt _ hg, 2 * (u * (x / u)), ⟨?_, x / u / g, ?_⟩, x % u,
      mod_lt x hu, ?_⟩
    · omega
    · calc 2 * (u * (x / u)) = 2 * (u * (g * (x / u / g) + x / u % g)) := by rw [hmod]
        _ = x / u % g * u * 2 + g * u * 2 * (x / u / g) := by ring
    · rw [Prod.mk.injEq]
      exact ⟨by omega, rfl⟩

def UnrollValid (v : LlVersion) (sizeofT count u : ℕ) : Prop :=
  u = 1 ∨ u = 4 ∧ count = v.dataBytesPerWarp * LlVersion.maxUnroll / sizeofT

theorem packs_iff (h : sizeofT ∈ [2, 4, 8]) (hc : AcceptedCount sizeofT count)
    (hu : UnrollValid v sizeofT count u) (hw : 0 < w) :
    Packs v sizeofT count u w r ↔ ∃ x, 16 * x < span v sizeofT count ∧ r = (16 * x, 16) := by
  cases v with
  | ll8 =>
    obtain ⟨y, hy⟩ := hc.dvd h
    have hdvd : 0 < u ∧ u ∣ y := by
      rcases hu with rfl | ⟨rfl, rfl⟩
      · exact ⟨Nat.one_pos, one_dvd y⟩
      · have hbytes : LlVersion.dataBytesPerWarp .ll8 * LlVersion.maxUnroll / sizeofT * sizeofT =
            1024 := by
          rcases sizeofT_cases h with rfl | rfl | rfl <;> rfl
        exact ⟨by decide, 32, by omega⟩
    have hlt : ∀ x, 16 * x < 2 * (8 * y) ↔ x < y := fun x => by omega
    simp only [span, hy, hlt]
    exact exists_mem_packLL_iff (by omega) hdvd.1 hy hdvd.2
  | ll128 =>
    have hunroll : ∀ call : LL128.Call, call.sizeofT = sizeofT → call.nelems = count →
        u = 1 ∨ u = 4 ∧ call.nelems % (u * 4 * call.numDataElemsPerPacket) = 0 := by
      intro call hsize hn
      refine hu.imp_right ?_
      rintro ⟨rfl, rfl⟩
      refine ⟨rfl, ?_⟩
      rw [hn, LL128.Call.numDataElemsPerPacket, hsize]
      rcases sizeofT_cases h with rfl | rfl | rfl <;> rfl
    have hpackets : ∀ call : LL128.Call, call.sizeofT = sizeofT → call.nelems = count →
        span .ll128 sizeofT count = 128 * call.numPackets := by
      rintro call rfl rfl
      rfl
    constructor
    · rintro ⟨call, hsize, hn, tid, htid, st, hst, rfl⟩
      obtain ⟨k, hk, l, hl, rfl⟩ :=
        (LL128.mem_packLL128_iff ⟨u, hunroll call hsize hn⟩ hw).mp
          (mem_flatMap.mpr ⟨tid, mem_range.mpr htid, hst⟩)
      rw [LL128.storeAt_addr hk hl, LL128.storeAt_len, hpackets call hsize hn]
      exact ⟨8 * k + l, by omega, by rw [Prod.mk.injEq]; exact ⟨by ring, rfl⟩⟩
    · rintro ⟨x, hx, rfl⟩
      let call : LL128.Call := ⟨sizeofT, count, h, hc⟩
      rw [hpackets call rfl rfl] at hx
      have hk : x / 8 < call.numPackets := by omega
      have hl : x % 8 < 8 := mod_lt x (by decide)
      have hmem : LL128.storeAt call (fun _ => 0) 0 0 (fun _ => 0) (x / 8) (x % 8) ∈
          (range (32 * w)).flatMap (call.packLL128 (fun _ => 0) 0 0 (fun _ => 0) w u) :=
        (LL128.mem_packLL128_iff ⟨u, hunroll call rfl rfl⟩ hw).mpr ⟨x / 8, hk, x % 8, hl, rfl⟩
      obtain ⟨tid, htid, hst⟩ := mem_flatMap.mp hmem
      refine ⟨call, rfl, rfl, tid, mem_range.mp htid, _, hst, ?_⟩
      rw [LL128.storeAt_addr hk hl, LL128.storeAt_len, Prod.mk.injEq]
      exact ⟨by omega, rfl⟩

theorem span_mod (h : sizeofT ∈ [2, 4, 8]) (hc : AcceptedCount sizeofT count) :
    span v sizeofT count % 16 = 0 := by
  obtain ⟨y, hy⟩ := hc.dvd h
  cases v <;> simp only [span] <;> omega

theorem span_pos (h : sizeofT ∈ [2, 4, 8]) (hpos : 0 < count) : 0 < span v sizeofT count := by
  cases v with
  | ll8 =>
    rcases sizeofT_cases h with rfl | rfl | rfl <;> simp only [span] <;> omega
  | ll128 =>
    refine Nat.mul_pos (by decide) (Nat.div_pos ?_ ?_)
    · omega
    · rcases sizeofT_cases h with rfl | rfl | rfl <;> decide

theorem span_le (h : sizeofT ∈ [2, 4, 8]) :
    span v sizeofT count ≤ 2 * (count * sizeofT) + 128 := by
  cases v with
  | ll8 => exact Nat.le_add_right _ _
  | ll128 => rcases sizeofT_cases h with rfl | rfl | rfl <;> simp only [span] <;> omega

theorem Packs.le (h : sizeofT ∈ [2, 4, 8]) (hc : AcceptedCount sizeofT count)
    (hu : UnrollValid v sizeofT count u) (hw : 0 < w) (hr : Packs v sizeofT count u w r) :
    r.1 + r.2 ≤ span v sizeofT count := by
  obtain ⟨x, hx, rfl⟩ := (packs_iff h hc hu hw).mp hr
  have := span_mod (v := v) h hc
  omega

theorem exists_packs (h : sizeofT ∈ [2, 4, 8]) (hc : AcceptedCount sizeofT count)
    (hu : UnrollValid v sizeofT count u) (hw : 0 < w) (hpos : 0 < count) :
    ∃ r, Packs v sizeofT count u w r ∧ r.1 + r.2 = span v sizeofT count := by
  have hmod := span_mod (v := v) h hc
  have hspan := span_pos (v := v) h hpos
  refine ⟨(16 * (span v sizeofT count / 16 - 1), 16),
    (packs_iff h hc hu hw).mpr ⟨_, by omega, rfl⟩, ?_⟩
  omega

end Span

section Chunks

variable {c} {v : LlVersion} (h : c.sizeofT ∈ [2, 4, 8]) {q : ℕ}

theorem chunk_sizes : (c.split v h).maxDataElemsPerWarp =
      v.dataBytesPerWarp * LlVersion.maxUnroll / c.sizeofT ∧
    c.sizeofT * (c.split v h).maxPsyncElemsPerWarp = 2048 := by
  refine ⟨rfl, ?_⟩
  change c.sizeofT * (v.psyncBytesPerWarp * LlVersion.maxUnroll / c.sizeofT) = 2048
  rcases sizeofT_cases h with hs | hs | hs <;> rw [hs] <;> cases v <;> rfl

theorem acceptedCount_chunkAt (hc : AcceptedCount c.sizeofT c.nelems) :
    AcceptedCount c.sizeofT ((c.split v h).chunkAt q).count := by
  have hcount : ((c.split v h).chunkAt q).count =
      min (v.dataBytesPerWarp * LlVersion.maxUnroll / c.sizeofT)
        (c.nelems - q * (v.dataBytesPerWarp * LlVersion.maxUnroll / c.sizeofT)) := rfl
  rw [AcceptedCount] at hc
  rw [AcceptedCount, hcount]
  rcases sizeofT_cases h with hs | hs | hs <;> rw [hs] at hc ⊢ <;> cases v <;>
    simp only [LlVersion.dataBytesPerWarp, LlVersion.maxUnroll, true_and] <;> omega

theorem unrollValid_chunkAt :
    UnrollValid v c.sizeofT ((c.split v h).chunkAt q).count
      (unroll (c.split v h) ((c.split v h).chunkAt q)) := by
  rw [unroll]
  split
  · next hlt =>
    refine Or.inr ⟨rfl, min_eq_left ?_⟩
    change q * _ + _ < c.nelems at hlt
    change _ ≤ c.nelems - q * _
    omega
  · exact Or.inl rfl

theorem span_chunkAt (hq : q * (c.split v h).maxDataElemsPerWarp < c.nelems) :
    c.sizeofT * ((c.split v h).chunkAt q).psyncElementOffset +
        span v c.sizeofT ((c.split v h).chunkAt q).count ≤ span v c.sizeofT c.nelems ∧
      (c.nelems ≤ (q + 1) * (c.split v h).maxDataElemsPerWarp →
        c.sizeofT * ((c.split v h).chunkAt q).psyncElementOffset +
          span v c.sizeofT ((c.split v h).chunkAt q).count = span v c.sizeofT c.nelems) := by
  obtain ⟨hM, hP⟩ := chunk_sizes (v := v) h
  have hoff : c.sizeofT * (q * (c.split v h).maxPsyncElemsPerWarp) = 2048 * q := by
    rw [Nat.mul_left_comm, hP, Nat.mul_comm]
  simp only [Fcollect.Call.chunkAt, hoff]
  rw [hM] at hq ⊢
  change 2048 * q + span v c.sizeofT (min _ (c.nelems - _)) ≤ _ ∧
    (_ → 2048 * q + span v c.sizeofT (min _ (c.nelems - _)) = _)
  rcases sizeofT_cases h with hs | hs | hs <;> rw [hs] at hq ⊢ <;> cases v <;>
    simp only [span, LlVersion.dataBytesPerWarp, LlVersion.maxUnroll] at hq ⊢ <;> omega

end Chunks

section Stores

variable {c} {v : LlVersion} {r : ℕ × ℕ}

theorem teamSize_pos : 0 < c.teamSize := zero_lt_of_lt c.valid.myPe_lt

theorem sizeofT_pos : 0 < c.sizeofT := by
  have hmem := c.valid.sizeofT_mem
  simp only [mem_cons, not_mem_nil, or_false] at hmem
  omega

theorem nelems_lt : c.nelems < 2 ^ 62 := by
  calc c.nelems ≤ c.nelems * c.sizeofT := Nat.le_mul_of_pos_right _ c.sizeofT_pos
    _ ≤ c.teamSize * (c.nelems * c.sizeofT) := Nat.le_mul_of_pos_left _ c.teamSize_pos
    _ < 2 ^ 62 := c.valid.buffer_lt

theorem warpCount_split (h : c.sizeofT ∈ [2, 4, 8]) : (c.split v h).warpCount = c.numWarps :=
  Nat.mul_div_cancel_left _ (by decide)

theorem ll128CalcPsyncSize_mul {x sizeofT : ℕ} (h : sizeofT ∈ [2, 4, 8]) (hx : x < 2 ^ 63) :
    sizeofT * ll128CalcPsyncSize x sizeofT = span .ll128 sizeofT x := by
  rcases sizeofT_cases h with rfl | rfl | rfl <;>
    simp only [ll128CalcPsyncSize, roundUp, Psync.roundUpDiv, word, span] <;> omega

theorem unroll_of_small (h : c.sizeofT ∈ [2, 4, 8]) (hsmall : (c.split v h).Small) :
    unroll (c.split v h) ⟨0, 0, c.nelems⟩ = 1 := by
  have hlt : c.nelems < (c.split v h).maxDataElemsPerWarp := hsmall.2
  refine if_neg ?_
  change ¬ 0 + _ < c.nelems
  omega

variable (h : c.sizeofT ∈ [2, 4, 8]) (hc : AcceptedCount c.sizeofT c.nelems)
include h hc

theorem psyncRemoteWriteElements_mul :
    c.sizeofT * c.psyncRemoteWriteElements v = span v c.sizeofT c.nelems := by
  have hlt := c.nelems_lt
  cases v with
  | ll8 =>
    rw [AcceptedCount] at hc
    simp only [psyncRemoteWriteElements, roundUp, Psync.roundUpDiv, word, span]
    rcases sizeofT_cases h with hs | hs | hs <;> rw [hs] at hc ⊢ <;> omega
  | ll128 => exact ll128CalcPsyncSize_mul h (by omega)

theorem span_of_mem_packs {size warp : ℕ} {piece : Fcollect.Piece}
    (hp : piece ∈ (c.split v h).packs size warp)
    (hr : Packs v c.sizeofT piece.chunk.count (unroll (c.split v h) piece.chunk) 1 r) :
    c.sizeofT * piece.chunk.psyncElementOffset + (r.1 + r.2) ≤ span v c.sizeofT c.nelems := by
  have hw : 0 < (c.split v h).warpCount := (warpCount_split h).symm ▸ c.valid.numWarps_pos
  rw [Fcollect.Call.packs] at hp
  split at hp
  · next hsmall =>
    obtain ⟨ii, -, rfl⟩ := mem_map.mp hp
    change Packs v c.sizeofT c.nelems (unroll (c.split v h) ⟨0, 0, c.nelems⟩) 1 r at hr
    rw [unroll_of_small h hsmall] at hr
    change c.sizeofT * 0 + _ ≤ _
    have := hr.le h hc (Or.inl rfl) Nat.one_pos
    omega
  · obtain ⟨chunk, hchunk, hp⟩ := mem_flatMap.mp hp
    obtain ⟨pe, -, rfl⟩ := mem_map.mp hp
    obtain ⟨q, -, hq, rfl⟩ := (Fcollect.Call.mem_chunks hw).mp hchunk
    have hle := hr.le h (acceptedCount_chunkAt h hc) (unrollValid_chunkAt h) Nat.one_pos
    have hspan := (span_chunkAt h hq).1
    change c.sizeofT * ((c.split v h).chunkAt q).psyncElementOffset + _ ≤ _
    omega

theorem Stores.le (hr : c.Stores v r) :
    r.1 + r.2 ≤ c.blockStart v + span v c.sizeofT c.nelems := by
  cases hr with
  | own _ hr =>
    have := hr.le h hc (Or.inl rfl) c.valid.numWarps_pos
    omega
  | put =>
    rw [psyncRemoteWriteElements_mul h hc]
  | node _ _ _ hp hr =>
    have := span_of_mem_packs h hc hp hr
    omega

theorem exists_mem_packs {size : ℕ} (hsize : 0 < size) (hpos : 0 < c.nelems) :
    ∃ warp < c.numWarps, ∃ piece ∈ (c.split v h).packs size warp, ∃ r,
      Packs v c.sizeofT piece.chunk.count (unroll (c.split v h) piece.chunk) 1 r ∧
        c.sizeofT * piece.chunk.psyncElementOffset + (r.1 + r.2) = span v c.sizeofT c.nelems := by
  have hw : 0 < (c.split v h).warpCount := (warpCount_split h).symm ▸ c.valid.numWarps_pos
  by_cases hsmall : (c.split v h).Small
  · obtain ⟨r, hr, hend⟩ := exists_packs h hc (Or.inl rfl) Nat.one_pos hpos (v := v)
    refine ⟨0, c.valid.numWarps_pos, ⟨c.myPe % size, ⟨0, 0, c.nelems⟩⟩, ?_, r,
      (unroll_of_small h hsmall).symm ▸ hr, ?_⟩
    · rw [Fcollect.Call.packs, if_pos hsmall]
      refine mem_map.mpr ⟨c.myPe, (Fcollect.Call.mem_warpLoop hw).mpr ⟨0, ?_, ?_⟩, rfl⟩
      · exact (Nat.zero_add c.myPe).symm
      · exact Nat.lt_add_of_pos_left hsize
    · change c.sizeofT * 0 + _ = _
      omega
  · -- the warps of the first group pack the last chunk for the first members
    have hM : 0 < (c.split v h).maxDataElemsPerWarp := Fcollect.Call.maxDataElemsPerWarp_pos
    have hper := Fcollect.Call.numWarpsPerGroup_pos hw
    obtain ⟨q, hle, hlt⟩ : ∃ q, q * (c.split v h).maxDataElemsPerWarp ≤ c.nelems - 1 ∧
        c.nelems - 1 < q * (c.split v h).maxDataElemsPerWarp +
          (c.split v h).maxDataElemsPerWarp :=
      ⟨_, div_mul_le_self _ _, lt_div_mul_add hM⟩
    have hq : q * (c.split v h).maxDataElemsPerWarp < c.nelems := by omega
    have hlast : c.nelems ≤ (q + 1) * (c.split v h).maxDataElemsPerWarp := by
      rw [succ_mul]
      omega
    have hcount : 0 < ((c.split v h).chunkAt q).count := lt_min hM (Nat.sub_pos_of_lt hq)
    obtain ⟨r, hr, hend⟩ := exists_packs h (acceptedCount_chunkAt h hc) (unrollValid_chunkAt h)
      Nat.one_pos hcount (v := v)
    have hwarp : q % (c.split v h).numWarpsPerGroup < c.numWarps := by
      refine (mod_lt q hper).trans_le ?_
      rw [← warpCount_split (v := v) h]
      exact Nat.div_le_self _ _
    have hgroup : (c.split v h).warpGroupId (q % (c.split v h).numWarpsPerGroup) = 0 :=
      div_eq_of_lt (mod_lt q hper)
    have hpes : 0 < (c.split v h).numPesPerGroup size (q % (c.split v h).numWarpsPerGroup) := by
      rw [Fcollect.Call.numPesPerGroup]
      split
      · exact succ_pos _
      · next hmod =>
        exact Nat.div_pos (le_of_dvd hsize (dvd_of_mod_eq_zero (by omega)))
          Fcollect.Call.numWarpGroups_pos
    have hmem : ⟨((c.split v h).startPe size (q % (c.split v h).numWarpsPerGroup) + 0) % size,
        (c.split v h).chunkAt q⟩ ∈
        (c.split v h).packs size (q % (c.split v h).numWarpsPerGroup) := by
      rw [Fcollect.Call.packs, if_neg hsmall, mem_flatMap]
      exact ⟨_, (Fcollect.Call.mem_chunks hw).mpr ⟨q, (mod_mod _ _).symm, hq, rfl⟩,
        mem_map.mpr ⟨0, mem_range.mpr hpes, rfl⟩⟩
    exact ⟨_, hwarp, _, hmem, r, hr, hend ▸ (span_chunkAt h hq).2 hlast⟩

theorem exists_store (hpos : 0 < c.nelems) :
    ∃ r, c.Stores v r ∧ r.1 + r.2 = c.blockStart v + span v c.sizeofT c.nelems := by
  by_cases hown : c.nodeP2p = false ∨ c.isTeamNode = false
  · obtain ⟨r, hr, hend⟩ := exists_packs h hc (Or.inl rfl) c.valid.numWarps_pos hpos (v := v)
    refine ⟨_, .own hown hr, ?_⟩
    omega
  · -- the PE packs for all members, itself included
    simp only [not_or, Bool.not_eq_false] at hown
    have hnode : c.teamSize ∈ c.teamiNode := by
      rw [teamiNode, if_pos hown.1, if_pos (c.valid.p2p_of_node hown.1 hown.2)]
      rfl
    obtain ⟨warp, hwarp, piece, hp, r, hr, hend⟩ :=
      exists_mem_packs (v := v) h hc c.teamSize_pos hpos
    refine ⟨_, .node h hnode hwarp hp hr, ?_⟩
    omega

end Stores

section Room

variable {c} {v : LlVersion}

theorem ValidLl.sizeofT_mem (h : c.ValidLl) : c.sizeofT ∈ [2, 4, 8] := by
  have hmem := c.valid.sizeofT_mem
  simp only [mem_cons, not_mem_nil, or_false] at hmem ⊢
  rcases h.2.1 with ⟨h4, -⟩ | ⟨hhalf, -⟩
  · omega
  · exact Or.inl (c.valid.sizeofT_half hhalf)

theorem ValidLl.acceptedCount (h : c.ValidLl) : AcceptedCount c.sizeofT c.nelems := by
  rcases h.2.1 with h | ⟨hhalf, h4, -⟩
  · exact Or.inl h
  · exact Or.inr ⟨c.valid.sizeofT_half hhalf, h4⟩

theorem of_algo_ll8 (h : c.algo = .ll8) :
    c.ValidLl ∧ (c.msgsize ≤ c.params.fcollectLlThreshold ∨ c.fcollectAlgo = 1) := by
  rw [algo, nvlsOrOneshot] at h
  split at h <;> grind

theorem of_algo_ll128 (h : c.algo = .ll128) :
    c.ValidLl ∧ (c.msgsize < c.params.fcollectLl128Threshold ∨ c.fcollectAlgo = 6) := by
  rw [algo, nvlsOrOneshot] at h
  split at h <;> grind

theorem of_algo_nvlsLl (h : c.algo = .nvlsLl) : c.ValidNvlsLl := by
  rw [algo, nvlsOrOneshot] at h
  split at h <;> grind

section Blocks

variable (h : c.sizeofT ∈ [2, 4, 8]) (hc : AcceptedCount c.sizeofT c.nelems)
include h hc

theorem blockStart_add : c.blockStart v + span v c.sizeofT c.nelems =
    c.halfOffset v + (c.myPe + 1) * span v c.sizeofT c.nelems := by
  have hW := psyncRemoteWriteElements_mul (v := v) h hc
  have hlt : c.myPe * c.psyncRemoteWriteElements v < 2 ^ 64 := by
    have hnpes := c.params.accepted.npes_lt
    have hteam := c.valid.teamSize_le
    have hbuffer := c.valid.buffer_lt
    calc c.myPe * c.psyncRemoteWriteElements v
        ≤ c.teamSize * (c.sizeofT * c.psyncRemoteWriteElements v) :=
          Nat.mul_le_mul c.valid.myPe_lt.le (Nat.le_mul_of_pos_left _ c.sizeofT_pos)
      _ ≤ c.teamSize * (2 * (c.nelems * c.sizeofT) + 128) :=
          hW ▸ Nat.mul_le_mul_left _ (span_le h)
      _ = 2 * (c.teamSize * (c.nelems * c.sizeofT)) + 128 * c.teamSize := by ring
      _ < 2 ^ 64 := by omega
  rw [blockStart, packOffset, Psync.Params.word_of_lt hlt, Nat.mul_left_comm, hW]
  ring

theorem forall_stores_iff {B : ℕ} (hhalf : c.halfOffset v ≤ B) :
    (∀ r, c.Stores v r → r.1 + r.2 ≤ B) ↔
      c.halfOffset v + (c.myPe + 1) * span v c.sizeofT c.nelems ≤ B := by
  rw [← blockStart_add h hc]
  constructor
  · intro hle
    rcases Nat.eq_zero_or_pos c.nelems with h0 | hpos
    · have hspan : span v c.sizeofT c.nelems = 0 := by
        rw [h0]
        rcases sizeofT_cases h with hs | hs | hs <;> rw [hs] <;> cases v <;> rfl
      rwa [blockStart_add h hc, hspan]
    · obtain ⟨r, hr, hend⟩ := exists_store (v := v) h hc hpos
      exact hend ▸ hle r hr
  · intro hle r hr
    exact (hr.le h hc).trans hle

end Blocks

theorem half_le {a b x y k : ℕ} (ha : a ≤ b) (hx : x ≤ y) : a * x * (k % 2) ≤ b * y := by
  have hk : k % 2 ≤ 1 := le_of_lt_succ (mod_lt k Nat.two_pos)
  exact (Nat.mul_le_mul (Nat.mul_le_mul ha hx) hk).trans_eq (Nat.mul_one _)

theorem myPe_succ_le : c.myPe + 1 ≤ c.params.npes := c.valid.myPe_lt.trans_le c.valid.teamSize_le

theorem half_ll8_le {x : ℕ} (hx : x ≤ c.params.fcollectLlThreshold) :
    2 * c.teamSize * x * (c.fcollectCount % 2) ≤
      2 * (c.params.npes * c.params.fcollectLlThreshold) := by
  rw [← Nat.mul_assoc]
  exact half_le (Nat.mul_le_mul_left 2 c.valid.teamSize_le) hx

theorem halfOffset_ll8 (hfits : c.params.Fits) : c.halfOffset .ll8 =
    2 * c.teamSize * (c.params.fcollectLlThreshold / c.sizeofT * c.sizeofT) *
      (c.fcollectCount % 2) := by
  have hlen := hfits.len_lt
  have hle := c.half_ll8_le (Nat.div_le_self _ c.sizeofT)
  rw [Params.len] at hlen
  rw [halfOffset, Params.word_of_lt (by omega)]
  ring

theorem area_ll8 (hfits : c.params.Fits) : 8 * Psync.Device.fcollectPsyncLenPerTeam c.params =
    4 * (c.params.npes * c.params.fcollectLlThreshold) := by
  have heven := c.params.even_npes_mul
  have hlen : Psync.Device.fcollectPsyncLenPerTeam c.params = _ := hfits.fcollect_eq
  omega

theorem packets_threshold_le (h : c.sizeofT ∈ [2, 4, 8]) :
    c.packets (c.params.fcollectLl128Threshold / c.sizeofT) ≤ c.params.ll128Packets := by
  simp only [packets, Params.ll128Packets]
  rcases sizeofT_cases h with hs | hs | hs <;> rw [hs] <;> omega

theorem half_ll128_le (h : c.sizeofT ∈ [2, 4, 8]) :
    c.teamSize * c.packets (c.params.fcollectLl128Threshold / c.sizeofT) *
      (c.fcollectCount % 2) ≤ c.params.npes * c.params.ll128Packets :=
  half_le c.valid.teamSize_le (packets_threshold_le h)

theorem halfOffset_ll128 (h : c.sizeofT ∈ [2, 4, 8]) (hfits : c.params.Fits) : c.halfOffset .ll128 =
    128 * (c.teamSize * c.packets (c.params.fcollectLl128Threshold / c.sizeofT) *
      (c.fcollectCount % 2)) := by
  have hlen := hfits.len_lt
  have hlt := c.params.accepted.ll128Threshold_lt
  have hspan := ll128CalcPsyncSize_mul (x := c.params.fcollectLl128Threshold / c.sizeofT) h (by
    rcases sizeofT_cases h with hs | hs | hs <;> rw [hs] <;> omega)
  change _ = 128 * c.packets _ at hspan
  rw [Params.len, Nat.mul_assoc 32] at hlen
  rw [halfOffset]
  generalize ll128CalcPsyncSize _ c.sizeofT = x at hspan ⊢
  have hx : x ≤ 128 * c.params.ll128Packets :=
    (Nat.le_mul_of_pos_left x c.sizeofT_pos).trans
      (hspan ▸ Nat.mul_le_mul_left 128 (packets_threshold_le h))
  have hle := half_le (k := c.fcollectCount) c.valid.teamSize_le hx
  rw [Nat.mul_left_comm] at hle
  rw [Params.word_of_lt (by omega)]
  calc c.sizeofT * (c.teamSize * x * (c.fcollectCount % 2))
      = c.teamSize * (c.sizeofT * x) * (c.fcollectCount % 2) := by ring
    _ = _ := by rw [hspan]; ring

theorem forall_stores_ll8_iff (hvalid : c.ValidLl) (hfits : c.params.Fits) :
    (∀ r, c.Stores .ll8 r → r.1 + r.2 ≤ 8 * Psync.Device.fcollectPsyncLenPerTeam c.params) ↔
      c.Room .ll8 := by
  have hoff := halfOffset_ll8 hfits
  have hhalf := c.half_ll8_le (div_mul_le_self _ c.sizeofT)
  rw [area_ll8 hfits, forall_stores_iff hvalid.sizeofT_mem hvalid.acceptedCount (by omega), hoff]
  rfl

theorem forall_stores_ll128_iff (hvalid : c.ValidLl) (hfits : c.params.Fits) :
    (∀ r, c.Stores .ll128 r →
        r.1 + r.2 ≤ 8 * Psync.Device.fcollectLl128PsyncLenPerTeam c.params) ↔ c.Room .ll128 := by
  have h := hvalid.sizeofT_mem
  have harea : 8 * Psync.Device.fcollectLl128PsyncLenPerTeam c.params =
      128 * (2 * (c.params.npes * c.params.ll128Packets)) := by
    have hlen : Psync.Device.fcollectLl128PsyncLenPerTeam c.params = _ := hfits.fcollectLl128_eq
    rw [hlen]
    ring
  have hoff := halfOffset_ll128 h hfits
  have hhalf := half_ll128_le h
  have hblocks : (c.myPe + 1) * span .ll128 c.sizeofT c.nelems =
      128 * ((c.myPe + 1) * c.packets c.nelems) := Nat.mul_left_comm _ _ _
  rw [harea, forall_stores_iff h hvalid.acceptedCount (by omega), hoff, hblocks, ← Nat.mul_add]
  exact Nat.mul_le_mul_left_iff (by decide)

theorem room_ll8 (hle : c.msgsize ≤ c.params.fcollectLlThreshold) : c.Room .ll8 := by
  have hhalf := c.half_ll8_le (div_mul_le_self _ c.sizeofT)
  have hblocks := Nat.mul_le_mul c.myPe_succ_le (Nat.mul_le_mul_left 2 hle)
  rw [Nat.mul_left_comm c.params.npes] at hblocks
  rw [Room]
  omega

theorem room_ll128 (h : c.sizeofT ∈ [2, 4, 8])
    (hlt : c.msgsize < c.params.fcollectLl128Threshold) : c.Room .ll128 := by
  have hpackets : c.packets c.nelems ≤ c.params.ll128Packets := by
    simp only [packets, Params.ll128Packets, msgsize] at hlt ⊢
    rcases sizeofT_cases h with hs | hs | hs <;> rw [hs] at hlt ⊢ <;> omega
  have hhalf := half_ll128_le h
  have hblocks := Nat.mul_le_mul c.myPe_succ_le hpackets
  rw [Room]
  omega

theorem nvlsStores_le (hvalid : c.ValidNvlsLl) (hfits : c.params.Fits) {tid : ℕ} {r : ℕ × ℕ}
    (hr : r ∈ c.nvlsStores tid) :
    r.1 + r.2 ≤ 8 * Psync.Device.fcollectPsyncLenPerTeam c.params := by
  obtain ⟨h4, heven, hle, -⟩ := hvalid
  obtain ⟨i, hi, rfl⟩ := mem_map.mp hr
  have hgroup : 0 < c.groupSize := by
    rw [groupSize]
    split
    · exact Nat.one_pos
    · exact Nat.mul_pos (by decide) c.valid.numWarps_pos
  obtain ⟨hlt, j, rfl⟩ := (mem_strided (Nat.mul_pos Nat.two_pos hgroup)).mp hi
  obtain ⟨y, hy⟩ : ∃ y, c.msgsize = 8 * y := by
    have hmem := c.valid.sizeofT_mem
    simp only [mem_cons, not_mem_nil, or_false] at hmem
    refine dvd_of_mod_eq_zero ?_
    rcases hmem with hs | hs | hs | hs <;> rw [hs] at h4 <;> rw [msgsize, hs] <;> omega
  have hhalf : word _ ≤ _ := (mod_le _ _).trans (c.half_ll8_le le_rfl)
  have hpack : word (c.myPe * c.nelems * c.sizeofT) ≤ 8 * (c.myPe * y) :=
    calc word (c.myPe * c.nelems * c.sizeofT) ≤ c.myPe * c.nelems * c.sizeofT := mod_le _ _
      _ = c.myPe * c.msgsize := Nat.mul_assoc _ _ _
      _ = 8 * (c.myPe * y) := by rw [hy, Nat.mul_left_comm]
  have hblocks := Nat.mul_le_mul c.myPe_succ_le hle
  rw [hy, Nat.mul_left_comm, succ_mul c.myPe] at hblocks
  have hi : 2 * tid + 2 * c.groupSize * j = 2 * (tid + c.groupSize * j) := by ring
  rw [area_ll8 hfits]
  omega

theorem storesInside_iff (hfits : c.params.Fits) : c.StoresInside ↔ c.ForcedRoom := by
  constructor
  · intro hin hvalid
    constructor
    · intro halgo
      have hll8 : c.algo = .ll8 := by rw [algo, halgo]; exact if_pos hvalid
      rw [StoresInside, hll8] at hin
      exact (forall_stores_ll8_iff hvalid hfits).mp hin
    · intro halgo
      have hll128 : c.algo = .ll128 := by rw [algo, halgo]; exact if_pos hvalid
      rw [StoresInside, hll128] at hin
      exact (forall_stores_ll128_iff hvalid hfits).mp hin
  · intro hroom
    rw [StoresInside]
    split
    · next halgo =>
      obtain ⟨hvalid, hcase⟩ := of_algo_ll8 halgo
      exact (forall_stores_ll8_iff hvalid hfits).mpr (hcase.elim room_ll8 (hroom hvalid).1)
    · next halgo =>
      obtain ⟨hvalid, hcase⟩ := of_algo_ll128 halgo
      exact (forall_stores_ll128_iff hvalid hfits).mpr
        (hcase.elim (room_ll128 hvalid.sizeofT_mem) (hroom hvalid).2)
    · next halgo => exact fun tid _ r hr => nvlsStores_le (of_algo_nvlsLl halgo) hfits hr
    · trivial

end Room

/-- The stores of a fcollect are in the area of the team exactly if the pool is laid out and the
algorithm that the setting asks for, which is not checked against the threshold, has room. -/
theorem inside_iff (psyncPool : ℕ)
    (hpool : psyncPool + Psync.Host.psyncPoolBytes c.params ≤ 2 ^ 64) :
    c.Inside psyncPool ↔ c.params.Fits ∧ c.ForcedRoom := by
  constructor
  · rintro ⟨hlayout, hstores⟩
    exact ⟨hlayout.fits, (storesInside_iff hlayout.fits).mp hstores⟩
  · rintro ⟨hfits, hroom⟩
    exact ⟨hfits.layoutCorrect hpool, (storesInside_iff hfits).mpr hroom⟩

end Call

def Args.onNode (fcollectAlgo nelems : ℕ) : Args where
  params := .default
  fcollectAlgo := fcollectAlgo
  sizeofT := 4
  isHalfPrec := false
  nelems := nelems
  scope := .block
  numWarps := 4
  teamSize := 8
  myPe := 7
  fcollectCount := 1
  worldP2p := true
  nodeP2p := true
  teamP2p := true
  sharedTeamNode := true
  isTeamNode := true
  teamNode := some 8
  unmapped := fun _ => false
  nvls := false

theorem Args.valid_onNode {fcollectAlgo nelems : ℕ} (h : nelems < 2 ^ 32) :
    (Args.onNode fcollectAlgo nelems).Valid where
  sizeofT_mem := by simp [onNode]
  sizeofT_half := nofun
  numWarps_pos := succ_pos 3
  myPe_lt := lt_succ_self 7
  teamSize_le := le_rfl
  buffer_lt := by
    change 8 * (nelems * 4) < 2 ^ 62
    omega
  teamNode_pos := by
    rintro _ ⟨⟩
    decide
  p2p_of_node := fun _ _ => rfl

def Call.atThreshold : Call := ⟨Args.onNode 1 512, Args.valid_onNode (by decide)⟩

theorem Call.inside_atThreshold : Call.atThreshold.Inside (2 ^ 32) :=
  (Call.atThreshold.inside_iff (2 ^ 32) (by decide)).mpr
    ⟨by decide, fun _ => ⟨fun _ => Call.room_ll8 (by decide), nofun⟩⟩

def Call.overThreshold : Call := ⟨Args.onNode 1 2048, Args.valid_onNode (by decide)⟩

/-- A store goes beyond the area, though the pool is laid out. -/
theorem Call.not_inside_overThreshold :
    ¬ Call.overThreshold.Inside (2 ^ 32) ∧ Call.overThreshold.params.LayoutCorrect (2 ^ 32) ∧
      Call.overThreshold.algo = .ll8 ∧ ∃ r, Call.overThreshold.Stores .ll8 r ∧
        8 * Psync.Device.fcollectPsyncLenPerTeam Call.overThreshold.params < r.1 + r.2 := by
  have hfits : Call.overThreshold.params.Fits := by decide
  have hvalid : Call.overThreshold.ValidLl := by decide
  have hroom : ¬ Call.overThreshold.Room .ll8 := by
    rw [Call.Room]
    decide
  have hnot := mt (Call.forall_stores_ll8_iff hvalid hfits).mp hroom
  push Not at hnot
  refine ⟨?_, hfits.layoutCorrect (by decide), by decide, hnot⟩
  rintro ⟨-, hstores⟩
  exact hroom (((Call.storesInside_iff hfits).mp hstores hvalid).1 rfl)

end Nvshmem.FcollectPsync
