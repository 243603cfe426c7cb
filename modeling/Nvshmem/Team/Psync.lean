import Nvshmem.Intervals.Region

/-! # The synchronization space of the teams

A pool in the symmetric heap has a part for each team index, and in it an area for each collective
operation. The host and the device compute the addresses of the areas on their own, from sizes that
the user can set. All of it is arithmetic on 64-bit words.
-/

namespace Nvshmem.Psync

open Intervals List List Nat

/-- The value of an operation on `size_t`. -/
def word (x : ℕ) : ℕ := x % 2 ^ 64

/-- `SYNC_SIZE` -/
def syncSize : ℕ := 27648

/-- `NVSHMEMI_SYNC_SIZE` -/
def nvshmemiSyncSize : ℕ := 2 * syncSize

/-- `NVSHMEMI_BCAST_SYNC_SIZE` -/
def bcastSyncSize : ℕ := 10 * syncSize

/-- `NVSHMEMI_ALLTOALL_SYNC_SIZE` -/
def alltoallSyncSize : ℕ := syncSize

def sizeofLong : ℕ := 8

/-- `NVSHMEMI_TEAM_ROUND_UP_DIV` -/
def roundUpDiv (x y : ℕ) : ℕ := word (x + y - 1) / y

/-- `NVSHMEMI_TEAM_ROUND_UP` -/
def roundUp (x y : ℕ) : ℕ := word (roundUpDiv x y * y)

/-- `NVSHMEMI_FCOLLECT_LL128_CALC_PSYNC_SIZE` for a type of the size. -/
def ll128CalcPsyncSize (x sizeofT : ℕ) : ℕ :=
  word (roundUp x (120 / sizeofT) + word (8 / sizeofT * roundUpDiv x (120 / sizeofT)))

/-- What the host accepts: it asserts that the threshold is a multiple of 8, and it allocates an
array of pointers to the teams. -/
structure Accepted (npes maxTeams llThreshold ll128Threshold reduceScratchSize : ℕ) : Prop where
  npes_pos : 0 < npes
  npes_lt : 4 * npes < 2 ^ 31
  maxTeams_pos : 0 < maxTeams
  maxTeams_lt : 8 * maxTeams < 2 ^ 64
  llThreshold_lt : llThreshold < 2 ^ 64
  llThreshold_mod : llThreshold % sizeofLong = 0
  ll128Threshold_lt : ll128Threshold < 2 ^ 64
  reduceScratchSize_lt : reduceScratchSize < 2 ^ 64

structure Params where
  npes : ℕ
  maxTeams : ℕ
  fcollectLlThreshold : ℕ
  fcollectLl128Threshold : ℕ
  reduceScratchSize : ℕ
  accepted :
    Accepted npes maxTeams fcollectLlThreshold fcollectLl128Threshold reduceScratchSize

structure Team where
  teamIdx : ℕ
  rdxnCount : ℕ
  alltoallCount : ℕ

/-- `nvshmemi_team_op_t` -/
inductive TeamOp where
  | sync | reduce | bcast | fcollect | alltoall | fcollect128 | p2pSyncOnStream
deriving DecidableEq

namespace Host

variable (p : Params)

def fcollectPsyncLenPerTeam : ℕ := word (2 * 2 * p.npes * p.fcollectLlThreshold) / sizeofLong

def fcollectLl128PsyncLenPerTeam : ℕ :=
  word (ll128CalcPsyncSize p.fcollectLl128Threshold 1 * 2 * p.npes) / sizeofLong

def psyncLenPerTeam : ℕ :=
  word (4 * nvshmemiSyncSize + p.reduceScratchSize / sizeofLong + bcastSyncSize +
    fcollectPsyncLenPerTeam p + 2 * alltoallSyncSize + fcollectLl128PsyncLenPerTeam p + p.npes)

def psyncOffset (team : Team) : TeamOp → ℕ
  | .sync => 0
  | .reduce =>
    4 * nvshmemiSyncSize + p.reduceScratchSize / 2 / sizeofLong * (team.rdxnCount % 2)
  | .bcast => 4 * nvshmemiSyncSize + p.reduceScratchSize / sizeofLong
  | .fcollect => 4 * nvshmemiSyncSize + p.reduceScratchSize / sizeofLong + bcastSyncSize
  | .alltoall =>
    4 * nvshmemiSyncSize + p.reduceScratchSize / sizeofLong + bcastSyncSize +
      fcollectPsyncLenPerTeam p + alltoallSyncSize * (team.alltoallCount % 2)
  | .fcollect128 =>
    4 * nvshmemiSyncSize + p.reduceScratchSize / sizeofLong + bcastSyncSize +
      fcollectPsyncLenPerTeam p + 2 * alltoallSyncSize
  | .p2pSyncOnStream =>
    4 * nvshmemiSyncSize + p.reduceScratchSize / sizeofLong + bcastSyncSize +
      fcollectPsyncLenPerTeam p + 2 * alltoallSyncSize + fcollectLl128PsyncLenPerTeam p

/-- `nvshmemi_team_get_psync` of the host. -/
def teamGetPsync (psyncPool : ℕ) (team : Team) (op : TeamOp) : ℕ :=
  word (psyncPool + sizeofLong * word (team.teamIdx * psyncLenPerTeam p) +
    sizeofLong * word (psyncOffset p team op))

def psyncPoolBytes : ℕ := word (sizeofLong * word (p.maxTeams * psyncLenPerTeam p))

end Host

namespace Device

variable (p : Params)

def fcollectPsyncLenPerTeam : ℕ := word (2 * 2 * p.npes * p.fcollectLlThreshold) / sizeofLong

def fcollectLl128PsyncLenPerTeam : ℕ :=
  word (ll128CalcPsyncSize p.fcollectLl128Threshold 1 * 2 * p.npes) / sizeofLong

def psyncLenPerTeam : ℕ :=
  word (4 * nvshmemiSyncSize + p.reduceScratchSize / sizeofLong + bcastSyncSize +
    fcollectPsyncLenPerTeam p + 2 * alltoallSyncSize + fcollectLl128PsyncLenPerTeam p + p.npes)

def psyncOffset (team : Team) : TeamOp → ℕ
  | .sync => 0
  | .reduce =>
    4 * nvshmemiSyncSize + p.reduceScratchSize / 2 / sizeofLong * (team.rdxnCount % 2)
  | .bcast => 4 * nvshmemiSyncSize + p.reduceScratchSize / sizeofLong
  | .fcollect => 4 * nvshmemiSyncSize + p.reduceScratchSize / sizeofLong + bcastSyncSize
  | .alltoall =>
    4 * nvshmemiSyncSize + p.reduceScratchSize / sizeofLong + bcastSyncSize +
      fcollectPsyncLenPerTeam p + alltoallSyncSize * (team.alltoallCount % 2)
  | .fcollect128 =>
    4 * nvshmemiSyncSize + p.reduceScratchSize / sizeofLong + bcastSyncSize +
      fcollectPsyncLenPerTeam p + 2 * alltoallSyncSize
  | .p2pSyncOnStream =>
    4 * nvshmemiSyncSize + p.reduceScratchSize / sizeofLong + bcastSyncSize +
      fcollectPsyncLenPerTeam p + 2 * alltoallSyncSize + fcollectLl128PsyncLenPerTeam p

/-- `nvshmemi_team_get_psync` of the device. -/
def teamGetPsync (psyncPool : ℕ) (team : Team) (op : TeamOp) : ℕ :=
  word (psyncPool + sizeofLong * word (team.teamIdx * psyncLenPerTeam p) +
    sizeofLong * word (psyncOffset p team op))

theorem teamGetPsync_eq {psyncPool : ℕ} {team : Team} {op : TeamOp} :
    teamGetPsync p psyncPool team op = Host.teamGetPsync p psyncPool team op := by
  cases op <;> rfl

end Device

/-- The areas of a team. Those that successive collectives use in turn have two halves. -/
inductive Area where
  | sync (k : Fin 4)
  | reduce (half : Fin 2)
  | bcast
  | fcollect (half : Fin 2)
  | alltoall (half : Fin 2)
  | fcollect128
  | p2pSyncOnStream
deriving DecidableEq

def Area.all : List Area :=
  [.sync 0, .sync 1, .sync 2, .sync 3, .reduce 0, .reduce 1, .bcast, .fcollect 0, .fcollect 1,
    .alltoall 0, .alltoall 1, .fcollect128, .p2pSyncOnStream]

theorem Area.mem_all (a : Area) : a ∈ Area.all := by
  cases a with
  | sync k => revert k; decide
  | reduce half => revert half; decide
  | fcollect half => revert half; decide
  | alltoall half => revert half; decide
  | _ => decide

namespace Params

variable (p : Params)

def ll128Packets : ℕ := (p.fcollectLl128Threshold + 119) / 120

/-- An area of the team with an index and a number of members, as the address of its first byte and
its length. The lengths are what the operations use. -/
def region (psyncPool teamIdx size : ℕ) : Area → ℕ × ℕ
  | .sync k =>
    (Host.teamGetPsync p psyncPool ⟨teamIdx, 0, 0⟩ .sync + sizeofLong * (nvshmemiSyncSize * k),
      sizeofLong * nvshmemiSyncSize)
  | .reduce half =>
    (Host.teamGetPsync p psyncPool ⟨teamIdx, half, 0⟩ .reduce,
      sizeofLong * (p.reduceScratchSize / 2 / sizeofLong))
  | .bcast =>
    (Host.teamGetPsync p psyncPool ⟨teamIdx, 0, 0⟩ .bcast, sizeofLong * bcastSyncSize)
  | .fcollect half =>
    (Host.teamGetPsync p psyncPool ⟨teamIdx, 0, 0⟩ .fcollect +
      2 * size * p.fcollectLlThreshold * half, 2 * size * p.fcollectLlThreshold)
  | .alltoall half =>
    (Host.teamGetPsync p psyncPool ⟨teamIdx, 0, half⟩ .alltoall, sizeofLong * alltoallSyncSize)
  | .fcollect128 =>
    (Host.teamGetPsync p psyncPool ⟨teamIdx, 0, 0⟩ .fcollect128,
      2 * p.npes * (128 * p.ll128Packets))
  | .p2pSyncOnStream =>
    (Host.teamGetPsync p psyncPool ⟨teamIdx, 0, 0⟩ .p2pSyncOnStream, sizeofLong * p.npes)

/-- The areas of all teams are inside the pool and have no common byte, and the host and the device
agree on where they are. The teams may have any number of members. -/
structure LayoutCorrect (psyncPool : ℕ) : Prop where
  inside : ∀ size : ℕ → ℕ, (∀ i, size i ≤ p.npes) → ∀ i < p.maxTeams, ∀ a,
    psyncPool ≤ (p.region psyncPool i (size i) a).1 ∧
      (p.region psyncPool i (size i) a).1 + (p.region psyncPool i (size i) a).2 ≤
        psyncPool + Host.psyncPoolBytes p
  apart : ∀ size : ℕ → ℕ, (∀ i, size i ≤ p.npes) → ∀ i < p.maxTeams, ∀ i' < p.maxTeams,
    ∀ a a', (i, a) ≠ (i', a') →
      Apart (p.region psyncPool i (size i) a) (p.region psyncPool i' (size i') a')
  agree : ∀ team op, Host.teamGetPsync p psyncPool team op =
    Device.teamGetPsync p psyncPool team op

def len : ℕ :=
  4 * nvshmemiSyncSize + p.reduceScratchSize / 8 + bcastSyncSize +
    p.npes * p.fcollectLlThreshold / 2 + 2 * alltoallSyncSize + 32 * p.npes * p.ll128Packets +
    p.npes

/-- The length of the pool in bytes is in the range of `size_t`. -/
def Fits : Prop := 8 * p.maxTeams * p.len < 2 ^ 64

instance : Decidable p.Fits := inferInstanceAs (Decidable (_ < _))

variable {p}

theorem even_npes_mul : 2 * (p.npes * p.fcollectLlThreshold / 2) =
    p.npes * p.fcollectLlThreshold := by
  obtain ⟨u, hu⟩ := dvd_of_mod_eq_zero p.accepted.llThreshold_mod
  have hx : p.npes * p.fcollectLlThreshold = 8 * (p.npes * u) := by
    rw [hu, sizeofLong]
    ring
  omega

theorem ll128Threshold_add_lt (h : 256 * (p.npes * p.ll128Packets) < 2 ^ 64) :
    p.fcollectLl128Threshold + 119 < 2 ^ 64 := by
  have hle : p.ll128Packets ≤ p.npes * p.ll128Packets :=
    Nat.le_mul_of_pos_left _ p.accepted.npes_pos
  have hpackets : p.ll128Packets = (p.fcollectLl128Threshold + 119) / 120 := rfl
  omega

theorem word_of_lt {x : ℕ} (h : x < 2 ^ 64) : word x = x := mod_eq_of_lt h

theorem ll128CalcPsyncSize_eq (h : p.fcollectLl128Threshold + 119 < 2 ^ 64)
    (h' : 128 * p.ll128Packets < 2 ^ 64) :
    ll128CalcPsyncSize p.fcollectLl128Threshold 1 = 128 * p.ll128Packets := by
  have hdiv : roundUpDiv p.fcollectLl128Threshold 120 = p.ll128Packets := by
    rw [roundUpDiv, word_of_lt (by omega)]
    rfl
  simp only [ll128CalcPsyncSize, roundUp, Nat.div_one, hdiv]
  rw [word_of_lt (x := p.ll128Packets * 120) (by omega),
    word_of_lt (x := 8 * p.ll128Packets) (by omega), word_of_lt (by omega)]
  omega

theorem fcollectLl128PsyncLenPerTeam_eq (h : 256 * (p.npes * p.ll128Packets) < 2 ^ 64) :
    Host.fcollectLl128PsyncLenPerTeam p = 32 * p.npes * p.ll128Packets := by
  have hle : p.ll128Packets ≤ p.npes * p.ll128Packets :=
    Nat.le_mul_of_pos_left _ p.accepted.npes_pos
  have hsize := ll128CalcPsyncSize_eq (p := p) (ll128Threshold_add_lt h) (by omega)
  have htotal : 128 * p.ll128Packets * 2 * p.npes = 256 * (p.npes * p.ll128Packets) := by ring
  have hmul : 32 * p.npes * p.ll128Packets = 32 * (p.npes * p.ll128Packets) := Nat.mul_assoc ..
  rw [Host.fcollectLl128PsyncLenPerTeam, hsize, htotal, word_of_lt h, sizeofLong]
  omega

namespace Fits

theorem len_lt (h : p.Fits) : 8 * p.len < 2 ^ 64 := by
  have hle : 8 * p.len ≤ 8 * p.maxTeams * p.len := by
    rw [Nat.mul_assoc]
    exact Nat.mul_le_mul_left 8 (Nat.le_mul_of_pos_left _ p.accepted.maxTeams_pos)
  exact hle.trans_lt h

theorem fcollect_eq (h : p.Fits) :
    Host.fcollectPsyncLenPerTeam p = p.npes * p.fcollectLlThreshold / 2 := by
  have hlen := h.len_lt
  have heven := p.even_npes_mul
  rw [len] at hlen
  rw [Host.fcollectPsyncLenPerTeam, Nat.mul_assoc, word_of_lt (by omega), sizeofLong]
  omega

theorem fcollectLl128_eq (h : p.Fits) :
    Host.fcollectLl128PsyncLenPerTeam p = 32 * p.npes * p.ll128Packets := by
  have hlen := h.len_lt
  rw [len] at hlen
  have hmul : 32 * p.npes * p.ll128Packets = 32 * (p.npes * p.ll128Packets) := Nat.mul_assoc ..
  exact fcollectLl128PsyncLenPerTeam_eq (by omega)

theorem psyncLenPerTeam_eq (h : p.Fits) : Host.psyncLenPerTeam p = p.len := by
  have hlen := h.len_lt
  rw [Host.psyncLenPerTeam, h.fcollect_eq, h.fcollectLl128_eq]
  exact word_of_lt (x := p.len) (by omega)

theorem psyncPoolBytes_eq (h : p.Fits) : Host.psyncPoolBytes p = 8 * p.maxTeams * p.len := by
  have hfits : 8 * p.maxTeams * p.len < 2 ^ 64 := h
  rw [Nat.mul_assoc] at hfits
  rw [Host.psyncPoolBytes, h.psyncLenPerTeam_eq, sizeofLong, word_of_lt (x := p.maxTeams * p.len)
    (by omega), word_of_lt hfits, Nat.mul_assoc]

end Fits

def place (p : Params) (size : ℕ) : Area → ℕ × ℕ
  | .sync k => (8 * (nvshmemiSyncSize * k), 8 * nvshmemiSyncSize)
  | .reduce half =>
    (8 * (4 * nvshmemiSyncSize + p.reduceScratchSize / 2 / 8 * half),
      8 * (p.reduceScratchSize / 2 / 8))
  | .bcast => (8 * (4 * nvshmemiSyncSize + p.reduceScratchSize / 8), 8 * bcastSyncSize)
  | .fcollect half =>
    (8 * (4 * nvshmemiSyncSize + p.reduceScratchSize / 8 + bcastSyncSize) +
      2 * size * p.fcollectLlThreshold * half, 2 * size * p.fcollectLlThreshold)
  | .alltoall half =>
    (8 * (4 * nvshmemiSyncSize + p.reduceScratchSize / 8 + bcastSyncSize +
      p.npes * p.fcollectLlThreshold / 2 + alltoallSyncSize * half), 8 * alltoallSyncSize)
  | .fcollect128 =>
    (8 * (4 * nvshmemiSyncSize + p.reduceScratchSize / 8 + bcastSyncSize +
      p.npes * p.fcollectLlThreshold / 2 + 2 * alltoallSyncSize),
      2 * p.npes * (128 * p.ll128Packets))
  | .p2pSyncOnStream =>
    (8 * (4 * nvshmemiSyncSize + p.reduceScratchSize / 8 + bcastSyncSize +
      p.npes * p.fcollectLlThreshold / 2 + 2 * alltoallSyncSize +
      32 * p.npes * p.ll128Packets), 8 * p.npes)

theorem isChain_place {size : ℕ} (hsize : size ≤ p.npes) :
    (Area.all.map (p.place size) ++ [(8 * p.len, 0)]).IsChain
      fun (r r' : ℕ × ℕ) => r.1 + r.2 ≤ r'.1 := by
  have heven := p.even_npes_mul
  have hle : size * p.fcollectLlThreshold ≤ p.npes * p.fcollectLlThreshold :=
    Nat.mul_le_mul_right _ hsize
  have hmul : 2 * size * p.fcollectLlThreshold = 2 * (size * p.fcollectLlThreshold) :=
    Nat.mul_assoc ..
  have hll128 : 2 * p.npes * (128 * p.ll128Packets) = 8 * (32 * p.npes * p.ll128Packets) := by ring
  simp only [Area.all, map_cons, map_nil, cons_append, nil_append, place, len,
    isChain_cons_cons, isChain_singleton, and_true, Fin.val_zero, Fin.val_one,
    Fin.val_two, hmul, hll128, Nat.mul_zero, Nat.mul_one]
  refine ⟨?_, ?_, ?_, ?_, ?_, ?_, ?_, ?_, ?_, ?_, ?_, ?_, ?_⟩ <;> omega

theorem pairwise_place {size : ℕ} (hsize : size ≤ p.npes) :
    (Area.all.map (p.place size)).Pairwise (fun (r r' : ℕ × ℕ) => r.1 + r.2 ≤ r'.1) ∧
      ∀ r ∈ Area.all.map (p.place size), r.1 + r.2 ≤ 8 * p.len := by
  have htrans : IsTrans (ℕ × ℕ) fun (r r' : ℕ × ℕ) => r.1 + r.2 ≤ r'.1 :=
    ⟨fun r r' r'' h h' => h.trans ((Nat.le_add_right _ _).trans h')⟩
  have hpairwise := (isChain_place hsize).pairwise
  rw [pairwise_append] at hpairwise
  exact ⟨hpairwise.1, fun r hr => hpairwise.2.2 r hr _ (mem_singleton_self _)⟩

theorem apart_place {size : ℕ} (hsize : size ≤ p.npes) {a a' : Area} (h : a ≠ a') :
    Apart (p.place size a) (p.place size a') := by
  have hpairwise : Area.all.Pairwise fun a a' => Apart (p.place size a) (p.place size a') :=
    (pairwise_map.mp (pairwise_place hsize).1).imp Or.inl
  have hsymm : Std.Symm fun a a' => Apart (p.place size a) (p.place size a') :=
    ⟨fun _ _ => Or.symm⟩
  exact hpairwise.forall a.mem_all a'.mem_all h

theorem place_le {size : ℕ} (hsize : size ≤ p.npes) (a : Area) :
    (p.place size a).1 + (p.place size a).2 ≤ 8 * p.len :=
  (pairwise_place hsize).2 _ (mem_map_of_mem a.mem_all)

section Region

variable {psyncPool teamIdx size : ℕ}

theorem psyncOffset_lt (h : p.Fits) (team : Team) (op : TeamOp) :
    Host.psyncOffset p team op < p.len := by
  have hpos := p.accepted.npes_pos
  have hhalf : ∀ x c, x * (c % 2) ≤ x := fun x c =>
    (Nat.mul_le_mul_left x (le_of_lt_succ (mod_lt c Nat.two_pos))).trans_eq (Nat.mul_one x)
  have hreduce := hhalf (p.reduceScratchSize / 2 / 8) team.rdxnCount
  have halltoall := hhalf alltoallSyncSize team.alltoallCount
  cases op <;> simp only [Host.psyncOffset, h.fcollect_eq, h.fcollectLl128_eq, len, sizeofLong] <;>
    omega

theorem teamGetPsync_eq (h : p.Fits) (hpool : psyncPool + Host.psyncPoolBytes p ≤ 2 ^ 64)
    {team : Team} (hteam : team.teamIdx < p.maxTeams) (op : TeamOp) :
    Host.teamGetPsync p psyncPool team op =
      psyncPool + 8 * (team.teamIdx * p.len) + 8 * Host.psyncOffset p team op := by
  have hoff := psyncOffset_lt h team op
  have hnext : (team.teamIdx + 1) * p.len ≤ p.maxTeams * p.len := Nat.mul_le_mul_right _ hteam
  rw [succ_mul] at hnext
  rw [h.psyncPoolBytes_eq, Nat.mul_assoc] at hpool
  rw [Host.teamGetPsync, h.psyncLenPerTeam_eq, sizeofLong,
    word_of_lt (x := team.teamIdx * p.len) (by omega),
    word_of_lt (x := Host.psyncOffset p team op) (by omega), word_of_lt (by omega)]

theorem region_eq (h : p.Fits) (hpool : psyncPool + Host.psyncPoolBytes p ≤ 2 ^ 64)
    (hidx : teamIdx < p.maxTeams) (a : Area) : p.region psyncPool teamIdx size a =
      (psyncPool + 8 * (teamIdx * p.len) + (p.place size a).1, (p.place size a).2) := by
  have hget : ∀ rdxn alltoall op, Host.teamGetPsync p psyncPool ⟨teamIdx, rdxn, alltoall⟩ op =
      psyncPool + 8 * (teamIdx * p.len) + 8 * Host.psyncOffset p ⟨teamIdx, rdxn, alltoall⟩ op :=
    fun _ _ op => teamGetPsync_eq h hpool hidx op
  have hmod : ∀ half : Fin 2, (half : ℕ) % 2 = half := fun half => mod_eq_of_lt half.isLt
  cases a <;> simp only [region, place, hget, Host.psyncOffset, h.fcollect_eq, h.fcollectLl128_eq,
    sizeofLong, hmod, Nat.mul_zero, Nat.add_zero, Nat.add_assoc]

end Region

theorem Fits.layoutCorrect (h : p.Fits) {psyncPool : ℕ}
    (hpool : psyncPool + Host.psyncPoolBytes p ≤ 2 ^ 64) : p.LayoutCorrect psyncPool := by
  refine ⟨?_, ?_, fun _ _ => (Device.teamGetPsync_eq p).symm⟩
  · intro size hsize i hi a
    have hnext : (i + 1) * p.len ≤ p.maxTeams * p.len := Nat.mul_le_mul_right _ hi
    have hplace := place_le (hsize i) a
    rw [succ_mul] at hnext
    rw [region_eq h hpool hi, h.psyncPoolBytes_eq, Nat.mul_assoc]
    exact ⟨by omega, by omega⟩
  · intro size hsize i hi i' hi' a a' hne
    have hplace := place_le (hsize i) a
    have hplace' := place_le (hsize i') a'
    rw [region_eq h hpool hi, region_eq h hpool hi']
    simp only [Apart]
    rcases Nat.lt_trichotomy i i' with hlt | rfl | hgt
    · -- the part of the one team ends before that of the other begins
      have hnext : (i + 1) * p.len ≤ i' * p.len := Nat.mul_le_mul_right _ hlt
      rw [succ_mul] at hnext
      left
      omega
    · have hareas : a ≠ a' := fun heq => hne (by rw [heq])
      have hapart := apart_place (hsize i) hareas
      simp only [Apart] at hapart
      omega
    · have hnext : (i' + 1) * p.len ≤ i * p.len := Nat.mul_le_mul_right _ hgt
      rw [succ_mul] at hnext
      right
      omega

section Counting

variable {psyncPool : ℕ}

theorem region_snd {i size : ℕ} (a : Area) :
    (p.region psyncPool i size a).2 = (p.place size a).2 := by
  cases a <;> rfl

theorem sum_place : 8 * p.len ≤ ((Area.all.map (p.place p.npes)).map Prod.snd).sum + 8 := by
  have hmul : 2 * p.npes * p.fcollectLlThreshold = 2 * (p.npes * p.fcollectLlThreshold) :=
    Nat.mul_assoc ..
  have hll128 : 2 * p.npes * (128 * p.ll128Packets) = 8 * (32 * p.npes * p.ll128Packets) := by ring
  simp only [Area.all, map_cons, map_nil, sum_cons, sum_nil, place, len, hmul,
    hll128]
  omega

theorem sum_flatMap_eq {f : ℕ → List (ℕ × ℕ)} {c : ℕ} (h : ∀ i, ((f i).map Prod.snd).sum = c)
    (n : ℕ) : (((List.range n).flatMap f).map Prod.snd).sum = n * c := by
  induction n with
  | zero => simp
  | succ n ih =>
    rw [range_succ, flatMap_append, map_append, List.sum_append, ih,
      flatMap_singleton, h, succ_mul]

namespace LayoutCorrect

variable (h : p.LayoutCorrect psyncPool)

include h

theorem length_le {i : ℕ} (hi : i < p.maxTeams) (a : Area) :
    (p.place p.npes a).2 ≤ Host.psyncPoolBytes p := by
  have hinside := h.inside (fun _ => p.npes) (fun _ => le_rfl) i hi a
  rw [region_snd] at hinside
  omega

theorem sum_le : p.maxTeams * ((Area.all.map (p.place p.npes)).map Prod.snd).sum ≤
    Host.psyncPoolBytes p := by
  have hinside := h.inside (fun _ => p.npes) fun _ => le_rfl
  have hapart := h.apart (fun _ => p.npes) fun _ => le_rfl
  have hnodup : Area.all.Nodup := by decide
  -- the space before the pool is one more region
  have hsum : ((((0, psyncPool) :: (range p.maxTeams).flatMap fun i =>
      Area.all.map (p.region psyncPool i p.npes)).map Prod.snd).sum) ≤
        psyncPool + Host.psyncPoolBytes p := sum_length_le ?_ ?_
  · rw [map_cons, sum_cons, sum_flatMap_eq (c := _) fun i => ?_] at hsum
    · exact Nat.le_of_add_le_add_left hsum
    · rw [map_map]
      exact congrArg sum (map_congr_left fun a _ => region_snd a)
  · rw [pairwise_cons, pairwise_flatMap]
    refine ⟨?_, ?_, ?_⟩
    · intro r hr
      obtain ⟨i, hi, hr⟩ := mem_flatMap.mp hr
      obtain ⟨a, -, rfl⟩ := mem_map.mp hr
      left
      rw [Nat.zero_add]
      exact (hinside i (mem_range.mp hi) a).1
    · intro i hi
      rw [pairwise_map]
      refine hnodup.imp fun hne => hapart i (mem_range.mp hi) i (mem_range.mp hi) _ _ ?_
      exact fun heq => hne (Prod.ext_iff.mp heq).2
    · refine List.Pairwise.imp_of_mem ?_ nodup_range
      intro i i' hi hi' hne r hr r' hr'
      obtain ⟨a, -, rfl⟩ := mem_map.mp hr
      obtain ⟨a', -, rfl⟩ := mem_map.mp hr'
      exact hapart i (mem_range.mp hi) i' (mem_range.mp hi') a a'
        fun heq => hne (Prod.ext_iff.mp heq).1
  · intro r hr
    rcases mem_cons.mp hr with rfl | hr
    · omega
    · obtain ⟨i, hi, hr⟩ := mem_flatMap.mp hr
      obtain ⟨a, -, rfl⟩ := mem_map.mp hr
      exact (hinside i (mem_range.mp hi) a).2

end LayoutCorrect

end Counting

/-- The length of the pool is the exact one up to a multiple of `2 ^ 64`. -/
theorem psyncPoolBytes_eq_mod (h : 256 * (p.npes * p.ll128Packets) < 2 ^ 64) :
    Host.psyncPoolBytes p = 8 * p.maxTeams * p.len % 2 ^ 64 := by
  have hfcollect : 8 * Host.fcollectPsyncLenPerTeam p =
      8 * (p.npes * p.fcollectLlThreshold / 2) % 2 ^ 64 := by
    rw [Host.fcollectPsyncLenPerTeam, Nat.mul_assoc, word, sizeofLong]
    omega
  have hlen : 8 * Host.psyncLenPerTeam p % 2 ^ 64 = 8 * p.len % 2 ^ 64 := by
    rw [Host.psyncLenPerTeam, fcollectLl128PsyncLenPerTeam_eq h, len, word, sizeofLong]
    omega
  calc Host.psyncPoolBytes p
      = 8 * (p.maxTeams * Host.psyncLenPerTeam p) % 2 ^ 64 := mul_mod_mod ..
    _ = p.maxTeams * (8 * Host.psyncLenPerTeam p % 2 ^ 64) % 2 ^ 64 := by
      rw [mul_mod_mod, Nat.mul_left_comm]
    _ = 8 * p.maxTeams * p.len % 2 ^ 64 := by
      rw [hlen, mul_mod_mod, Nat.mul_left_comm, ← Nat.mul_assoc]

theorem LayoutCorrect.fits {psyncPool : ℕ} (h : p.LayoutCorrect psyncPool) : p.Fits := by
  have hword : Host.psyncPoolBytes p < 2 ^ 64 := mod_lt _ (by decide)
  have hll128 : 2 * p.npes * (128 * p.ll128Packets) ≤ Host.psyncPoolBytes p :=
    h.length_le p.accepted.maxTeams_pos .fcollect128
  have hmul : 2 * p.npes * (128 * p.ll128Packets) = 256 * (p.npes * p.ll128Packets) := by ring
  have hmod := psyncPoolBytes_eq_mod (p := p) (by omega)
  have hsum := h.sum_le
  have hparts : p.maxTeams * (8 * p.len) ≤
      p.maxTeams * ((Area.all.map (p.place p.npes)).map Prod.snd).sum + p.maxTeams * 8 := by
    rw [← Nat.mul_add]
    exact Nat.mul_le_mul_left _ sum_place
  have hassoc : 8 * p.maxTeams * p.len = p.maxTeams * (8 * p.len) := by ring
  have hteams := p.accepted.maxTeams_lt
  rw [Fits]
  omega

end Params

/-- The areas of the teams are disjoint and inside the pool exactly if the length of the pool in
bytes is in the range of `size_t`. -/
theorem layoutCorrect_iff (p : Params) (psyncPool : ℕ)
    (hpool : psyncPool + Host.psyncPoolBytes p ≤ 2 ^ 64) : p.LayoutCorrect psyncPool ↔ p.Fits :=
  ⟨Params.LayoutCorrect.fits, fun h => h.layoutCorrect hpool⟩

theorem accepted_default : Accepted 8 32 2048 0 (2 ^ 19) := by
  constructor <;> decide

def Params.default : Params := ⟨8, 32, 2048, 0, 2 ^ 19, accepted_default⟩

theorem layoutCorrect_default : Params.default.LayoutCorrect (2 ^ 32) :=
  (layoutCorrect_iff Params.default (2 ^ 32) (by decide)).mpr (by decide)

theorem accepted_hugeThreshold : Accepted 1 32 (2 ^ 62) 0 (2 ^ 19) := by
  constructor <;> decide

/-- A threshold of `2 ^ 62` bytes, for which the space of a fcollect wraps around to nothing. -/
def Params.hugeThreshold : Params := ⟨1, 32, 2 ^ 62, 0, 2 ^ 19, accepted_hugeThreshold⟩

/-- The area of a fcollect begins where that of an alltoall does, and is longer than the pool. -/
theorem not_layoutCorrect_hugeThreshold : ¬ Params.hugeThreshold.LayoutCorrect (2 ^ 32) ∧
    (Params.hugeThreshold.region (2 ^ 32) 0 1 (.fcollect 0)).1 =
      (Params.hugeThreshold.region (2 ^ 32) 0 1 (.alltoall 0)).1 := by
  constructor
  · intro h
    have hapart := h.apart (fun _ => 1) (fun _ => le_rfl) 0 (by decide) 0 (by decide) (.fcollect 0)
      (.alltoall 0) (by decide)
    exact absurd hapart (by decide)
  · decide

namespace Params

variable {p : Params}

structure MultiplesOf16 (p : Params) : Prop where
  llThreshold : p.fcollectLlThreshold % 16 = 0
  ll128Threshold : p.fcollectLl128Threshold % 16 = 0
  reduceScratchSize : p.reduceScratchSize % 16 = 0

/-- The areas that are read and written in vectors of 16 bytes begin at a multiple of 16. -/
def Aligned (p : Params) (psyncPool : ℕ) (team : Team) : Prop :=
  ∀ op ∈ [TeamOp.reduce, .bcast, .fcollect, .fcollect128],
    Device.teamGetPsync p psyncPool team op % 16 = 0

theorem fcollectPsyncLenPerTeam_mod (h : p.fcollectLlThreshold % 16 = 0) :
    Host.fcollectPsyncLenPerTeam p % 2 = 0 := by
  obtain ⟨u, hu⟩ := dvd_of_mod_eq_zero h
  have hmul : 2 * 2 * p.npes * p.fcollectLlThreshold = 64 * (p.npes * u) := by rw [hu]; ring
  rw [Host.fcollectPsyncLenPerTeam, word, sizeofLong]
  omega

theorem fcollectLl128PsyncLenPerTeam_mod : Host.fcollectLl128PsyncLenPerTeam p % 2 = 0 := by
  obtain ⟨k, hk⟩ : ∃ k, ll128CalcPsyncSize p.fcollectLl128Threshold 1 = 128 * k := by
    simp only [ll128CalcPsyncSize, roundUp, Nat.div_one, word]
    exact dvd_of_mod_eq_zero (by omega)
  have hmul : 128 * k * 2 * p.npes = 256 * (p.npes * k) := by ring
  rw [Host.fcollectLl128PsyncLenPerTeam, hk, word, sizeofLong]
  omega

theorem psyncLenPerTeam_mod (h : p.MultiplesOf16) :
    Host.psyncLenPerTeam p % 2 = p.npes % 2 := by
  have hfcollect := fcollectPsyncLenPerTeam_mod h.llThreshold
  have hll128 := p.fcollectLl128PsyncLenPerTeam_mod
  have hreduce := h.reduceScratchSize
  simp only [Host.psyncLenPerTeam, word, sizeofLong, nvshmemiSyncSize, bcastSyncSize]
  omega

theorem teamGetPsync_mod {psyncPool : ℕ} (hpool : psyncPool % 512 = 0) (team : Team)
    (op : TeamOp) : Device.teamGetPsync p psyncPool team op % 16 = 0 ↔
      (team.teamIdx * Host.psyncLenPerTeam p + Host.psyncOffset p team op) % 2 = 0 := by
  rw [Device.teamGetPsync_eq, Host.teamGetPsync, word, word, word, sizeofLong]
  omega

end Params

/-- The areas are aligned exactly if the words of the teams before are even in number and, in every
other reduction, so are those of half the space for reductions. -/
theorem aligned_iff (p : Params) (h : p.MultiplesOf16) (psyncPool : ℕ)
    (hpool : psyncPool % 512 = 0) (team : Team) : p.Aligned psyncPool team ↔
      team.teamIdx * p.npes % 2 = 0 ∧ p.reduceScratchSize / 16 * (team.rdxnCount % 2) % 2 = 0 := by
  have hfcollect := Params.fcollectPsyncLenPerTeam_mod h.llThreshold
  have hreduce := h.reduceScratchSize
  have hteam : team.teamIdx * Host.psyncLenPerTeam p % 2 = team.teamIdx * p.npes % 2 := by
    rw [mul_mod, Params.psyncLenPerTeam_mod h, ← mul_mod]
  have hhalf : p.reduceScratchSize / 2 / 8 = p.reduceScratchSize / 16 := Nat.div_div_eq_div_mul ..
  simp only [Params.Aligned, forall_mem_cons, not_mem_nil, false_implies, implies_true,
    and_true, Params.teamGetPsync_mod hpool, Host.psyncOffset, sizeofLong, hhalf,
    nvshmemiSyncSize, bcastSyncSize]
  omega

theorem accepted_threePes : Accepted 3 32 2048 0 (2 ^ 19) := by
  constructor <;> decide

def Params.threePes : Params := ⟨3, 32, 2048, 0, 2 ^ 19, accepted_threePes⟩

theorem multiplesOf16_threePes : Params.threePes.MultiplesOf16 := by
  constructor <;> decide

/-- The areas of the team of a node, with index 2, are aligned. -/
theorem aligned_threePes : Params.threePes.Aligned (2 ^ 32) ⟨2, 1, 0⟩ :=
  (aligned_iff Params.threePes multiplesOf16_threePes (2 ^ 32) (by decide) ⟨2, 1, 0⟩).mpr
    (by decide)

/-- Those of the team with shared memory, with index 1, are not. -/
theorem not_aligned_threePes : Params.threePes.MultiplesOf16 ∧
    ¬ Params.threePes.Aligned (2 ^ 32) ⟨1, 0, 0⟩ := by
  refine ⟨multiplesOf16_threePes, fun h => ?_⟩
  exact absurd (h .bcast (by decide)) (by decide)

end Nvshmem.Psync
