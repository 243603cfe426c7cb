import Nvshmem.Bits.Wrap
import Nvshmem.Loops.Strided

/-! # What the threads of a group do in an alltoall

A PE pushes a block to every member of the team. The loops are chosen by the way to the peer, the
size of a block and the shape of the group; barriers of the group separate what its threads do into
phases. The offsets of the blocks go through `int`.
-/

namespace Nvshmem.Alltoall

open Loops List Nat

inductive Scope where
  | thread | warp | warpgroup | block
deriving DecidableEq

def warpSize : ℕ := 32

/-- `NVSHMEMI_ALLTOALL_SMALL_MSGSIZE` -/
def smallMsgsize : ℕ := 16

/-- `NVSHMEMI_ALLTOALL_MEDIUM_MSGSIZE` -/
def mediumMsgsize : ℕ := 16384

structure Group where
  scope : Scope
  size : ℕ
  size_pos : 0 < size
  size_thread : scope = .thread → size = 1
  /-- A block may have less threads than a warp. -/
  size_warp : scope = .warp → size ≤ warpSize

structure Call where
  peSize : ℕ
  myPe : ℕ
  nelems : ℕ
  sizeofT : ℕ
  /-- The heap of the member is mapped. -/
  direct : ℕ → Bool
  group : Group
  myPe_lt : myPe < peSize

/-- What a thread does for the member `i` places after its PE, and what it does once. -/
inductive Op where
  | putSignal (i : ℕ)
  | put (scope : Scope) (i : ℕ)
  | addPwrk
  | signal (i : ℕ)
  | wait (i : ℕ)
  | quiet (scope : Scope)
  | addCount
deriving DecidableEq

namespace Op

def target : Op → Option ℕ
  | putSignal i | put _ i => some i
  | _ => none

def width (g : Group) : Op → ℕ
  | put .warp _ => min g.size warpSize
  | put .warpgroup _ | put .block _ => g.size
  | _ => 1

theorem width_pos (g : Group) (op : Op) : 0 < op.width g := by
  unfold width
  split
  · exact lt_min g.size_pos (succ_pos 31)
  · exact g.size_pos
  · exact g.size_pos
  · exact Nat.one_pos

def phase : Op → ℕ
  | putSignal _ | put _ _ => 0
  | addPwrk => 1
  | signal _ => 2
  | wait _ | quiet _ => 3
  | addCount => 4

def member : Op → ℕ
  | putSignal i | put _ i | signal i | wait i => i
  | _ => 0

end Op

namespace Call

variable (c : Call) (t : ℕ)

def msgsize : ℕ := c.nelems * c.sizeofT

def nextPe (i : ℕ) : ℕ := (c.myPe + i) % c.peSize

/-- The product of a `size_t` and an index as an `int`. -/
def offset (index : ℕ) : ℤ := Wrap.toInt ((c.nelems * index % 2 ^ 64 : ℕ) : ℤ)

def srcOffset (i : ℕ) : ℤ := c.offset (c.nextPe i)

def dstOffset : ℤ := c.offset c.myPe

def firstUnusedWarp : ℕ := (c.peSize + (warpSize - 1)) / warpSize

def myWarpIdx : ℕ := t / warpSize

def numWarps : ℕ := c.group.size / warpSize

/-- Remote members, and blocks of 16 bytes at most, are served by one thread each. -/
def threadPuts : List Op :=
  (strided t c.peSize c.group.size).flatMap fun i =>
    if !c.direct (c.nextPe i) then [.putSignal i]
    else if c.msgsize ≤ smallMsgsize then [.put .thread i]
    else []

def UsesWarps : Prop :=
  c.group.scope = .block ∧ c.peSize < c.group.size ∧ c.firstUnusedWarp < c.numWarps ∧
    smallMsgsize < c.msgsize ∧ c.msgsize ≤ mediumMsgsize

instance : Decidable c.UsesWarps := inferInstanceAs (Decidable (_ ∧ _ ∧ _ ∧ _ ∧ _))

def groupPuts : List Op :=
  if c.UsesWarps then
    if c.firstUnusedWarp ≤ myWarpIdx t then
      (strided (myWarpIdx t - c.firstUnusedWarp) c.peSize
        (c.numWarps - c.firstUnusedWarp)).flatMap fun i =>
          if c.direct (c.nextPe i) then [.put .warp i] else []
    else []
  else if smallMsgsize < c.msgsize then
    (List.range c.peSize).flatMap fun i =>
      if c.direct (c.nextPe i) then [.put c.group.scope i] else []
  else []

def puts : List Op := c.threadPuts t ++ c.groupPuts t

def signals : List Op :=
  (strided t c.peSize c.group.size).flatMap fun i =>
    if c.direct (c.nextPe i) then [.signal i] else []

def quiets : List Op :=
  if c.group.scope = .block ∧ c.peSize < c.group.size then
    if myWarpIdx t = c.firstUnusedWarp then [.quiet .warp] else []
  else [.quiet c.group.scope]

def waits : List Op := (strided t c.peSize c.group.size).map Op.wait

/-- `nvshmemi_alltoall_allpush_threadgroup`: what a thread does between one barrier of the group and
the next. The last phase is not followed by a barrier. -/
def phase : ℕ → List Op
  | 0 => c.puts t
  | 1 => if t = 0 then [.addPwrk] else []
  | 2 => c.signals t
  | 3 => c.waits t ++ c.quiets t
  | 4 => if t = 0 then [.addCount] else []
  | _ => []

/-- `nvshmemi_alltoall_p2p_allpush_threadgroup`: the offsets in `source` and `dest` and the member
of each copy. All threads make the copies together. -/
def p2pCopies : List (ℤ × ℤ × ℕ) :=
  (List.range c.peSize).map fun i => (c.srcOffset i, c.dstOffset, c.nextPe i)

variable {c t} {i : ℕ} {op : Op} {k : ℕ}

theorem peSize_pos : 0 < c.peSize := zero_lt_of_lt c.myPe_lt

theorem nextPe_lt : c.nextPe i < c.peSize := mod_lt _ c.peSize_pos

theorem exists_nextPe {pe : ℕ} (hpe : pe < c.peSize) : ∃ i < c.peSize, c.nextPe i = pe := by
  refine ⟨(pe + (c.peSize - c.myPe)) % c.peSize, mod_lt _ c.peSize_pos, ?_⟩
  have hmy := c.myPe_lt
  rw [nextPe, add_mod_mod, show c.myPe + (pe + (c.peSize - c.myPe)) = pe + c.peSize by omega,
    add_mod_right, mod_eq_of_lt hpe]

theorem mem_threadPuts (ht : t < c.group.size) : op ∈ c.threadPuts t ↔
    ∃ i < c.peSize, i % c.group.size = t ∧ (c.direct (c.nextPe i) = false ∧ op = .putSignal i ∨
      c.direct (c.nextPe i) = true ∧ c.msgsize ≤ smallMsgsize ∧ op = .put .thread i) := by
  simp only [threadPuts, mem_flatMap, mem_strided_thread ht, and_assoc]
  refine exists_congr fun i => and_congr_right fun _ => and_congr_right fun _ => ?_
  cases c.direct (c.nextPe i) <;> simp

theorem exists_of_mem_groupPuts (hop : op ∈ c.groupPuts t) :
    ∃ scope, ∃ i < c.peSize, c.direct (c.nextPe i) = true ∧ smallMsgsize < c.msgsize ∧
      op = .put scope i := by
  rw [groupPuts] at hop
  split_ifs at hop with hwarps hwarp hsmall
  · obtain ⟨i, hi, hop⟩ := mem_flatMap.mp hop
    split_ifs at hop with hdirect
    · exact ⟨.warp, i, ((mem_strided (Nat.sub_pos_of_lt hwarps.2.2.1)).mp hi).1, hdirect,
        hwarps.2.2.2.1, mem_singleton.mp hop⟩
    · exact absurd hop not_mem_nil
  · exact absurd hop not_mem_nil
  · obtain ⟨i, hi, hop⟩ := mem_flatMap.mp hop
    split_ifs at hop with hdirect
    · exact ⟨c.group.scope, i, mem_range.mp hi, hdirect, hsmall, mem_singleton.mp hop⟩
    · exact absurd hop not_mem_nil
  · exact absurd hop not_mem_nil

theorem lt_of_mem_puts (ht : t < c.group.size) (hop : op ∈ c.puts t) (hi : op.target = some i) :
    i < c.peSize := by
  rcases mem_append.mp hop with hop | hop
  · obtain ⟨j, hj, -, ⟨-, rfl⟩ | ⟨-, -, rfl⟩⟩ := (mem_threadPuts ht).mp hop
    all_goals exact Option.some.inj hi ▸ hj
  · obtain ⟨scope, j, hj, -, -, rfl⟩ := exists_of_mem_groupPuts hop
    exact Option.some.inj hi ▸ hj

def Puts (op : Op) : Prop :=
  ∀ lane < op.width c.group, ∃ t < c.group.size, op ∈ c.puts t ∧ t % op.width c.group = lane

theorem puts_of_thread (hop : op.width c.group = 1) (ht : t < c.group.size) (hmem : op ∈ c.puts t) :
    c.Puts op := by
  intro lane hlane
  rw [hop] at hlane ⊢
  exact ⟨t, ht, hmem, by omega⟩

theorem puts_of_group {i : ℕ} (h : ∀ t < c.group.size, .put c.group.scope i ∈ c.puts t) :
    c.Puts (.put c.group.scope i) := by
  have hwidth : (Op.put c.group.scope i).width c.group = c.group.size := by
    cases hscope : c.group.scope with
    | thread => exact (c.group.size_thread hscope).symm
    | warp => exact Nat.min_eq_left (c.group.size_warp hscope)
    | warpgroup | block => rfl
  intro lane hlane
  rw [hwidth] at hlane ⊢
  exact ⟨lane, hlane, h lane hlane, mod_eq_of_lt hlane⟩

theorem puts_of_warp {i w : ℕ} (hw : w < c.numWarps)
    (h : ∀ t, myWarpIdx t = w → .put .warp i ∈ c.puts t) : c.Puts (.put .warp i) := by
  have hle : (w + 1) * 32 ≤ c.group.size := (Nat.le_div_iff_mul_le (by decide)).mp hw
  have hwidth : (Op.put .warp i).width c.group = 32 := Nat.min_eq_right (by rw [warpSize]; omega)
  intro lane hlane
  rw [hwidth] at hlane ⊢
  have hwarp : (w * 32 + lane) / 32 = w := by omega
  exact ⟨w * 32 + lane, by omega, h _ hwarp, by omega⟩

theorem exists_puts (hi : i < c.peSize) : ∃ op : Op, op.target = some i ∧ c.Puts op := by
  have hmod := mod_lt i c.group.size_pos
  by_cases hdirect : c.direct (c.nextPe i) = true
  · by_cases hsmall : c.msgsize ≤ smallMsgsize
    · exact ⟨.put .thread i, rfl, puts_of_thread rfl hmod (mem_append_left _
        ((mem_threadPuts hmod).mpr ⟨i, hi, rfl, Or.inr ⟨hdirect, hsmall, rfl⟩⟩))⟩
    · by_cases hwarps : c.UsesWarps
      · -- some of the warps that serve the others visits the member
        have hunused : 0 < c.numWarps - c.firstUnusedWarp := Nat.sub_pos_of_lt hwarps.2.2.1
        obtain ⟨w, hw, hmem⟩ := exists_mem_strided hunused hi
        refine ⟨.put .warp i, rfl, puts_of_warp (add_lt_of_lt_sub hw) fun t ht => ?_⟩
        refine mem_append_right _ ?_
        rw [groupPuts, if_pos hwarps, if_pos (ht ▸ Nat.le_add_left _ w), mem_flatMap, ht,
          Nat.add_sub_cancel]
        exact ⟨i, hmem, by rw [if_pos hdirect]; exact mem_singleton_self _⟩
      · refine ⟨.put c.group.scope i, rfl, puts_of_group fun t _ => mem_append_right _ ?_⟩
        rw [groupPuts, if_neg hwarps, if_pos (Nat.lt_of_not_le hsmall), mem_flatMap]
        exact ⟨i, mem_range.mpr hi, by rw [if_pos hdirect]; exact mem_singleton_self _⟩
  · exact ⟨.putSignal i, rfl, puts_of_thread rfl hmod (mem_append_left _
      ((mem_threadPuts hmod).mpr ⟨i, hi, rfl, Or.inl ⟨Bool.eq_false_iff.mpr hdirect, rfl⟩⟩))⟩

theorem exists_put (hi : i < c.peSize) :
    ∃ t < c.group.size, ∃ op ∈ c.puts t, op.target = some i := by
  obtain ⟨op, htarget, hputs⟩ := exists_puts hi
  obtain ⟨t, ht, hmem, -⟩ := hputs 0 (Op.width_pos c.group op)
  exact ⟨t, ht, op, hmem, htarget⟩

theorem phase_of_mem (hop : op ∈ c.phase t k) : op.phase = k := by
  match k with
  | 0 =>
    rcases mem_append.mp hop with hop | hop
    · obtain ⟨i, -, hop⟩ := mem_flatMap.mp hop
      split_ifs at hop
      · rw [mem_singleton.mp hop]
        rfl
      · rw [mem_singleton.mp hop]
        rfl
      · exact absurd hop not_mem_nil
    · obtain ⟨scope, i, -, -, -, rfl⟩ := exists_of_mem_groupPuts hop
      rfl
  | 1 | 4 =>
    simp only [phase] at hop
    split at hop
    · rw [mem_singleton.mp hop]
      rfl
    · exact absurd hop not_mem_nil
  | 2 =>
    obtain ⟨i, -, hop⟩ := mem_flatMap.mp hop
    split_ifs at hop
    · rw [mem_singleton.mp hop]
      rfl
    · exact absurd hop not_mem_nil
  | 3 =>
    rcases mem_append.mp hop with hop | hop
    · obtain ⟨i, -, rfl⟩ := mem_map.mp hop
      rfl
    · rw [quiets] at hop
      split_ifs at hop
      · rw [mem_singleton.mp hop]
        rfl
      · exact absurd hop not_mem_nil
      · rw [mem_singleton.mp hop]
        rfl
  | k + 5 => exact absurd hop not_mem_nil

theorem mem_phase_putSignal (ht : t < c.group.size) : .putSignal i ∈ c.phase t k ↔
    k = 0 ∧ i < c.peSize ∧ i % c.group.size = t ∧ c.direct (c.nextPe i) = false := by
  constructor
  · intro hop
    obtain rfl : 0 = k := phase_of_mem hop
    rcases mem_append.mp hop with hop | hop
    · obtain ⟨j, hj, hjt, ⟨hdirect, hop⟩ | ⟨-, -, hop⟩⟩ := (mem_threadPuts ht).mp hop
      · obtain rfl := Op.putSignal.inj hop
        exact ⟨rfl, hj, hjt, hdirect⟩
      · exact nomatch hop
    · obtain ⟨scope, j, -, -, -, hop⟩ := exists_of_mem_groupPuts hop
      exact nomatch hop
  · rintro ⟨rfl, hi, hit, hdirect⟩
    exact mem_append_left _ ((mem_threadPuts ht).mpr ⟨i, hi, hit, Or.inl ⟨hdirect, rfl⟩⟩)

theorem of_mem_phase_put {scope : Scope} (ht : t < c.group.size) (hop : .put scope i ∈ c.phase t k) :
    k = 0 ∧ i < c.peSize ∧ c.direct (c.nextPe i) = true := by
  obtain rfl : 0 = k := phase_of_mem hop
  rcases mem_append.mp hop with hop | hop
  · obtain ⟨j, hj, -, ⟨-, hop⟩ | ⟨hdirect, -, hop⟩⟩ := (mem_threadPuts ht).mp hop
    · exact nomatch hop
    · obtain ⟨-, rfl⟩ := Op.put.inj hop
      exact ⟨rfl, hj, hdirect⟩
  · obtain ⟨scope, j, hj, hdirect, -, hop⟩ := exists_of_mem_groupPuts hop
    obtain ⟨-, rfl⟩ := Op.put.inj hop
    exact ⟨rfl, hj, hdirect⟩

theorem mem_signals (ht : t < c.group.size) : op ∈ c.signals t ↔
    ∃ i < c.peSize, i % c.group.size = t ∧ c.direct (c.nextPe i) = true ∧ op = .signal i := by
  simp only [signals, mem_flatMap, mem_strided_thread ht, and_assoc]
  refine exists_congr fun i => and_congr_right fun _ => and_congr_right fun _ => ?_
  cases c.direct (c.nextPe i) <;> simp

theorem mem_phase_signal (ht : t < c.group.size) : .signal i ∈ c.phase t k ↔
    k = 2 ∧ i < c.peSize ∧ i % c.group.size = t ∧ c.direct (c.nextPe i) = true := by
  constructor
  · intro hop
    obtain rfl : 2 = k := phase_of_mem hop
    obtain ⟨j, hj, hjt, hdirect, hop⟩ := (mem_signals ht).mp hop
    obtain rfl := Op.signal.inj hop
    exact ⟨rfl, hj, hjt, hdirect⟩
  · rintro ⟨rfl, hi, hit, hdirect⟩
    exact (mem_signals ht).mpr ⟨i, hi, hit, hdirect, rfl⟩

theorem mem_phase_wait (ht : t < c.group.size) : .wait i ∈ c.phase t k ↔
    k = 3 ∧ i < c.peSize ∧ i % c.group.size = t := by
  have hwaits : Op.wait i ∈ c.waits t ↔ i < c.peSize ∧ i % c.group.size = t := by
    rw [waits, mem_map_of_injective fun _ _ => Op.wait.inj, mem_strided_thread ht]
  constructor
  · intro hop
    obtain rfl : 3 = k := phase_of_mem hop
    refine ⟨rfl, hwaits.mp ((mem_append.mp hop).resolve_right fun hquiet => ?_)⟩
    rw [quiets] at hquiet
    split_ifs at hquiet <;> simp at hquiet
  · rintro ⟨rfl, hi, hit⟩
    exact mem_append_left _ (hwaits.mpr ⟨hi, hit⟩)

theorem myWarpIdx_mul {w : ℕ} : myWarpIdx (warpSize * w) = w :=
  Nat.mul_div_cancel_left w (by decide)

theorem exists_quiet (h : c.group.scope = .block → c.peSize < c.group.size →
      warpSize * c.firstUnusedWarp < c.group.size) :
    ∃ t < c.group.size, ∃ scope, .quiet scope ∈ c.phase t 3 := by
  by_cases hblock : c.group.scope = .block ∧ c.peSize < c.group.size
  · refine ⟨_, h hblock.1 hblock.2, .warp, mem_append_right _ ?_⟩
    rw [quiets, if_pos hblock, if_pos myWarpIdx_mul]
    exact mem_singleton_self _
  · refine ⟨0, c.group.size_pos, c.group.scope, mem_append_right _ ?_⟩
    rw [quiets, if_neg hblock]
    exact mem_singleton_self _

theorem nodup_flatMap_member {l : List ℕ} {f : ℕ → List Op} (hl : l.Nodup)
    (hf : ∀ i, (f i).Nodup) (hmember : ∀ i, ∀ op ∈ f i, op.member = i) : (l.flatMap f).Nodup := by
  rw [nodup_flatMap]
  refine ⟨fun i _ => hf i, hl.imp ?_⟩
  intro i j hij op hi hj
  exact hij ((hmember i op hi).symm.trans (hmember j op hj))

theorem nodup_strided {first stop step : ℕ} (hstep : 0 < step) :
    (strided first stop step).Nodup :=
  nodup_range' _ hstep

theorem nodup_threadPuts : (c.threadPuts t).Nodup := by
  refine nodup_flatMap_member (nodup_strided c.group.size_pos) (fun i => ?_) fun i op hop => ?_
  · split_ifs <;> simp
  · split_ifs at hop
    · rw [mem_singleton.mp hop]
      rfl
    · rw [mem_singleton.mp hop]
      rfl
    · exact absurd hop not_mem_nil

theorem nodup_groupPuts : (c.groupPuts t).Nodup := by
  have hput : ∀ {l : List ℕ} {scope : Scope}, l.Nodup → (l.flatMap fun i =>
      if c.direct (c.nextPe i) then [Op.put scope i] else []).Nodup := by
    intro l scope hl
    refine nodup_flatMap_member hl (fun i => ?_) fun i op hop => ?_
    · split_ifs <;> simp
    · split_ifs at hop
      · rw [mem_singleton.mp hop]
        rfl
      · exact absurd hop not_mem_nil
  rw [groupPuts]
  split_ifs with hwarps
  · exact hput (nodup_strided (Nat.sub_pos_of_lt hwarps.2.2.1))
  · exact nodup_nil
  · exact hput nodup_range
  · exact nodup_nil

theorem nodup_phase (ht : t < c.group.size) (k : ℕ) : (c.phase t k).Nodup := by
  match k with
  | 0 =>
    refine List.Nodup.append nodup_threadPuts nodup_groupPuts fun op hthread hgroup => ?_
    -- a thread alone makes puts of small blocks, several threads those of large ones
    obtain ⟨scope, j, -, -, hlarge, rfl⟩ := exists_of_mem_groupPuts hgroup
    obtain ⟨i, -, -, ⟨-, hop⟩ | ⟨-, hsmall, -⟩⟩ := (mem_threadPuts ht).mp hthread
    · exact nomatch hop
    · exact absurd hsmall (Nat.not_le_of_lt hlarge)
  | 1 | 4 =>
    simp only [phase]
    split <;> simp
  | 2 =>
    refine nodup_flatMap_member (nodup_strided c.group.size_pos) (fun i => ?_) fun i op hop => ?_
    · split_ifs <;> simp
    · split_ifs at hop
      · rw [mem_singleton.mp hop]
        rfl
      · exact absurd hop not_mem_nil
  | 3 =>
    refine List.Nodup.append ((nodup_strided c.group.size_pos).map fun _ _ => Op.wait.inj) ?_
      fun op hwait hquiet => ?_
    · rw [quiets]
      split_ifs <;> simp
    · obtain ⟨i, -, rfl⟩ := mem_map.mp hwait
      rw [quiets] at hquiet
      split_ifs at hquiet <;> simp at hquiet
  | k + 5 => exact nodup_nil

section Offsets

variable (c)

/-- The puts of `nvshmemi_alltoall_allpush_threadgroup` are from and to the places of the blocks. -/
def AllpushExact : Prop :=
  ∀ t < c.group.size, ∀ op ∈ c.puts t, ∀ i ∈ op.target,
    c.srcOffset i = (c.nelems * c.nextPe i : ℕ) ∧ c.dstOffset = (c.nelems * c.myPe : ℕ)

/-- The copies of `nvshmemi_alltoall_p2p_allpush_threadgroup` are from and to the places of the
blocks. -/
def P2pExact : Prop :=
  ∀ copy ∈ c.p2pCopies,
    copy.1 = (c.nelems * copy.2.2 : ℕ) ∧ copy.2.1 = (c.nelems * c.myPe : ℕ)

variable {c}

theorem offset_eq {index : ℕ} (hindex : index < c.peSize)
    (h : c.nelems * (c.peSize - 1) < 2 ^ 31) : c.offset index = (c.nelems * index : ℕ) := by
  have hle : c.nelems * index ≤ c.nelems * (c.peSize - 1) :=
    Nat.mul_le_mul_left _ (le_sub_one_of_lt hindex)
  rw [offset, mod_eq_of_lt (by omega), Wrap.toInt_natCast (by omega)]

/-- An offset that is exact is in the range of `int`. -/
theorem lt_of_offset_eq {index : ℕ} (h : c.offset index = (c.nelems * index : ℕ)) :
    c.nelems * index < 2 ^ 31 := by
  have hlt : c.offset index < 2 ^ 31 := Wrap.toInt_lt
  omega

/-- The offset in `source` is exact for every member exactly if the last one's is. -/
theorem forall_srcOffset_eq_iff :
    (∀ i < c.peSize, c.srcOffset i = (c.nelems * c.nextPe i : ℕ) ∧
      c.dstOffset = (c.nelems * c.myPe : ℕ)) ↔ c.nelems * (c.peSize - 1) < 2 ^ 31 := by
  constructor
  · intro h
    obtain ⟨i, hi, hnext⟩ := exists_nextPe (sub_one_lt_of_lt c.peSize_pos)
    have hsrc := (h i hi).1
    rw [srcOffset, hnext] at hsrc
    exact lt_of_offset_eq hsrc
  · exact fun h i _ => ⟨offset_eq nextPe_lt h, offset_eq c.myPe_lt h⟩

end Offsets

end Call

/-- Both algorithms address every block exactly if the offset of the last block, in elements, is in
the range of `int`. -/
theorem offsets_exact_iff (c : Call) : (c.AllpushExact ↔ c.nelems * (c.peSize - 1) < 2 ^ 31) ∧
    (c.P2pExact ↔ c.nelems * (c.peSize - 1) < 2 ^ 31) := by
  rw [← Call.forall_srcOffset_eq_iff]
  constructor
  · constructor
    · intro h i hi
      obtain ⟨t, ht, op, hop, htarget⟩ := Call.exists_put hi
      exact h t ht op hop i htarget
    · intro h t ht op hop i htarget
      exact h i (Call.lt_of_mem_puts ht hop htarget)
  · simp only [Call.P2pExact, Call.p2pCopies, forall_mem_map, mem_range]

def Group.oneThread : Group := ⟨.thread, 1, Nat.one_pos, fun _ => rfl, (nomatch ·)⟩

def Call.twoGiB : Call where
  peSize := 2
  myPe := 1
  nelems := 2 ^ 31
  sizeofT := 1
  direct := fun _ => true
  group := .oneThread
  myPe_lt := Nat.one_lt_two

/-- The block is put 2 GiB before the buffer. -/
theorem not_exact_twoGiB : Call.twoGiB.dstOffset = -2 ^ 31 ∧
    ¬ Call.twoGiB.AllpushExact ∧ ¬ Call.twoGiB.P2pExact := by
  refine ⟨by decide, fun h => ?_, fun h => ?_⟩
  · exact absurd (h 0 Nat.one_pos (.put .thread 0) (by decide) 0 rfl).2 (by decide)
  · exact absurd (h (Call.twoGiB.srcOffset 0, Call.twoGiB.dstOffset, 1) (by decide)).2 (by decide)

namespace Call

variable {c : Call} {t : ℕ}

/-- Threads of the group execute a quiet when no thread of the group makes puts any more: those of
a warp, or all of them. -/
def Quieted (c : Call) : Prop :=
  ∃ k, (∀ t < c.group.size, ∀ k' ≥ k, ∀ op ∈ c.phase t k', op.target = none) ∧
    ((∃ w, (∃ t < c.group.size, myWarpIdx t = w) ∧
        ∀ t < c.group.size, myWarpIdx t = w → .quiet .warp ∈ c.phase t k) ∨
      ∀ t < c.group.size, .quiet c.group.scope ∈ c.phase t k)

theorem target_of_mem_phase {k : ℕ} (hk : 0 < k) {op : Op} (hop : op ∈ c.phase t k) :
    op.target = none := by
  have hphase := phase_of_mem hop
  cases op with
  | putSignal | put => exact absurd hphase hk.ne
  | _ => rfl

theorem mem_quiets_of_mem_phase {k : ℕ} {scope : Scope} (hop : .quiet scope ∈ c.phase t k) :
    .quiet scope ∈ c.quiets t := by
  obtain rfl : 3 = k := phase_of_mem hop
  refine (mem_append.mp hop).resolve_left fun hwait => ?_
  obtain ⟨i, -, hop⟩ := mem_map.mp hwait
  exact nomatch hop

theorem quiets_eq_nil (hscope : c.group.scope = .block) (hlt : c.peSize < c.group.size)
    (hwarps : c.group.size ≤ warpSize * c.firstUnusedWarp) (ht : t < c.group.size) :
    c.quiets t = [] := by
  have hne : myWarpIdx t ≠ c.firstUnusedWarp :=
    (Nat.div_lt_of_lt_mul (ht.trans_le hwarps)).ne
  rw [quiets, if_pos ⟨hscope, hlt⟩, if_neg hne]

theorem not_quieted (hscope : c.group.scope = .block) (hlt : c.peSize < c.group.size)
    (hwarps : c.group.size ≤ warpSize * c.firstUnusedWarp) : ¬ c.Quieted := by
  rintro ⟨k, -, hquiet⟩
  have hnone : ∀ t < c.group.size, ∀ scope, Op.quiet scope ∉ c.phase t k := by
    intro t ht scope hop
    have hnil := quiets_eq_nil hscope hlt hwarps ht
    exact not_mem_nil (hnil ▸ mem_quiets_of_mem_phase hop)
  rcases hquiet with ⟨w, ⟨t, ht, hw⟩, hquiet⟩ | hquiet
  · exact hnone t ht _ (hquiet t ht hw)
  · exact hnone 0 c.group.size_pos _ (hquiet 0 c.group.size_pos)

end Call

/-- The group completes its puts before it returns, unless it is a block with more threads than
the team has members and no thread beyond the warps that these fill. -/
theorem quieted_iff (c : Call) : c.Quieted ↔
    (c.group.scope = .block → c.peSize < c.group.size →
      warpSize * c.firstUnusedWarp < c.group.size) := by
  constructor
  · intro hquiet hscope hlt
    by_contra hwarps
    exact Call.not_quieted hscope hlt (Nat.le_of_not_lt hwarps) hquiet
  · intro h
    refine ⟨3, fun t _ k' hk' op hop => Call.target_of_mem_phase (by omega) hop, ?_⟩
    by_cases hblock : c.group.scope = .block ∧ c.peSize < c.group.size
    · left
      refine ⟨c.firstUnusedWarp, ⟨warpSize * c.firstUnusedWarp, h hblock.1 hblock.2, ?_⟩, ?_⟩
      · exact Call.myWarpIdx_mul
      · intro t _ ht
        refine mem_append_right _ ?_
        rw [Call.quiets, if_pos hblock, if_pos ht]
        exact mem_singleton_self _
    · right
      intro t _
      refine mem_append_right _ ?_
      rw [Call.quiets, if_neg hblock]
      exact mem_singleton_self _

def Call.forty : Call where
  peSize := 40
  myPe := 0
  nelems := 1
  sizeofT := 4
  direct := fun _ => false
  group := ⟨.block, 64, Nat.succ_pos 63, (nomatch ·), (nomatch ·)⟩
  myPe_lt := Nat.succ_pos 39

/-- The members fill the two warps of the block, so there is none left for the quiet. -/
theorem not_quieted_forty : ¬ Call.forty.Quieted :=
  Call.not_quieted rfl (by decide) (by decide)

end Nvshmem.Alltoall
