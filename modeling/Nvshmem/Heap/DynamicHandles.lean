import Nvshmem.Heap.Handles
import Nvshmem.Heap.VmmHeap

/-! # Memory handles of a heap that grows

Growth of the internal part and user mappings are registered when they are made. The lookup of a
handle tells the two by the address, but the lookup of an offset takes every address for one of the
internal part. Behind the last granule of that part it leaves the table.
-/

namespace Nvshmem.Handles

open Mspace Transition Option Layout Tables VmmHeap

variable {H : Type}

structure DynamicHeap extends HeapConfig where
  log2MemGranularity : ℕ
  log2_le : log2MemGranularity ≤ 31
  granularity_eq : memGranularity = 2 ^ log2MemGranularity
  npes : ℕ
  numInitializedTransports : ℕ

def DynamicHeap.layout (cfg : DynamicHeap) : Layout where
  heapBase := cfg.heapBase
  heapSize := cfg.heapSize
  log2MemGranularity := cfg.log2MemGranularity
  log2_le := cfg.log2_le
  npes := cfg.npes
  numInitializedTransports := cfg.numInitializedTransports
  rail := none

structure State (H : Type) where
  heap : VmmHeap
  tables : Tables H

structure Call (H : Type) where
  action : VmmHeap.Action
  answers : ℕ → ℕ → ℕ → H

namespace State

variable (cfg : DynamicHeap)

def init : State H := ⟨.init cfg.toHeapConfig, .init⟩

/-- A call that returns success. What the internal part grows by is registered. -/
def step (s : State H) (c : Call H) : Option (State H) :=
  match c.action with
  | .allocate size count alignment type =>
    (s.heap.allocateSymmetricMemory cfg.toHeapConfig size count alignment type).map fun r =>
      ⟨r.2, s.tables.registerHeapMemory cfg.layout c.answers
        (cfg.heapBase + s.heap.physicalInternalHeapSize)
        (r.2.physicalInternalHeapSize - s.heap.physicalInternalHeapSize) false⟩
  | .deallocate ptr =>
    (s.heap.heapMspace.deallocate ptr).map fun m => { s with heap.heapMspace := m }
  | .mmap bufPtr size flags =>
    if size < sizeBound then
      (s.heap.mmapMem cfg.toHeapConfig bufPtr size flags).map fun r =>
        ⟨r.2, s.tables.registerHeapMemory cfg.layout c.answers r.1 size true⟩
    else none
  | .unmap ptr size =>
    (s.heap.unmapMem cfg.toHeapConfig ptr size).bind fun heap =>
      (s.tables.clearMapping cfg.layout ptr (cfg.mappedSize size)).map (⟨heap, ·⟩)

variable {cfg} {s s' : State H} {c : Call H} {addr : ℕ}

theorem step_heap (hs : s.step cfg c = some s') :
    s.heap.step cfg.toHeapConfig c.action = some s'.heap := by
  obtain ⟨action, answers⟩ := c
  cases action with
  | allocate size count alignment type =>
    obtain ⟨r, hr, rfl⟩ := map_eq_some_iff.mp hs
    exact map_eq_some_iff.mpr ⟨r, hr, rfl⟩
  | deallocate ptr =>
    obtain ⟨m, hm, rfl⟩ := map_eq_some_iff.mp hs
    exact map_eq_some_iff.mpr ⟨m, hm, rfl⟩
  | mmap bufPtr size flags =>
    obtain ⟨hlt, hs⟩ := ite_none_right_eq_some.mp hs
    obtain ⟨r, hr, rfl⟩ := map_eq_some_iff.mp hs
    exact step_mmap_eq_some.mpr ⟨hlt, r.1, hr⟩
  | unmap ptr size =>
    obtain ⟨heap, hheap, hs⟩ := bind_eq_some_iff.mp hs
    obtain ⟨tables, -, rfl⟩ := map_eq_some_iff.mp hs
    exact hheap

theorem memGranularity_layout : cfg.layout.memGranularity = cfg.memGranularity :=
  cfg.granularity_eq.symm

structure Inv (cfg : DynamicHeap) (s : State H) : Prop where
  placed : s.heap.Placed cfg.toHeapConfig
  covers : ∃ n, s.tables.Covers cfg.layout n ∧
    s.heap.physicalInternalHeapSize = n * cfg.layout.memGranularity

theorem Inv.init : (init cfg : State H).Inv cfg :=
  ⟨.init, 0, .init, (Nat.zero_mul _).symm⟩

theorem Inv.step (h : s.Inv cfg) (hs : s.step cfg c = some s') : s'.Inv cfg := by
  refine ⟨h.placed.step (step_heap hs), ?_⟩
  obtain ⟨n, hcovers, hphysical⟩ := h.covers
  obtain ⟨action, answers⟩ := c
  cases action with
  | allocate size count alignment type =>
    obtain ⟨⟨ptr, heap⟩, hheap, rfl⟩ := map_eq_some_iff.mp hs
    obtain ⟨m, size', -, hdvd, rfl⟩ := allocateSymmetricMemory_cases hheap
    rw [← memGranularity_layout] at hdvd
    obtain ⟨k, rfl⟩ := exists_eq_mul_left_of_dvd hdvd
    rw [Nat.add_sub_cancel_left, hphysical]
    exact ⟨n + k, hcovers.registerHeapMemory rfl answers k, (Nat.add_mul ..).symm⟩
  | deallocate ptr =>
    obtain ⟨m, -, rfl⟩ := map_eq_some_iff.mp hs
    exact ⟨n, hcovers, hphysical⟩
  | mmap bufPtr size flags =>
    obtain ⟨-, hs⟩ := ite_none_right_eq_some.mp hs
    obtain ⟨⟨ptr, heap⟩, hheap, rfl⟩ := map_eq_some_iff.mp hs
    obtain ⟨-, -, m, aliases, rfl, -⟩ := mmapMem_cases h.placed.mmap hheap
    exact ⟨n, hcovers.of_internal (internal_registerPieces rfl), hphysical⟩
  | unmap ptr size =>
    obtain ⟨heap, hheap, hs⟩ := bind_eq_some_iff.mp hs
    obtain ⟨tables, htables, rfl⟩ := map_eq_some_iff.mp hs
    obtain ⟨size', m, aliases, -, -, rfl⟩ := unmapMem_cases hheap
    exact ⟨n, hcovers.of_internal (internal_clearPieces htables), hphysical⟩

theorem Inv.of_reachable (hr : Reachable (State.step cfg) (State.init cfg) s) : s.Inv cfg :=
  hr.invariant .init .step

def Finds (cfg : DynamicHeap) (s : State H) (addr : ℕ) : Prop :=
  s.tables.Finds cfg.layout (s.heap.getMmapAllocatedRange cfg.toHeapConfig) addr

theorem Inv.finds (h : s.Inv cfg) (hle : cfg.heapBase ≤ addr)
    (hlt : addr < cfg.heapBase + s.heap.physicalInternalHeapSize)
    (hbelow : addr < s.heap.bottom cfg.toHeapConfig) : s.Finds cfg addr := by
  obtain ⟨n, hcovers, hphysical⟩ := h.covers
  have hsize := h.placed.physical_le
  have hbound := cfg.bounded
  have hgranule : cfg.layout.addrIdx addr < n := by
    have hbase : cfg.layout.heapBase = cfg.heapBase := rfl
    rw [addrIdx_eq]
    exact Nat.div_lt_of_lt_mul (by rw [Nat.mul_comm]; omega)
  refine (hcovers.indexed _ hgranule).finds hle ?_ fun r hr => ?_
  · rw [bottom, HeapConfig.mmapBase] at hbelow
    simp only [DynamicHeap.layout]
    omega
  · have hr := hcovers.bounds r hr
    have hbase : cfg.layout.heapBase = cfg.heapBase := rfl
    simp only [mallocAlignment, sizeBound] at hbound
    omega

theorem Inv.not_finds (h : s.Inv cfg)
    (hge : cfg.heapBase + s.heap.physicalInternalHeapSize ≤ addr) : ¬ s.Finds cfg addr := by
  obtain ⟨n, hcovers, hphysical⟩ := h.covers
  have hgranule : s.tables.idxInHandles.length ≤ cfg.layout.addrIdx addr := by
    have hbase : cfg.layout.heapBase = cfg.heapBase := rfl
    rw [addrIdx_eq, hcovers.length]
    exact (Nat.le_div_iff_mul_le memGranularity_pos).mpr (by rw [← hphysical]; omega)
  rintro ⟨r, -, -, -, hoffset⟩
  rw [getMemHandleAddrOffset_eq_none hgranule] at hoffset
  cases hoffset

def Internal (_ : State H) (c : Call H) : Prop :=
  match c.action with
  | .allocate .. | .deallocate _ => True
  | .mmap .. | .unmap .. => False

instance (s : State H) : (c : Call H) → Decidable (s.Internal c)
  | ⟨.allocate .., _⟩ | ⟨.deallocate _, _⟩ => inferInstanceAs (Decidable True)
  | ⟨.mmap .., _⟩ | ⟨.unmap .., _⟩ => inferInstanceAs (Decidable False)

theorem bottom_of_internal (hr : Reachable (restrict Internal (State.step cfg)) (State.init cfg) s) :
    s.heap.bottom cfg.toHeapConfig = cfg.mmapBase := by
  have hempty : s.heap.mmapMspace = .empty := by
    refine hr.invariant (I := fun s => s.heap.mmapMspace = .empty) mmapMspace_init ?_
    rintro u ⟨action, answers⟩ v hu hs
    obtain ⟨hinternal, hs⟩ := restrict_eq_some.mp hs
    cases action with
    | allocate size count alignment type =>
      obtain ⟨⟨ptr, heap⟩, hheap, rfl⟩ := map_eq_some_iff.mp hs
      obtain ⟨m, size', -, -, rfl⟩ := allocateSymmetricMemory_cases hheap
      exact hu
    | deallocate ptr =>
      obtain ⟨m, -, rfl⟩ := map_eq_some_iff.mp hs
      exact hu
    | mmap bufPtr size flags => exact absurd hinternal not_false
    | unmap ptr size => exact absurd hinternal not_false
  rw [bottom, getMmapAllocatedRange, hempty]
  rfl

end State

/-- Every address of a heap that is registered once is found, and so is every address of the
internal part of a heap that grows, below the user mappings if there are any. The lookup returns the
handle of a registered range that contains the address, with the length up to its end. -/
theorem getTransportMemHandle_correct :
    (∀ (s : StaticHeap) (answers : ℕ → ℕ → ℕ → H) (addr : ℕ),
      s.globalHeapBase + s.heapSize * s.npesNode < 2 ^ 64 →
      s.heapBase ≤ addr → addr < s.heapBase + s.heapSize →
      (s.tables answers).Finds s.layout 0 addr) ∧
    (∀ (cfg : DynamicHeap) (s : State H),
      Reachable (restrict State.Internal (State.step cfg)) (State.init cfg) s →
      ∀ addr, cfg.heapBase ≤ addr → addr < cfg.heapBase + s.heap.physicalInternalHeapSize →
      s.Finds cfg addr) ∧
    ∀ (cfg : DynamicHeap) (s : State H), Reachable (State.step cfg) (State.init cfg) s →
      ∀ addr, cfg.heapBase ≤ addr → addr < cfg.heapBase + s.heap.physicalInternalHeapSize →
      addr < s.heap.bottom cfg.toHeapConfig → s.Finds cfg addr := by
  refine ⟨fun s answers addr hbound => StaticHeap.finds hbound, ?_, ?_⟩
  · intro cfg s hr addr hle hlt
    have hinv := State.Inv.of_reachable hr.of_restrict
    refine hinv.finds hle hlt ?_
    have := hinv.placed.physical_le
    rw [State.bottom_of_internal hr, HeapConfig.mmapBase]
    omega
  · intro cfg s hr addr hle hlt hbelow
    exact (State.Inv.of_reachable hr).finds hle hlt hbelow

def secondOfTwo : StaticHeap where
  globalHeapBase := 4096
  npesNode := 2
  mypeNode := 1
  mypeNode_lt := Nat.one_lt_two
  size := 1100
  size_pos := Nat.succ_pos _
  log2MemGranularity := 9
  log2_le := nine_le_thirtyOne
  npes := 2
  numInitializedTransports := 1
  enableRailOpt := true

def tenGranulesOfTwo : DynamicHeap where
  toHeapConfig := tenGranules
  log2MemGranularity := 21
  log2_le := Nat.le_of_ble_eq_true rfl
  granularity_eq := rfl
  npes := 2
  numInitializedTransports := 1

def growTwice : List (Call ℕ) :=
  [⟨.allocate 2097152 0 0 .malloc, byAddress⟩, ⟨.allocate 3000000 0 0 .malloc, byAddress⟩]

theorem getTransportMemHandle_growTwice :
    (secondOfTwo.tables byAddress).Finds secondOfTwo.layout 0 6000 ∧
      ∃ s : State ℕ, Reachable (restrict State.Internal (State.step tenGranulesOfTwo))
          (State.init tenGranulesOfTwo) s ∧
        s.heap.physicalInternalHeapSize = 3 * 2097152 ∧
        s.Finds tenGranulesOfTwo (3 * 2097152) := by
  obtain ⟨hstatic, hdynamic, -⟩ := getTransportMemHandle_correct (H := ℕ)
  refine ⟨hstatic secondOfTwo byAddress 6000 (by decide) (by decide) (by decide), ?_⟩
  refine Reachable.exists_of_exec growTwice (fun s =>
    s.heap.physicalInternalHeapSize = 3 * 2097152) (by decide +kernel) fun s hr hphysical => ?_
  refine ⟨hphysical, hdynamic tenGranulesOfTwo s hr (3 * 2097152) (by decide) ?_⟩
  rw [hphysical]
  decide

namespace State

def LiveAddress (s : State H) (addr : ℕ) : Prop :=
  (∃ p n, s.heap.heapMspace.inuseChunks.get? p = some n ∧ p ≤ addr ∧ addr < p + n) ∨
    ∃ r ∈ s.heap.live, r.1 ≤ addr ∧ addr < r.1 + r.2

/-- Unless the internal part has grown into the range of the user mappings there, the handle and the
offset of an address in use are those of one registered range exactly if the address is in the
internal part. -/
theorem finds_iff (cfg : DynamicHeap) (s : State H)
    (hr : Reachable (State.step cfg) (State.init cfg) s) (addr : ℕ) (hlive : s.LiveAddress addr)
    (hapart : addr < s.heap.bottom cfg.toHeapConfig ∨
      cfg.heapBase + s.heap.physicalInternalHeapSize ≤ addr) :
    s.Finds cfg addr ↔ addr < cfg.heapBase + s.heap.physicalInternalHeapSize := by
  have hinv := Inv.of_reachable hr
  have hle : cfg.heapBase ≤ addr := by
    rcases hlive with ⟨p, n, hp, hle, -⟩ | ⟨r, hr, hle, -⟩
    · exact (hinv.placed.heap.le_of_inuse hp).trans hle
    · exact (hinv.placed.live r hr).trans hle
  constructor
  · intro hfinds
    by_contra hge
    exact hinv.not_finds (not_lt.mp hge) hfinds
  · intro hlt
    exact hinv.finds hle hlt (hapart.resolve_right (not_le.mpr hlt))

def growAndMap : List (Call ℕ) :=
  [⟨.allocate 2097152 0 0 .malloc, byAddress⟩, ⟨.mmap 1 2097152 0, byAddress⟩]

theorem finds_iff_growAndMap : ∃ s : State ℕ, Reachable (State.step tenGranulesOfTwo)
    (State.init tenGranulesOfTwo) s ∧ s.LiveAddress 2097160 ∧ s.LiveAddress 20971530 ∧
      s.Finds tenGranulesOfTwo 2097160 ∧ ¬ s.Finds tenGranulesOfTwo 20971530 := by
  refine Reachable.exists_of_exec growAndMap (fun s =>
    s.heap.heapMspace.inuseChunks.get? 2097152 = some 2097152 ∧
      (20971520, 2097152) ∈ s.heap.live ∧ s.heap.physicalInternalHeapSize = 2097152 ∧
      2097160 < s.heap.bottom tenGranules) (by decide +kernel) ?_
  rintro s hr ⟨hinuse, hmapped, hphysical, hbelow⟩
  have hlive : s.LiveAddress 2097160 := .inl ⟨2097152, 2097152, hinuse, by decide, by decide⟩
  have hlive' : s.LiveAddress 20971530 := .inr ⟨_, hmapped, by decide, by decide⟩
  refine ⟨hlive, hlive', ?_, ?_⟩
  · rw [finds_iff tenGranulesOfTwo s hr _ hlive (.inl hbelow), hphysical]
    decide
  · rw [finds_iff tenGranulesOfTwo s hr _ hlive' (.inr (by rw [hphysical]; decide)), hphysical]
    decide

/-- The offset of a user mapping is looked up behind the end of the table. -/
theorem not_finds_mapping : ∃ s : State ℕ, Reachable (State.step tenGranulesOfTwo)
    (State.init tenGranulesOfTwo) s ∧ s.LiveAddress 20971520 ∧
      (s.tables.getTransportMemHandle tenGranulesOfTwo.layout 2097152 20971520 1 0 0 =
        some (some 20971520, 2097152)) ∧
      s.tables.getMemHandleAddrOffset tenGranulesOfTwo.layout 20971520 = none ∧
      ¬ s.Finds tenGranulesOfTwo 20971520 := by
  refine Reachable.exists_of_exec [⟨.mmap 1 2097152 0, byAddress⟩] (fun s =>
    (20971520, 2097152) ∈ s.heap.live ∧
      s.tables.getTransportMemHandle tenGranulesOfTwo.layout 2097152 20971520 1 0 0 =
        some (some 20971520, 2097152) ∧
      s.tables.getMemHandleAddrOffset tenGranulesOfTwo.layout 20971520 = none)
    (by decide +kernel) ?_
  rintro s - ⟨hmapped, hhandle, hoffset⟩
  refine ⟨.inr ⟨_, hmapped, by decide, by decide⟩, hhandle, hoffset, ?_⟩
  rintro ⟨r, -, -, -, heq⟩
  rw [hoffset] at heq
  cases heq

end State

end Nvshmem.Handles
