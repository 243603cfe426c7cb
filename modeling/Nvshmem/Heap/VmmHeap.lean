import Nvshmem.Heap.Symmetry

/-! # The heap over virtual memory management

The reserved range holds internal memory that grows from the base upwards and
mappings of user buffers that grow from the top downwards. The steps are the
calls that return success: the driver, the transports and the other processing
elements are taken to answer with success, and sizes to be those of memory that
exists, so that their sums do not wrap.
-/

namespace Nvshmem

open Mspace Option Mspace OrdMap

structure HeapConfig where
  heapBase : ℕ
  heapSize : ℕ
  memGranularity : ℕ
  base_pos : 0 < heapBase
  base_dvd : mallocAlignment ∣ heapBase
  granularity_pos : 0 < memGranularity
  granularity_dvd : mallocAlignment ∣ memGranularity
  bounded : heapBase + heapSize + mallocAlignment ≤ sizeBound

namespace HeapConfig

def mmapBase (cfg : HeapConfig) : ℕ := cfg.heapBase + cfg.heapSize

def adjustedMaxHandleLen (cfg : HeapConfig) : ℕ :=
  cfg.memGranularity * (2147483648 / cfg.memGranularity)

def roundUp (cfg : HeapConfig) (size : ℕ) : ℕ :=
  (size + cfg.memGranularity - 1) / cfg.memGranularity * cfg.memGranularity

def mappedSize (cfg : HeapConfig) (size : ℕ) : ℕ :=
  if size % cfg.memGranularity ≠ 0 then cfg.roundUp size else size

def pieces (cfg : HeapConfig) (size : ℕ) : ℕ :=
  (size + cfg.adjustedMaxHandleLen - 1) / cfg.adjustedMaxHandleLen

end HeapConfig

def tenGranules : HeapConfig where
  heapBase := 2097152
  heapSize := 10 * 2097152
  memGranularity := 2097152
  base_pos := by decide
  base_dvd := by decide
  granularity_pos := by decide
  granularity_dvd := by decide
  bounded := by decide

/-- The state of the heap. `live` is not part of the program: it records the ranges that
`mmapMem` returned and `unmapMem` has not removed. -/
structure VmmHeap where
  physicalInternalHeapSize : ℕ
  heapMspace : Mspace
  mmapMspace : Mspace
  aliasVaMap : OrdMap ℕ ℕ
  live : List (ℕ × ℕ)
  deriving DecidableEq

inductive MallocType
  | malloc
  | calloc
  | align
  deriving DecidableEq, Repr

namespace VmmHeap

def init (cfg : HeapConfig) : VmmHeap where
  physicalInternalHeapSize := 0
  heapMspace := .new cfg.heapBase 0
  mmapMspace := .new cfg.heapBase 0
  aliasVaMap := .empty
  live := []

variable (cfg : HeapConfig)

def getMmapAllocatedRange (h : VmmHeap) : ℕ :=
  let startInusePtr := h.mmapMspace.getStartInusePtr
  if startInusePtr = 0 then 0 else cfg.mmapBase - startInusePtr

def bottom (h : VmmHeap) : ℕ := cfg.mmapBase - h.getMmapAllocatedRange cfg

/-- Back more memory above the internal part of the heap. There is no memory of size zero. -/
def allocatePhysicalMemoryToHeap (h : VmmHeap) (size : ℕ) : Option VmmHeap :=
  let size := cfg.roundUp size
  if size = 0 ∨
      cfg.heapSize ≤ h.physicalInternalHeapSize + h.getMmapAllocatedRange cfg + size then none
  else
    (h.heapMspace.addNewChunk (cfg.heapBase + h.physicalInternalHeapSize) size).map fun m =>
      { h with
        heapMspace := m
        physicalInternalHeapSize := h.physicalInternalHeapSize + size }

def allocateVirtualMemoryFromMspace (m : Mspace) (size count alignment : ℕ) :
    MallocType → Option (ℕ × Mspace)
  | .malloc => m.call (.allocate size)
  | .calloc => m.call (.allocateZeroed count size)
  | .align => m.call (.allocateAligned alignment size)

def allocateSymmetricMemory (h : VmmHeap) (size count alignment : ℕ) (type : MallocType) :
    Option (ℕ × VmmHeap) := do
  let (ptr, m) ← allocateVirtualMemoryFromMspace h.heapMspace size count alignment type
  let h := { h with heapMspace := m }
  if 0 < size ∧ ptr = 0 then
    let h ← h.allocatePhysicalMemoryToHeap cfg
      (if type = .calloc then count * size + alignment else size + alignment)
    let (ptr, m) ← allocateVirtualMemoryFromMspace h.heapMspace size count alignment type
    some (ptr, { h with heapMspace := m })
  else some (ptr, h)

def trackAliases (len : ℕ) : ℕ → OrdMap ℕ ℕ → ℕ → ℕ → Option (OrdMap ℕ ℕ)
  | 0, aliases, _, _ => some aliases
  | n + 1, aliases, currPtr, currBufPtr =>
    if (aliases.get? currPtr).isSome then none
    else trackAliases len n (aliases.insert currPtr currBufPtr) (currPtr + len) (currBufPtr + len)

def untrackAliases (len : ℕ) : ℕ → OrdMap ℕ ℕ → ℕ → OrdMap ℕ ℕ
  | 0, aliases, _ => aliases
  | n + 1, aliases, currPtr => untrackAliases len n (aliases.erase currPtr) (currPtr + len)

def registerHeapMemory (h : VmmHeap) (buf size : ℕ) : Option VmmHeap :=
  if buf < h.bottom cfg then
    (h.mmapMspace.addNewChunk buf size).bind fun m =>
      let (mmapAlloc, m) := m.allocate size
      if mmapAlloc = 0 ∨ mmapAlloc ≠ buf then none else some { h with mmapMspace := m }
  else some h

def placeMapping (h : VmmHeap) (size : ℕ) : Option (ℕ × VmmHeap) :=
  let (ptr, m) := h.mmapMspace.allocate size
  if ptr ≠ 0 then some (ptr, { h with mmapMspace := m })
  else
    if cfg.heapSize ≤ h.physicalInternalHeapSize + h.getMmapAllocatedRange cfg + size then none
    else some (h.bottom cfg - size, { h with mmapMspace := m })

def mmapMem (h : VmmHeap) (bufPtr size flags : ℕ) : Option (ℕ × VmmHeap) :=
  if size = 0 ∨ size % cfg.memGranularity ≠ 0 ∨ flags ≠ 0 then none
  else do
    let (bufStart, h) ← h.placeMapping cfg size
    let aliases ← trackAliases cfg.adjustedMaxHandleLen (cfg.pieces size) h.aliasVaMap bufStart
      bufPtr
    let h ← { h with aliasVaMap := aliases }.registerHeapMemory cfg bufStart size
    some (bufStart, { h with live := (bufStart, size) :: h.live })

def unmapMem (h : VmmHeap) (ptr size : ℕ) : Option VmmHeap :=
  let size := cfg.mappedSize size
  if h.getMmapAllocatedRange cfg < size ∨ size = 0 then none
  else if cfg.mmapBase < ptr ∨ ptr < h.bottom cfg then none
  else if h.mmapMspace.checkInuse ptr size = false then none
  else
    (h.mmapMspace.deallocate ptr).map fun m =>
      { h with
        mmapMspace := m
        aliasVaMap := untrackAliases cfg.adjustedMaxHandleLen (cfg.pieces size) h.aliasVaMap ptr
        live := h.live.filter (·.1 ≠ ptr) }

inductive Action where
  | allocate (size count alignment : ℕ) (type : MallocType)
  | deallocate (ptr : ℕ)
  | mmap (bufPtr size flags : ℕ)
  | unmap (ptr size : ℕ)
  deriving DecidableEq, Repr

/-- A call that returns success; sizes of mappings are values of `size_t`. -/
def step (h : VmmHeap) : Action → Option VmmHeap
  | .allocate size count alignment type =>
    (h.allocateSymmetricMemory cfg size count alignment type).map Prod.snd
  | .deallocate ptr => (h.heapMspace.deallocate ptr).map fun m => { h with heapMspace := m }
  | .mmap bufPtr size flags =>
    if size < sizeBound then (h.mmapMem cfg bufPtr size flags).map Prod.snd else none
  | .unmap ptr size => h.unmapMem cfg ptr size

section Inversion

variable {cfg : HeapConfig} {h h' : VmmHeap} {size ptr : ℕ}

theorem getStartInusePtr_le {m : Mspace} {k n : ℕ} (hk : m.inuseChunks.get? k = some n) :
    ∃ k₀ n₀, m.getStartInusePtr = k₀ ∧ m.inuseChunks.get? k₀ = some n₀ ∧ k₀ ≤ k := by
  unfold getStartInusePtr
  cases hf : m.inuseChunks.first? fun _ _ => true with
  | none => exact absurd rfl (first?_eq_none.mp hf k n hk)
  | some e => exact ⟨e.1, e.2, rfl, (get?_of_first? hf).1, le_of_first? hf hk rfl⟩

theorem bottom_le {k n : ℕ} (hp : PlacedAt cfg.heapBase h.mmapMspace)
    (hk : h.mmapMspace.inuseChunks.get? k = some n) : h.bottom cfg ≤ k := by
  obtain ⟨k₀, n₀, hstart, hk₀, hle⟩ := getStartInusePtr_le hk
  have hpos := hp.le_of_inuse hk₀
  have := cfg.base_pos
  simp only [bottom, getMmapAllocatedRange, hstart, show k₀ ≠ 0 by omega, if_false]
  omega

theorem bottom_cases (hp : PlacedAt cfg.heapBase h.mmapMspace) : h.bottom cfg = cfg.mmapBase ∨
    ∃ k n, h.mmapMspace.inuseChunks.get? k = some n ∧
      h.bottom cfg = cfg.mmapBase - (cfg.mmapBase - k) := by
  cases hf : h.mmapMspace.inuseChunks.first? fun _ _ => true with
  | none => exact .inl (by simp [bottom, getMmapAllocatedRange, getStartInusePtr, hf])
  | some e =>
    have hk := (get?_of_first? hf).1
    have hpos := hp.le_of_inuse hk
    have := cfg.base_pos
    refine .inr ⟨e.1, e.2, hk, ?_⟩
    simp [bottom, getMmapAllocatedRange, getStartInusePtr, hf, show e.1 ≠ 0 by omega]

theorem allocatePhysicalMemoryToHeap_cases
    (hs : h.allocatePhysicalMemoryToHeap cfg size = some h') : ∃ m, 0 < cfg.roundUp size ∧
      h.physicalInternalHeapSize + h.getMmapAllocatedRange cfg + cfg.roundUp size <
        cfg.heapSize ∧
      h.heapMspace.addNewChunk (cfg.heapBase + h.physicalInternalHeapSize) (cfg.roundUp size) =
        some m ∧
      h' = { h with
        heapMspace := m
        physicalInternalHeapSize := h.physicalInternalHeapSize + cfg.roundUp size } := by
  simp only [allocatePhysicalMemoryToHeap] at hs
  split_ifs at hs with hlt
  rw [not_or] at hlt
  obtain ⟨m, hm, rfl⟩ := map_eq_some_iff.mp hs
  exact ⟨m, Nat.pos_of_ne_zero hlt.1, not_le.mp hlt.2, hm, rfl⟩

theorem mmapMspace_init : (init cfg).mmapMspace = .empty := by
  simp [init, new, alignOffset, Nat.mod_eq_zero_of_dvd cfg.base_dvd]

theorem allocateSymmetricMemory_cases {count alignment : ℕ} {type : MallocType}
    (hs : h.allocateSymmetricMemory cfg size count alignment type = some (ptr, h')) :
    ∃ m size', (size' = 0 ∨
        h.physicalInternalHeapSize + h.getMmapAllocatedRange cfg + size' < cfg.heapSize) ∧
      cfg.memGranularity ∣ size' ∧
      h' = { h with
        heapMspace := m
        physicalInternalHeapSize := h.physicalInternalHeapSize + size' } := by
  simp only [allocateSymmetricMemory, bind_eq_bind, bind_eq_some_iff] at hs
  obtain ⟨⟨ptr₁, m₁⟩, -, hs⟩ := hs
  by_cases hg : 0 < size ∧ ptr₁ = 0
  · simp only [hg, and_self, if_true, bind_eq_some_iff] at hs
    obtain ⟨h₁, hgrow, ⟨ptr₂, m₂⟩, -, hs⟩ := hs
    obtain ⟨m, -, hlt, -, rfl⟩ := allocatePhysicalMemoryToHeap_cases hgrow
    cases hs
    exact ⟨m₂, _, .inr hlt, Dvd.intro_left _ rfl, rfl⟩
  · simp only [hg, if_false] at hs
    cases hs
    exact ⟨m₁, 0, .inl rfl, dvd_zero _, rfl⟩

theorem registerHeapMemory_of_lt {buf : ℕ} (hs : h.registerHeapMemory cfg buf size = some h')
    (hlt : buf < h.bottom cfg) : ∃ m₁ m,
      h.mmapMspace.addNewChunk buf size = some m₁ ∧ m₁.allocate size = (buf, m) ∧
        h' = { h with mmapMspace := m } := by
  rw [registerHeapMemory, if_pos hlt, bind_eq_some_iff] at hs
  obtain ⟨m₁, hadd, hs⟩ := hs
  rcases halloc : m₁.allocate size with ⟨mmapAlloc, m⟩
  simp only [halloc] at hs
  split_ifs at hs with hsame
  rw [not_or, not_not] at hsame
  cases hs
  exact ⟨m₁, m, hadd, hsame.2 ▸ halloc, rfl⟩

theorem registerHeapMemory_of_ge {buf : ℕ} (hge : h.bottom cfg ≤ buf) :
    h.registerHeapMemory cfg buf size = some h :=
  if_neg (not_lt.mpr hge)

theorem mmapMem_cases {bufPtr flags : ℕ} (hp : PlacedAt cfg.heapBase h.mmapMspace)
    (hs : h.mmapMem cfg bufPtr size flags = some (ptr, h')) :
    0 < size ∧ cfg.memGranularity ∣ size ∧ ∃ m aliases,
      h' = { h with mmapMspace := m, aliasVaMap := aliases, live := (ptr, size) :: h.live } ∧
      (ptr ≠ 0 ∧ h.mmapMspace.allocate size = (ptr, m) ∨
        h.mmapMspace.allocate size = (0, h.mmapMspace) ∧
        h.physicalInternalHeapSize + h.getMmapAllocatedRange cfg + size < cfg.heapSize ∧
        ptr = h.bottom cfg - size ∧
        ∃ m₁, h.mmapMspace.addNewChunk ptr size = some m₁ ∧ m₁.allocate size = (ptr, m)) := by
  have hbase := cfg.base_pos
  simp only [mmapMem] at hs
  split_ifs at hs with hbad
  simp only [not_or, not_not] at hbad
  simp only [bind_eq_bind, bind_eq_some_iff] at hs
  obtain ⟨⟨bufStart, h₁⟩, hplace, aliases, -, h₂, hreg, hs⟩ := hs
  cases hs
  refine ⟨Nat.pos_of_ne_zero hbad.1, Nat.dvd_of_mod_eq_zero hbad.2.1, ?_⟩
  simp only [placeMapping] at hplace
  by_cases hnull : (h.mmapMspace.allocate size).1 = 0
  · rw [hp.allocate_eq_null hbase hnull] at hplace ⊢
    simp only [ne_eq, not_true_eq_false, if_false] at hplace
    split_ifs at hplace with hroom
    cases hplace
    have hbelow : h.bottom cfg - size < h.bottom cfg := by
      simp only [bottom, HeapConfig.mmapBase]
      omega
    obtain ⟨m₁, m, hadd, halloc, rfl⟩ := registerHeapMemory_of_lt hreg hbelow
    exact ⟨m, aliases, rfl, .inr ⟨rfl, by omega, rfl, m₁, hadd, halloc⟩⟩
  · simp only [ne_eq, hnull, not_false_eq_true, if_true] at hplace
    cases hplace
    have hinuse : ∃ n, (h.mmapMspace.allocate size).2.inuseChunks.get?
        (h.mmapMspace.allocate size).1 = some n := by
      rcases allocate_cases h.mmapMspace size with heq | ⟨s, n, -, -, -, heq⟩
      · rw [heq] at hnull
        exact absurd rfl hnull
      · rw [heq]
        exact ⟨_, get?_insert_self⟩
    obtain ⟨n, hn⟩ := hinuse
    rw [registerHeapMemory_of_ge (bottom_le hp.allocate hn)] at hreg
    cases hreg
    exact ⟨_, aliases, rfl, .inl ⟨hnull, rfl⟩⟩

theorem mmapMem_placed {bufPtr flags : ℕ} (hp : PlacedAt cfg.heapBase h.mmapMspace)
    (hs : h.mmapMem cfg bufPtr size flags = some (ptr, h')) :
    PlacedAt cfg.heapBase h'.mmapMspace ∧ cfg.heapBase ≤ ptr ∧
      ∃ n, h'.mmapMspace.inuseChunks = h.mmapMspace.inuseChunks.insert ptr n := by
  obtain ⟨-, -, m, aliases, rfl, hcase⟩ := mmapMem_cases hp hs
  have hbase := cfg.base_pos
  obtain ⟨m₁, hplaced, hkeep, halloc, hptr⟩ : ∃ m₁, PlacedAt cfg.heapBase m₁ ∧
      m₁.inuseChunks = h.mmapMspace.inuseChunks ∧ m₁.allocate size = (ptr, m) ∧ ptr ≠ 0 := by
    rcases hcase with ⟨hptr, halloc⟩ | ⟨-, hroom, rfl, m₁, hadd, halloc⟩
    · exact ⟨_, hp, rfl, halloc, hptr⟩
    · have hle : cfg.heapBase ≤ h.bottom cfg - size := by
        simp only [bottom, HeapConfig.mmapBase]
        omega
      exact ⟨m₁, hp.addNewChunk hle hadd, inuseChunks_of_addNewChunk hadd, halloc, by omega⟩
  have hm : PlacedAt cfg.heapBase (m₁.allocate size).2 := hplaced.allocate
  rw [halloc] at hm
  obtain ⟨n, hn⟩ : ∃ n, m.inuseChunks = h.mmapMspace.inuseChunks.insert ptr n := by
    rcases allocate_cases m₁ size with heq | ⟨s, n, -, -, -, heq⟩
    · rw [heq] at halloc
      exact absurd (congrArg Prod.fst halloc).symm hptr
    · rw [heq] at halloc
      obtain ⟨rfl, rfl⟩ := Prod.mk.inj halloc
      exact ⟨_, by rw [inuseChunks_carve, hkeep]⟩
  have hin : m.inuseChunks.get? ptr = some n := by rw [hn, get?_insert_self]
  exact ⟨hm, hm.le_of_inuse hin, n, hn⟩

theorem unmapMem_cases (hs : h.unmapMem cfg ptr size = some h') : ∃ size' m aliases,
    h.mmapMspace.inuseChunks.get? ptr = some size' ∧ h.mmapMspace.deallocate ptr = some m ∧
      h' = { h with
        mmapMspace := m, aliasVaMap := aliases, live := h.live.filter (·.1 ≠ ptr) } := by
  simp only [unmapMem] at hs
  split_ifs at hs with h₁ h₂ h₃
  obtain ⟨m, hm, rfl⟩ := map_eq_some_iff.mp hs
  rw [Bool.not_eq_false, checkInuse, decide_eq_true_eq] at h₃
  exact ⟨_, m, _, h₃, hm, rfl⟩

theorem step_mmap_eq_some {bufPtr flags : ℕ} :
    h.step cfg (.mmap bufPtr size flags) = some h' ↔
      size < sizeBound ∧ ∃ ptr, h.mmapMem cfg bufPtr size flags = some (ptr, h') := by
  simp only [step]
  split_ifs with hlt <;> simp [hlt]

end Inversion

section Placed

variable {cfg : HeapConfig} {h h' : VmmHeap} {size count alignment ptr : ℕ} {type : MallocType}

def requestCall (size count alignment : ℕ) : MallocType → Call
  | .malloc => .allocate size
  | .calloc => .allocateZeroed count size
  | .align => .allocateAligned alignment size

theorem allocateVirtualMemoryFromMspace_eq {m : Mspace} :
    allocateVirtualMemoryFromMspace m size count alignment type =
      m.call (requestCall size count alignment type) := by
  cases type <;> rfl

theorem at_requestCall {b : ℕ} :
    (requestCall size count alignment type).at b = requestCall size count alignment type := by
  cases type <;> rfl

structure Placed (cfg : HeapConfig) (h : VmmHeap) : Prop where
  heap : PlacedAt cfg.heapBase h.heapMspace
  mmap : PlacedAt cfg.heapBase h.mmapMspace
  live : ∀ r ∈ h.live, cfg.heapBase ≤ r.1
  physical_le : h.physicalInternalHeapSize ≤ cfg.heapSize

theorem Placed.init : (init cfg).Placed cfg where
  heap := ⟨.empty, (fun e n h => by cases h), mmapMspace_init⟩
  mmap := ⟨.empty, (fun e n h => by cases h), mmapMspace_init⟩
  live := by simp [VmmHeap.init]
  physical_le := Nat.zero_le _

theorem Placed.allocate (hi : h.Placed cfg)
    (hs : h.allocateSymmetricMemory cfg size count alignment type = some (ptr, h')) :
    h'.Placed cfg := by
  simp only [allocateSymmetricMemory, allocateVirtualMemoryFromMspace_eq, bind_eq_bind,
    bind_eq_some_iff] at hs
  obtain ⟨⟨ptr₁, m₁⟩, hm₁, hs⟩ := hs
  have hplaced := hi.heap.call cfg.base_pos at_requestCall hm₁
  by_cases hgrow : 0 < size ∧ ptr₁ = 0
  · simp only [hgrow, and_self, if_true, bind_eq_some_iff] at hs
    obtain ⟨h₁, hh₁, ⟨ptr₂, m₂⟩, hm₂, hs⟩ := hs
    obtain ⟨m, -, hroom, hadd, rfl⟩ := allocatePhysicalMemoryToHeap_cases hh₁
    cases hs
    have hadded := hplaced.addNewChunk (Nat.le_add_right ..) hadd
    dsimp only at hroom
    exact ⟨hadded.call cfg.base_pos at_requestCall hm₂, hi.mmap, hi.live, by dsimp only; omega⟩
  · simp only [hgrow, if_false] at hs
    cases hs
    exact ⟨hplaced, hi.mmap, hi.live, hi.physical_le⟩

theorem Placed.step {a : Action} (hi : h.Placed cfg) (hs : h.step cfg a = some h') :
    h'.Placed cfg := by
  cases a with
  | allocate size count alignment type =>
    obtain ⟨⟨ptr, h₁⟩, hs', rfl⟩ := map_eq_some_iff.mp hs
    exact hi.allocate hs'
  | deallocate ptr =>
    obtain ⟨m, hm, rfl⟩ := map_eq_some_iff.mp hs
    exact ⟨hi.heap.deallocate hm, hi.mmap, hi.live, hi.physical_le⟩
  | mmap bufPtr size flags =>
    obtain ⟨-, ptr, hs'⟩ := step_mmap_eq_some.mp hs
    obtain ⟨hmmap, hle, -⟩ := mmapMem_placed hi.mmap hs'
    obtain ⟨-, -, m, aliases, rfl, -⟩ := mmapMem_cases hi.mmap hs'
    exact ⟨hi.heap, hmmap, List.forall_mem_cons.mpr ⟨hle, hi.live⟩, hi.physical_le⟩
  | unmap ptr size =>
    obtain ⟨size', m, aliases, -, hm, rfl⟩ := unmapMem_cases hs
    exact ⟨hi.heap, hi.mmap.deallocate hm, fun r hr => hi.live r (List.mem_filter.mp hr).1,
      hi.physical_le⟩

end Placed

end VmmHeap

end Nvshmem
