import Nvshmem.Heap.UserMapping

/-! # Requests that the heap rejects

The checks of `allocate_physical_memory_to_heap` and of `mmap_mem` that fail go to an exit that calls
`cleanup_symmetric_heap`, which gives back all that the heap has. Two checks do not: that of the flags
leaves the status alone, and that of `heap_allocate` comes before the heap is asked.
-/

namespace Nvshmem

open Mspace Transition Option OrdMap

section MapsBelow

variable {m m' : Mspace} {g top b c k n ptr size : ℕ}

structure Mspace.MapsBelow (g top : ℕ) (m : Mspace) : Prop where
  free : ∀ k n, m.freeChunksStart.get? k = some n → k + n ≤ top
  inuse : ∀ k n, m.inuseChunks.get? k = some n → 0 < n ∧ g ∣ n ∧ k + n ≤ top

theorem Mspace.PlacedAt.fits {base : ℕ} (h : PlacedAt base m) : m.Fits := by
  obtain ⟨o, ho, rfl⟩ := h
  intro e n hn
  have hle : base ≤ e := le_of_get?_shift hn
  obtain ⟨e', rfl⟩ := Nat.exists_eq_add_of_le' hle
  have := ho e' n (get?_shift.symm.trans hn)
  omega

namespace Mspace.MapsBelow

theorem empty : MapsBelow g top .empty :=
  ⟨fun _ _ h => (by cases h), fun _ _ h => (by cases h)⟩

theorem joined (h : m.MapsBelow g top) (hfits : m.Fits) (hc : 0 < c) (hle : b + c ≤ top) :
    (m.joined b c).MapsBelow g top := by
  refine ⟨fun k n hk => ?_, fun k n hk => h.inuse k n (by rwa [inuseChunks_joined] at hk)⟩
  have hprev : m.prevSize b ≤ b := by
    cases hb : m.freeChunksEnd.get? b with
    | none => simp [prevSize, hb]
    | some p => simpa [prevSize, hb] using hfits b p hb
  have hnext : b + c + m.nextSize (b + c) ≤ top := by
    cases hb : m.freeChunksStart.get? (b + c) with
    | none => simpa [nextSize, hb] using hle
    | some p => simpa [nextSize, hb] using h.free (b + c) p hb
  rw [joined_eq (hfits b) hc] at hk
  simp only [get?_insert, get?_erase] at hk
  split_ifs at hk with hfirst hstart
  · cases hk
    omega
  · exact h.free k n hk

theorem addNewChunk (h : m.MapsBelow g top) (hfits : m.Fits) (hc : 0 < c) (hle : b + c ≤ top)
    (hs : m.addNewChunk b c = some m') : m'.MapsBelow g top := by
  obtain ⟨-, rfl⟩ := addFreeChunk_eq_some.mp hs
  have hm : MapsBelow g top { m with totalSize := (m.totalSize + c) % sizeBound } :=
    ⟨h.free, h.inuse⟩
  exact hm.joined hfits hc hle

theorem deallocate (h : m.MapsBelow g top) (hfits : m.Fits) (hs : m.deallocate ptr = some m') :
    m'.MapsBelow g top := by
  cases hptr : m.inuseChunks.get? ptr with
  | none => simp [Mspace.deallocate, hptr] at hs
  | some n =>
    simp only [Mspace.deallocate, hptr] at hs
    obtain ⟨-, rfl⟩ := addFreeChunk_eq_some.mp hs
    obtain ⟨hpos, -, hle⟩ := h.inuse ptr n hptr
    have hm : MapsBelow g top { m with inuseChunks := m.inuseChunks.erase ptr } := by
      refine ⟨h.free, fun k n' hk => h.inuse k n' ?_⟩
      rw [OrdMap.get?_erase] at hk
      split_ifs at hk
      exact hk
    exact hm.joined hfits hpos hle

theorem allocate (h : m.MapsBelow g top) (hsize : 0 < size) (hdvd : g ∣ size)
    (hround : alignRequest size = size) : (m.allocate size).2.MapsBelow g top := by
  rcases allocate_cases m size with heq | ⟨s, n, -, hs, hn, heq⟩
  · rwa [heq]
  · rw [heq, hround]
    have hend := h.free s n hs
    constructor
    · intro k n' hk
      simp only [carve] at hk
      split_ifs at hk with hrest
      · simp only [get?_insert, get?_erase] at hk
        split_ifs at hk with hne hfirst
        · cases hk
          omega
        · exact h.free k n' hk
      · rw [get?_erase] at hk
        split_ifs at hk
        exact h.free k n' hk
    · intro k n' hk
      rw [inuseChunks_carve, get?_insert] at hk
      split_ifs at hk with hfirst
      · cases hk
        exact ⟨hsize, hdvd, by omega⟩
      · exact h.inuse k n' hk

end Mspace.MapsBelow

end MapsBelow

namespace VmmHeap

/-- A call, and the answers that its checks get: whether the size is the same for all PEs, and
whether the buffer is one that can be mapped. -/
structure Attempt where
  action : Action
  symmetric : Bool
  userBuffer : Bool

inductive Rejection where
  | asymmetricRequest | noRoomForRequest
  | zeroSize | asymmetricSize | granularity | userBuffer | flags | noRoomForMapping
deriving DecidableEq

/-- Whether the exit that the check jumps to cleans up. The check of the flags does not set the
status. -/
def Rejection.cleansUp : Rejection → Bool
  | .asymmetricRequest | .flags => false
  | _ => true

variable (cfg : HeapConfig)

/-- The check of `allocate_physical_memory_to_heap`. There is no memory of size zero. -/
def NoRoom (h : VmmHeap) (size : ℕ) : Prop :=
  cfg.roundUp size = 0 ∨
    cfg.heapSize ≤ h.physicalInternalHeapSize + h.getMmapAllocatedRange cfg + cfg.roundUp size

instance (h : VmmHeap) (size : ℕ) : Decidable (h.NoRoom cfg size) :=
  inferInstanceAs (Decidable (_ ∨ _))

/-- The check that rejects a request, in the order of the checks of `heap_allocate`, and of those of
`mmap_mem` and `check_user_buffer_for_mmap`. -/
def rejection (h : VmmHeap) (q : Attempt) : Option Rejection :=
  match q.action with
  | .allocate size count alignment type =>
    if q.symmetric = false then some .asymmetricRequest
    else
      let attempt := allocateVirtualMemoryFromMspace h.heapMspace size count alignment type
      let bytes := if type = .calloc then count * size + alignment else size + alignment
      if attempt.map Prod.fst = some 0 ∧ 0 < size ∧ h.NoRoom cfg bytes then some .noRoomForRequest
      else none
  | .mmap _ size flags =>
    if size = 0 then some .zeroSize
    else if q.symmetric = false then some .asymmetricSize
    else if size % cfg.memGranularity ≠ 0 then some .granularity
    else if q.userBuffer = false then some .userBuffer
    else if flags ≠ 0 then some .flags
    else if (h.placeMapping cfg size).isNone then some .noRoomForMapping
    else none
  | .deallocate _ | .unmap .. => none

/-- The loop of `cleanup_symmetric_heap` over the mappings in use, and whether it went through. -/
def unmapMappings : ℕ → VmmHeap → VmmHeap × Bool
  | 0, h => (h, true)
  | fuel + 1, h =>
    match h.mmapMspace.inuseChunks.first? fun _ _ => true with
    | none => (h, true)
    | some (ptr, size) =>
      match h.unmapMem cfg ptr size with
      | none => (h, false)
      | some h => unmapMappings fuel h

end VmmHeap

/-- The heap, with the ranges of the internal part that memory is mapped to, those of them that are
registered with the transports, and whether the addresses are reserved. A user buffer is mapped and
registered while it is `live`. -/
structure BackedHeap where
  heap : VmmHeap
  cumemHandles : List (ℕ × ℕ)
  remoteHandles : List (ℕ × ℕ)
  reserved : Bool
deriving DecidableEq

namespace BackedHeap

open VmmHeap

section Model

variable (cfg : HeapConfig)

def init : BackedHeap := ⟨.init cfg, [], [], true⟩

def back (s : BackedHeap) (heap : VmmHeap) : BackedHeap :=
  let grown :=
    if heap.physicalInternalHeapSize = s.heap.physicalInternalHeapSize then []
    else
      [(cfg.heapBase + s.heap.physicalInternalHeapSize,
        heap.physicalInternalHeapSize - s.heap.physicalInternalHeapSize)]
  { s with
    heap := heap
    cumemHandles := s.cumemHandles ++ grown
    remoteHandles := s.remoteHandles ++ grown }

def step (s : BackedHeap) (a : Action) : Option BackedHeap := (s.heap.step cfg a).map (s.back cfg)

/-- `cleanup_symmetric_heap`. It stops at a call that fails, as does the one that unmaps no memory of
the internal part. -/
def cleanupSymmetricHeap (s : BackedHeap) : BackedHeap :=
  let (heap, done) := s.heap.unmapMappings cfg s.heap.mmapMspace.inuseChunks.entries.length
  if done = false ∨ heap.physicalInternalHeapSize = 0 then
    { s with heap := heap, remoteHandles := [] }
  else ⟨heap, [], [], false⟩

/-- A request: the check that rejects it, if one does, and what it leaves behind. -/
def request (s : BackedHeap) (q : Attempt) : Option (Option Rejection × BackedHeap) :=
  match s.heap.rejection cfg q with
  | some r => some (some r, if r.cleansUp then s.cleanupSymmetricHeap cfg else s)
  | none => (s.step cfg q.action).map (none, ·)

end Model

variable {cfg : HeapConfig} {s s' : BackedHeap} {a : Action}

structure Inv (cfg : HeapConfig) (s : BackedHeap) : Prop where
  placed : s.heap.Placed cfg
  below : s.heap.mmapMspace.MapsBelow cfg.memGranularity cfg.mmapBase
  registered : s.remoteHandles = [] ↔ s.heap.physicalInternalHeapSize = 0

theorem Inv.init : (init cfg).Inv cfg where
  placed := .init
  below := by
    rw [BackedHeap.init, mmapMspace_init]
    exact .empty
  registered := ⟨fun _ => rfl, fun _ => rfl⟩

theorem Inv.below_step {h h' : VmmHeap} (hp : h.Placed cfg)
    (hb : h.mmapMspace.MapsBelow cfg.memGranularity cfg.mmapBase) (hs : h.step cfg a = some h') :
    h'.mmapMspace.MapsBelow cfg.memGranularity cfg.mmapBase := by
  cases a with
  | allocate size count alignment type =>
    obtain ⟨⟨ptr, h₁⟩, hs', rfl⟩ := map_eq_some_iff.mp hs
    obtain ⟨m, size', -, -, rfl⟩ := allocateSymmetricMemory_cases hs'
    exact hb
  | deallocate ptr =>
    obtain ⟨m, -, rfl⟩ := map_eq_some_iff.mp hs
    exact hb
  | mmap bufPtr size flags =>
    obtain ⟨hlt, ptr, hs'⟩ := step_mmap_eq_some.mp hs
    obtain ⟨hpos, hdvd, m, aliases, rfl, hcase⟩ := mmapMem_cases hp.mmap hs'
    have hround := alignRequest_mapped hlt hdvd
    rcases hcase with ⟨-, halloc⟩ | ⟨-, hroom, rfl, m₁, hadd, halloc⟩
    · have hm := hb.allocate hpos hdvd hround
      rwa [halloc] at hm
    · -- a new chunk ends at the lowest mapping
      have hle : h.bottom cfg - size + size ≤ cfg.mmapBase := by
        simp only [bottom, HeapConfig.mmapBase]
        omega
      have hm := (hb.addNewChunk hp.mmap.fits hpos hle hadd).allocate hpos hdvd hround
      rwa [halloc] at hm
  | unmap ptr size =>
    obtain ⟨size', m, aliases, -, hm, rfl⟩ := unmapMem_cases hs
    exact hb.deallocate hp.mmap.fits hm

theorem physical_le_of_step {h h' : VmmHeap} (hp : h.Placed cfg) (hs : h.step cfg a = some h') :
    h.physicalInternalHeapSize ≤ h'.physicalInternalHeapSize := by
  cases a with
  | allocate size count alignment type =>
    obtain ⟨⟨ptr, h₁⟩, hs', rfl⟩ := map_eq_some_iff.mp hs
    obtain ⟨m, size', -, -, rfl⟩ := allocateSymmetricMemory_cases hs'
    exact Nat.le_add_right ..
  | deallocate ptr =>
    obtain ⟨m, -, rfl⟩ := map_eq_some_iff.mp hs
    exact le_rfl
  | mmap bufPtr size flags =>
    obtain ⟨-, ptr, hs'⟩ := step_mmap_eq_some.mp hs
    obtain ⟨-, -, m, aliases, rfl, -⟩ := mmapMem_cases hp.mmap hs'
    exact le_rfl
  | unmap ptr size =>
    obtain ⟨size', m, aliases, -, -, rfl⟩ := unmapMem_cases hs
    exact le_rfl

theorem Inv.step (h : s.Inv cfg) (hs : s.step cfg a = some s') : s'.Inv cfg := by
  obtain ⟨heap, hheap, rfl⟩ := map_eq_some_iff.mp hs
  refine ⟨h.placed.step hheap, Inv.below_step h.placed h.below hheap, ?_⟩
  have hle := physical_le_of_step h.placed hheap
  simp only [back]
  split_ifs with hsame
  · rw [List.append_nil, hsame]
    exact h.registered
  · have hpos : heap.physicalInternalHeapSize ≠ 0 := by omega
    simp [hpos]

theorem Inv.of_reachable (hr : Reachable (BackedHeap.step cfg) (.init cfg) s) : s.Inv cfg :=
  hr.invariant .init .step

theorem exists_unmapMem {h : VmmHeap} {ptr size : ℕ} (hp : h.Placed cfg)
    (hb : h.mmapMspace.MapsBelow cfg.memGranularity cfg.mmapBase)
    (hfirst : h.mmapMspace.inuseChunks.first? (fun _ _ => true) = some (ptr, size)) :
    ∃ h', h.unmapMem cfg ptr size = some h' := by
  have hin := (get?_of_first? hfirst).1
  obtain ⟨hpos, hdvd, hle⟩ := hb.inuse ptr size hin
  have hbase := hp.mmap.le_of_inuse hin
  have hnull := cfg.base_pos
  have hmapped : cfg.mappedSize size = size :=
    if_neg (not_not.mpr (Nat.mod_eq_zero_of_dvd hdvd))
  have hrange : h.getMmapAllocatedRange cfg = cfg.mmapBase - ptr := by
    simp [getMmapAllocatedRange, getStartInusePtr, hfirst, show ptr ≠ 0 by omega]
  have hinuse : h.mmapMspace.checkInuse ptr size = true := decide_eq_true hin
  have hfree : (h.mmapMspace.inuseChunks.erase ptr).get? ptr = none := by simp
  obtain ⟨m, hm⟩ : ∃ m, h.mmapMspace.deallocate ptr = some m := by
    rw [deallocate, hin]
    exact ⟨_, addFreeChunk_of_none hfree⟩
  simp only [unmapMem, hmapped, hm]
  rw [if_neg (by omega), if_neg (by rw [bottom]; omega), hinuse]
  exact ⟨_, rfl⟩

theorem get?_unmapMappings {fuel k : ℕ} {h : VmmHeap}
    (hk : h.mmapMspace.inuseChunks.get? k = none) :
    (h.unmapMappings cfg fuel).1.mmapMspace.inuseChunks.get? k = none := by
  induction fuel generalizing h with
  | zero => exact hk
  | succ fuel ih =>
    rw [unmapMappings]
    split
    · exact hk
    · split
      · exact hk
      · rename_i h₁ hs
        obtain ⟨size', m, aliases, -, hm, rfl⟩ := unmapMem_cases hs
        apply ih
        rw [inuseChunks_of_deallocate hm, get?_erase]
        split_ifs
        · rfl
        · exact hk

theorem unmapMappings_of_none {fuel : ℕ} {h : VmmHeap}
    (hnone : h.mmapMspace.inuseChunks = .empty) : h.unmapMappings cfg fuel = (h, true) := by
  cases fuel with
  | zero => rfl
  | succ fuel =>
    rw [unmapMappings, hnone]
    rfl

def Bare (s : BackedHeap) : Prop :=
  s.heap.physicalInternalHeapSize = 0 ∧ s.heap.mmapMspace.inuseChunks = .empty

theorem heap_cleanup : (s.cleanupSymmetricHeap cfg).heap =
    (s.heap.unmapMappings cfg s.heap.mmapMspace.inuseChunks.entries.length).1 := by
  simp only [cleanupSymmetricHeap]
  split_ifs <;> rfl

theorem remoteHandles_cleanup : (s.cleanupSymmetricHeap cfg).remoteHandles = [] := by
  simp only [cleanupSymmetricHeap]
  split_ifs <;> rfl

theorem Inv.get?_cleanup (h : s.Inv cfg) {ptr size : ℕ}
    (hfirst : s.heap.mmapMspace.inuseChunks.first? (fun _ _ => true) = some (ptr, size)) :
    (s.cleanupSymmetricHeap cfg).heap.mmapMspace.inuseChunks.get? ptr = none := by
  obtain ⟨h₁, hunmap⟩ := exists_unmapMem h.placed h.below hfirst
  obtain ⟨size', m, aliases, -, hm, rfl⟩ := unmapMem_cases hunmap
  obtain ⟨fuel, hfuel⟩ : ∃ fuel, s.heap.mmapMspace.inuseChunks.entries.length = fuel + 1 :=
    Nat.exists_eq_add_one.mpr (List.length_pos_of_mem (List.mem_of_find?_eq_some hfirst))
  rw [heap_cleanup, hfuel]
  simp only [unmapMappings, hfirst, hunmap]
  apply get?_unmapMappings
  rw [inuseChunks_of_deallocate hm, get?_erase, if_pos rfl]

theorem Inv.cleanup_eq_iff (h : s.Inv cfg) : s.cleanupSymmetricHeap cfg = s ↔ s.Bare := by
  constructor
  · intro heq
    have hhandles : (s.cleanupSymmetricHeap cfg).remoteHandles = [] := remoteHandles_cleanup
    rw [heq] at hhandles
    refine ⟨h.registered.mp hhandles, ?_⟩
    cases hfirst : s.heap.mmapMspace.inuseChunks.first? fun _ _ => true with
    | none =>
      apply ext_get?
      intro k
      rw [eq_none_iff_forall_ne_some.mpr fun n hn => first?_eq_none.mp hfirst k n hn rfl]
      rfl
    | some e =>
      have hgone := h.get?_cleanup hfirst
      rw [heq, (get?_of_first? hfirst).1] at hgone
      cases hgone
  · rintro ⟨hphysical, hnone⟩
    have hhandles := h.registered.mpr hphysical
    simp only [cleanupSymmetricHeap, unmapMappings_of_none hnone, hphysical, or_true, if_true,
      ← hhandles]

/-- The request is rejected by a check that does not clean up: the sizes of the PEs differ, or the
flags are all that is wrong with a mapping. -/
def RejectedGently (cfg : HeapConfig) (q : Attempt) : Prop :=
  match q.action with
  | .allocate .. => q.symmetric = false
  | .mmap _ size flags =>
    0 < size ∧ q.symmetric = true ∧ cfg.memGranularity ∣ size ∧ q.userBuffer = true ∧ flags ≠ 0
  | .deallocate _ | .unmap .. => False

theorem cleansUp_iff {h : VmmHeap} {q : Attempt} {r : Rejection}
    (hr : h.rejection cfg q = some r) : r.cleansUp = false ↔ RejectedGently cfg q := by
  obtain ⟨action, symmetric, userBuffer⟩ := q
  cases action with
  | allocate size count alignment type =>
    cases symmetric with
    | false =>
      cases hr
      exact ⟨fun _ => rfl, fun _ => rfl⟩
    | true =>
      obtain ⟨-, hr⟩ := ite_none_right_eq_some.mp hr
      cases hr
      exact ⟨fun hclean => (by cases hclean), fun hsym => (by cases hsym)⟩
  | deallocate ptr => cases hr
  | unmap ptr size => cases hr
  | mmap bufPtr size flags =>
    simp only [rejection] at hr
    simp only [RejectedGently, Nat.dvd_iff_mod_eq_zero]
    split_ifs at hr with hzero hsym hgran hbuffer hflags hroom <;> cases hr <;>
      simp_all [Rejection.cleansUp, Nat.pos_iff_ne_zero]

/-- A rejected request leaves the blocks, the mappings, the registrations and the allocators alone
exactly if its check does not clean up, or there is nothing to clean up. -/
theorem request_eq_self_iff {q : Attempt} {r : Rejection}
    (hr : Reachable (BackedHeap.step cfg) (.init cfg) s)
    (hq : s.request cfg q = some (some r, s')) : s' = s ↔ RejectedGently cfg q ∨ s.Bare := by
  have hi := Inv.of_reachable hr
  rw [request] at hq
  cases hrej : s.heap.rejection cfg q with
  | none =>
    rw [hrej] at hq
    obtain ⟨s₁, -, heq⟩ := map_eq_some_iff.mp hq
    cases heq
  | some r' =>
    rw [hrej] at hq
    cases hq
    rw [← cleansUp_iff hrej]
    cases hclean : r.cleansUp with
    | false => simp
    | true => simpa using hi.cleanup_eq_iff

def blockAndMapping : List Action := [.allocate 2097152 0 0 .malloc, .mmap 1 2097152 0]

/-- A mapping whose flags are wrong is harmless. -/
theorem request_eq_self_flags : ∃ s,
    exec (BackedHeap.step tenGranules) (.init tenGranules) blockAndMapping = some s ∧
      s.request tenGranules ⟨.mmap 1 2097152 1, true, true⟩ = some (some .flags, s) := by
  refine exists_of_exec (fun s => (s.request tenGranules ⟨.mmap 1 2097152 1, true, true⟩).any
    fun r => r.1 = some .flags) (by decide +kernel) fun s hs hany => ?_
  obtain ⟨⟨r, s'⟩, hq, hflags⟩ := (any_eq_true _ _).mp hany
  obtain rfl : r = some .flags := of_decide_eq_true hflags
  obtain rfl : s' = s := (request_eq_self_iff (.of_exec hs) hq).mpr
    (.inl ⟨by decide, rfl, dvd_rfl, rfl, one_ne_zero⟩)
  exact hq

/-- A request that is too large takes away the memory of the block that is in use, and the mapping. -/
theorem request_ne_self_noRoom : ∃ s s',
    exec (BackedHeap.step tenGranules) (.init tenGranules) blockAndMapping = some s ∧
      s.request tenGranules ⟨.allocate (20 * 2097152) 0 0 .malloc, true, true⟩ =
        some (some .noRoomForRequest, s') ∧
      s'.heap.heapMspace = s.heap.heapMspace ∧ s.cumemHandles ≠ [] ∧ s'.cumemHandles = [] ∧
      s.heap.live ≠ [] ∧ s'.heap.live = [] ∧ s' ≠ s := by
  have hrun : (exec (BackedHeap.step tenGranules) (.init tenGranules) blockAndMapping).any fun s =>
      (s.request tenGranules ⟨.allocate (20 * 2097152) 0 0 .malloc, true, true⟩).any fun r =>
        r.1 = some .noRoomForRequest ∧ r.2.heap.heapMspace = s.heap.heapMspace ∧
          s.cumemHandles ≠ [] ∧ r.2.cumemHandles = [] ∧ s.heap.live ≠ [] ∧ r.2.heap.live = [] := by
    decide +kernel
  obtain ⟨s, hs, hany⟩ := (any_eq_true _ _).mp hrun
  obtain ⟨⟨r, s'⟩, hq, hall⟩ := (any_eq_true _ _).mp hany
  obtain ⟨rfl, hmspace, hbacked, hgone, hlive, hunmapped⟩ := of_decide_eq_true hall
  refine ⟨s, s', hs, hq, hmspace, hbacked, hgone, hlive, hunmapped, ?_⟩
  rintro rfl
  exact hbacked hgone

end BackedHeap

end Nvshmem
