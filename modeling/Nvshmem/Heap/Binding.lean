import Nvshmem.Heap.VmmHeap

/-! # The memory of the heap in the multicast object of a team

The heap keeps the handles of its memory in a table. Unmapping a user buffer releases its handle, and
the entry stays in the table with a mark. A team that is created later binds every entry.
-/

namespace Nvshmem.Binding

open Transition VmmHeap List

/-- An entry of `cumem_handles_`, without the handle, which is known by its place. -/
structure CumemHandle where
  allocOffset : ℕ
  mmapSize : ℕ
  released : Bool
deriving DecidableEq

structure State where
  heap : VmmHeap
  cumemHandles : List CumemHandle
  mmapHandleIdx : OrdMap ℕ ℕ

namespace State

def Released (s : State) : Prop := ∃ e ∈ s.cumemHandles, e.released = true

instance (s : State) : Decidable s.Released := inferInstanceAs (Decidable (∃ e ∈ _, _))

/-- The end of `unmap_mem`: the handle is released if the buffer is in the index. -/
def releaseHandle (s : State) (ptr : ℕ) : State :=
  match s.mmapHandleIdx.get? ptr with
  | none => s
  | some i =>
    { s with
      cumemHandles := s.cumemHandles.modify i fun e => { e with released := true }
      mmapHandleIdx := s.mmapHandleIdx.erase ptr }

/-- The places of the handles that `nvls_bind_heap_memory_by_team` binds, in this order. -/
def nvlsBindHeapMemoryByTeam (s : State) : List ℕ := List.range s.cumemHandles.length

def BindsLive (s : State) : Prop :=
  ∀ i, i ∈ s.nvlsBindHeapMemoryByTeam ↔ ∃ e, s.cumemHandles[i]? = some e ∧ e.released = false

variable (cfg : HeapConfig)

def init : State := ⟨.init cfg, [], .empty⟩

/-- A growth of the internal part comes with a handle for the new memory. -/
def grow (s : State) (heap : VmmHeap) : State :=
  if heap.physicalInternalHeapSize = s.heap.physicalInternalHeapSize then { s with heap := heap }
  else
    { s with
      heap := heap
      cumemHandles := s.cumemHandles ++ [⟨s.heap.physicalInternalHeapSize,
        heap.physicalInternalHeapSize - s.heap.physicalInternalHeapSize, false⟩] }

/-- The calls of the heap that return success. Creating a team leaves the table as it is. -/
def step (s : State) : Action → Option State
  | .mmap bufPtr size flags =>
    if size < sizeBound then
      (s.heap.mmapMem cfg bufPtr size flags).map fun (ptr, heap) =>
        ⟨heap, s.cumemHandles ++ [⟨ptr - cfg.heapBase, size, false⟩],
          s.mmapHandleIdx.insert ptr s.cumemHandles.length⟩
    else none
  | .unmap ptr size =>
    (s.heap.unmapMem cfg ptr size).map fun heap => { s.releaseHandle ptr with heap := heap }
  | a => (s.heap.step cfg a).map s.grow

variable {cfg} {s t : State} {a : Action}

/-- Each mapping in use has its handle in the table. -/
structure Inv (cfg : HeapConfig) (s : State) : Prop where
  placed : s.heap.Placed cfg
  indexed : ∀ ptr n, s.heap.mmapMspace.inuseChunks.get? ptr = some n →
    ∃ i < s.cumemHandles.length, s.mmapHandleIdx.get? ptr = some i

theorem Inv.init : (init cfg).Inv cfg where
  placed := .init
  indexed ptr n h := by
    rw [State.init, mmapMspace_init] at h
    cases h

theorem Inv.grow {heap : VmmHeap} (h : s.Inv cfg) (hplaced : heap.Placed cfg)
    (hmmap : heap.mmapMspace = s.heap.mmapMspace) : (s.grow heap).Inv cfg := by
  have hindexed := hmmap ▸ h.indexed
  rw [State.grow]
  split_ifs
  · exact ⟨hplaced, hindexed⟩
  · refine ⟨hplaced, fun ptr n hn => ?_⟩
    obtain ⟨i, hi, hget⟩ := hindexed ptr n hn
    exact ⟨i, by rw [length_append]; exact Nat.lt_add_right _ hi, hget⟩

theorem released_grow {heap : VmmHeap} : (s.grow heap).Released ↔ s.Released := by
  rw [State.grow]
  split_ifs
  · exact Iff.rfl
  · simp [Released]

/-- A step keeps the invariant, and a handle is released exactly by an unmapping. -/
theorem Inv.step (h : s.Inv cfg) (hs : s.step cfg a = some t) :
    t.Inv cfg ∧ (t.Released ↔ s.Released ∨ ∃ ptr size, a = .unmap ptr size) := by
  cases a with
  | allocate size count alignment type =>
    obtain ⟨heap, hheap, rfl⟩ := Option.map_eq_some_iff.mp hs
    obtain ⟨⟨ptr, h₁⟩, hcall, rfl⟩ := Option.map_eq_some_iff.mp hheap
    obtain ⟨m, size', -, -, rfl⟩ := allocateSymmetricMemory_cases hcall
    exact ⟨h.grow (h.placed.step hheap) rfl, by simp [released_grow]⟩
  | deallocate ptr =>
    obtain ⟨heap, hheap, rfl⟩ := Option.map_eq_some_iff.mp hs
    obtain ⟨m, -, rfl⟩ := Option.map_eq_some_iff.mp hheap
    exact ⟨h.grow (h.placed.step hheap) rfl, by simp [released_grow]⟩
  | mmap bufPtr size flags =>
    simp only [State.step] at hs
    split_ifs at hs with hlt
    obtain ⟨⟨ptr, heap⟩, hheap, rfl⟩ := Option.map_eq_some_iff.mp hs
    obtain ⟨-, -, n, hinuse⟩ := mmapMem_placed h.placed.mmap hheap
    refine ⟨⟨h.placed.step (step_mmap_eq_some.mpr ⟨hlt, ptr, hheap⟩), ?_⟩, by simp [Released]⟩
    intro ptr' n' hn'
    rw [hinuse, OrdMap.get?_insert] at hn'
    rw [OrdMap.get?_insert, length_append]
    split_ifs at hn' ⊢ with heq
    · exact ⟨_, Nat.lt_succ_self _, rfl⟩
    · obtain ⟨i, hi, hget⟩ := h.indexed ptr' n' hn'
      exact ⟨i, Nat.lt_succ_of_lt hi, hget⟩
  | unmap ptr size =>
    obtain ⟨heap, hheap, rfl⟩ := Option.map_eq_some_iff.mp hs
    have hplaced := h.placed.step (a := .unmap ptr size) hheap
    obtain ⟨size', m, aliases, hinuse, hm, rfl⟩ := unmapMem_cases hheap
    obtain ⟨i, hi, hget⟩ := h.indexed ptr size' hinuse
    simp only [releaseHandle, hget]
    refine ⟨⟨hplaced, fun ptr' n' hn' => ?_⟩, iff_of_true ?_ (.inr ⟨ptr, size, rfl⟩)⟩
    · rw [Mspace.inuseChunks_of_deallocate hm, OrdMap.get?_erase] at hn'
      rw [OrdMap.get?_erase, length_modify]
      split_ifs at hn' ⊢
      exact h.indexed ptr' n' hn'
    · have hentry := getElem?_eq_getElem hi
      exact ⟨_, mem_of_getElem? (by rw [getElem?_modify_eq, hentry]; rfl), rfl⟩

theorem Inv.exec {as : List Action} (h : s.Inv cfg) (hs : exec (State.step cfg) s as = some t) :
    t.Released ↔ s.Released ∨ ∃ ptr size, .unmap ptr size ∈ as := by
  induction as generalizing s with
  | nil =>
    cases hs
    simp
  | cons a as ih =>
    obtain ⟨u, hu, hs⟩ := exec_cons_eq_some.mp hs
    obtain ⟨hinv, hreleased⟩ := h.step hu
    rw [ih hinv hs, hreleased, or_assoc]
    simp only [mem_cons, exists_or, eq_comm]

theorem bindsLive_iff_not_released : s.BindsLive ↔ ¬ s.Released := by
  simp only [BindsLive, nvlsBindHeapMemoryByTeam, mem_range]
  constructor
  · rintro h ⟨e, he, hreleased⟩
    obtain ⟨i, hi⟩ := mem_iff_getElem?.mp he
    obtain ⟨e', he', hlive⟩ := (h i).mp (List.getElem?_eq_some_iff.mp hi).1
    cases hi.symm.trans he'
    exact Bool.false_ne_true (hlive.symm.trans hreleased)
  · intro h i
    constructor
    · intro hi
      have hentry := getElem?_eq_getElem hi
      exact ⟨_, hentry, Bool.eq_false_iff.mpr fun hr => h ⟨_, mem_of_getElem? hentry, hr⟩⟩
    · rintro ⟨e, he, -⟩
      exact (List.getElem?_eq_some_iff.mp he).1

/-- A team binds exactly the handles that are live if and only if nothing has been unmapped. -/
theorem bindsLive_iff (cfg : HeapConfig) (as : List Action) (s : State)
    (hs : exec (State.step cfg) (init cfg) as = some s) :
    s.BindsLive ↔ ∀ ptr size, .unmap ptr size ∉ as := by
  rw [bindsLive_iff_not_released, Inv.init.exec hs]
  simp [Released, init]

theorem bindsLive_growAndMap : ∃ s, exec (State.step tenGranules) (init tenGranules)
    [.allocate 2097152 0 0 .malloc, .mmap 1 2097152 0] = some s ∧ s.BindsLive :=
  exists_of_exec (fun _ => True) (by decide +kernel) fun s hs _ =>
    (bindsLive_iff tenGranules _ s hs).mpr (by simp)

theorem not_bindsLive_unmapped : ∃ s, exec (State.step tenGranules) (init tenGranules)
    [.mmap 1 2097152 0, .unmap (10 * 2097152) 2097152] = some s ∧ ¬ s.BindsLive :=
  exists_of_exec State.Released (by decide +kernel) fun _ _ h hlive =>
    bindsLive_iff_not_released.mp hlive h

end State

end Nvshmem.Binding
