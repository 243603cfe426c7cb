import Nvshmem.Heap.VmmHeap

/-! # The internal part of the heap and the user mappings

Growth and extension check each other's current extent, but a hole between the
mappings is reused without such a check. As long as reused holes lie above the
internal part, no live mapping overlaps it; a hole left behind by an unmapped
buffer can be swallowed by growth and then be handed out again.
-/

namespace Nvshmem.VmmHeap

open Mspace Transition

variable {cfg : HeapConfig} {h h' : VmmHeap}

def PrefixApart (cfg : HeapConfig) (h : VmmHeap) : Prop :=
  ∀ r ∈ h.live, cfg.heapBase + h.physicalInternalHeapSize ≤ r.1 ∨ r.1 + r.2 ≤ cfg.heapBase

instance (h : VmmHeap) : Decidable (h.PrefixApart cfg) :=
  inferInstanceAs (Decidable (∀ r ∈ h.live, _))

def HoleAbovePrefix (cfg : HeapConfig) (h : VmmHeap) : Action → Prop
  | .mmap _ size _ =>
    (h.mmapMspace.allocate size).1 = 0 ∨
      cfg.heapBase + h.physicalInternalHeapSize ≤ (h.mmapMspace.allocate size).1
  | _ => True

instance (h : VmmHeap) : (a : Action) → Decidable (h.HoleAbovePrefix cfg a)
  | .mmap .. => inferInstanceAs (Decidable (_ ∨ _))
  | .allocate .. | .deallocate _ | .unmap .. => inferInstanceAs (Decidable True)

structure Separated (cfg : HeapConfig) (h : VmmHeap) : Prop where
  placed : PlacedAt cfg.heapBase h.mmapMspace
  inuse : ∀ r ∈ h.live, ∃ n, h.mmapMspace.inuseChunks.get? r.1 = some n
  above : ∀ r ∈ h.live, cfg.heapBase + h.physicalInternalHeapSize ≤ r.1

theorem Separated.init : (init cfg).Separated cfg where
  placed := ⟨.empty, (fun e n h => by cases h), mmapMspace_init⟩
  inuse := by simp [VmmHeap.init]
  above := by simp [VmmHeap.init]

theorem Separated.allocate (hi : h.Separated cfg) {size count alignment ptr : ℕ}
    {type : MallocType}
    (hs : h.allocateSymmetricMemory cfg size count alignment type = some (ptr, h')) :
    h'.Separated cfg := by
  obtain ⟨m, size', hroom, -, rfl⟩ := allocateSymmetricMemory_cases hs
  refine ⟨hi.placed, hi.inuse, fun r hr => ?_⟩
  obtain ⟨n, hn⟩ := hi.inuse r hr
  have hbottom := bottom_le hi.placed hn
  have habove := hi.above r hr
  simp only [bottom, HeapConfig.mmapBase] at hbottom ⊢
  omega

theorem Separated.mmap (hi : h.Separated cfg) {bufPtr size flags ptr : ℕ}
    (hs : h.mmapMem cfg bufPtr size flags = some (ptr, h'))
    (hhole : h.HoleAbovePrefix cfg (.mmap bufPtr size flags)) : h'.Separated cfg := by
  obtain ⟨hpos, -, m, aliases, rfl, hcase⟩ := mmapMem_cases hi.placed hs
  have habove : cfg.heapBase + h.physicalInternalHeapSize ≤ ptr := by
    rcases hcase with ⟨hne, halloc⟩ | ⟨-, hroom, rfl, -⟩
    · simp only [HoleAbovePrefix, halloc] at hhole
      exact hhole.resolve_left hne
    · simp only [bottom, HeapConfig.mmapBase]
      omega
  obtain ⟨hplaced, -, n, hn⟩ := mmapMem_placed hi.placed hs
  refine ⟨hplaced, ?_, List.forall_mem_cons.mpr ⟨habove, hi.above⟩⟩
  refine List.forall_mem_cons.mpr ⟨⟨n, by rw [hn, OrdMap.get?_insert_self]⟩, fun r hr => ?_⟩
  rw [hn, OrdMap.get?_insert]
  split_ifs
  · exact ⟨n, rfl⟩
  · exact hi.inuse r hr

theorem Separated.unmap (hi : h.Separated cfg) {ptr size : ℕ}
    (hs : h.unmapMem cfg ptr size = some h') : h'.Separated cfg := by
  obtain ⟨size', m, aliases, hin, hm, rfl⟩ := unmapMem_cases hs
  refine ⟨hi.placed.deallocate hm, fun r hr => ?_, fun r hr => hi.above r (List.mem_filter.mp hr).1⟩
  obtain ⟨hr, hne⟩ := List.mem_filter.mp hr
  rw [decide_eq_true_eq] at hne
  obtain ⟨n, hn⟩ := hi.inuse r hr
  exact ⟨n, by rw [inuseChunks_of_deallocate hm, OrdMap.get?_erase, if_neg hne, hn]⟩

theorem Separated.step (hi : h.Separated cfg) {a : Action} (ha : h.HoleAbovePrefix cfg a)
    (hs : h.step cfg a = some h') : h'.Separated cfg := by
  cases a with
  | allocate size count alignment type =>
    obtain ⟨⟨ptr, h₁⟩, hs', rfl⟩ := Option.map_eq_some_iff.mp hs
    exact hi.allocate hs'
  | deallocate ptr =>
    obtain ⟨m, -, rfl⟩ := Option.map_eq_some_iff.mp hs
    exact ⟨hi.placed, hi.inuse, hi.above⟩
  | mmap bufPtr size flags =>
    obtain ⟨-, ptr, hs'⟩ := step_mmap_eq_some.mp hs
    exact hi.mmap hs' ha
  | unmap ptr size => exact hi.unmap hs

def reuseAbovePrefix : List Action :=
  [.mmap 1 2097152 0, .mmap 1 (3 * 2097152) 0, .unmap (7 * 2097152) (3 * 2097152),
    .allocate (2 * 2097152) 0 0 .malloc, .mmap 1 (2 * 2097152) 0]

def reuseBelowPrefix : List Action :=
  [.mmap 1 2097152 0, .mmap 1 (5 * 2097152) 0, .unmap (5 * 2097152) (5 * 2097152),
    .allocate (7 * 2097152) 0 0 .malloc, .mmap 1 (5 * 2097152) 0]

end Nvshmem.VmmHeap
