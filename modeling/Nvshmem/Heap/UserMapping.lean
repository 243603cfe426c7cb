import Nvshmem.Heap.VmmHeap

/-! # User mappings of the heap

The allocator of the mappings manages an interval that ends at the top of the
range. A new range is placed below the lowest mapping in use, which is the
bottom of the interval unless a free chunk lies below that mapping. Under that
condition live mappings and chunks stay disjoint; without it the allocator ends
up with a free chunk inside a live mapping.
-/

namespace Nvshmem.VmmHeap

open Intervals Mspace Transition Option List

variable {cfg : HeapConfig} {h h' : VmmHeap} {S : Store} {L size ptr : ℕ}

def ExtendsAtBottom (cfg : HeapConfig) (h : VmmHeap) : Action → Prop
  | .mmap _ size _ =>
    (h.mmapMspace.allocate size).1 ≠ 0 ∨
      h.mmapMspace.freeChunksEnd.get? (h.bottom cfg) = none
  | _ => True

instance (h : VmmHeap) : (a : Action) → Decidable (h.ExtendsAtBottom cfg a)
  | .mmap .. => inferInstanceAs (Decidable (_ ∨ _))
  | .allocate .. | .deallocate _ | .unmap .. => inferInstanceAs (Decidable True)

/-- The allocator of the mappings manages the interval from `L` to the end of the range, and
the live mappings are blocks of it. -/
structure Mapped (cfg : HeapConfig) (h : VmmHeap) (S : Store) (L : ℕ) : Prop where
  inv : h.mmapMspace.Inv S (Set.Ico L cfg.mmapBase)
  placed : PlacedAt cfg.heapBase h.mmapMspace
  le : L ≤ cfg.mmapBase
  total : h.mmapMspace.totalSize = cfg.mmapBase - L
  inuse : ∀ r ∈ h.live, h.mmapMspace.inuseChunks.get? r.1 = some r.2
  nodup : (h.live.map Prod.fst).Nodup

theorem Mapped.init : (init cfg).Mapped cfg ⟨∅, .empty⟩ cfg.mmapBase where
  inv := by
    rw [mmapMspace_init, Set.Ico_self]
    exact .empty
  placed := ⟨.empty, (fun e n h => by cases h), mmapMspace_init⟩
  le := le_rfl
  total := by
    rw [mmapMspace_init, Nat.sub_self]
    rfl
  inuse := by simp [VmmHeap.init]
  nodup := by simp [VmmHeap.init]

theorem Mapped.bottom_eq (hi : h.Mapped cfg S L)
    (hend : h.mmapMspace.freeChunksEnd.get? (h.bottom cfg) = none) : h.bottom cfg = L := by
  have hL := hi.le
  have hfree : h.bottom cfg ∉ S.free → ∀ x, x + 1 = h.bottom cfg → x ∉ S.free := fun hb x =>
    notMem_of_forall_stop hi.inv.wf.finite hb (hi.inv.rep.stop_ne_of_none hend)
  have hlow : ∀ {k n}, S.live.get? k = some n → h.bottom cfg ≤ k := fun hk =>
    bottom_le hi.placed (by rwa [hi.inv.rep.inuse])
  obtain ⟨hle, hge, hb⟩ : L ≤ h.bottom cfg ∧ h.bottom cfg ≤ cfg.mmapBase ∧
      h.bottom cfg ∉ S.free := by
    rcases bottom_cases hi.placed with hbot | ⟨k, n, hk, hbot⟩
    · refine ⟨by omega, by omega, fun hmem => ?_⟩
      have := ((hi.inv.wf.cover _).mpr (.inl hmem)).2
      omega
    · rw [hi.inv.rep.inuse] at hk
      have hpos := hi.inv.wf.pos hk
      obtain ⟨h₁, h₂⟩ := (hi.inv.wf.cover k).mpr (.inr ⟨k, n, hk, le_rfl, by omega⟩)
      obtain rfl : k = h.bottom cfg := by omega
      exact ⟨h₁, h₂.le, hi.inv.wf.notMem_free hk le_rfl (by omega)⟩
  by_contra hne
  have hx : h.bottom cfg - 1 ∈ Set.Ico L cfg.mmapBase := ⟨by omega, by omega⟩
  rcases (hi.inv.wf.cover _).mp hx with hx | ⟨p, c, hp, h₁, h₂⟩
  · exact hfree hb _ (by omega) hx
  · have := hlow hp
    omega

theorem alignRequest_mapped (hlt : size < sizeBound) (hdvd : cfg.memGranularity ∣ size) :
    alignRequest size = size := by
  obtain ⟨k, rfl⟩ := cfg.granularity_dvd.trans hdvd
  simp only [alignRequest, mallocAlignment, sizeBound] at *
  omega

theorem Mapped.of_allocate {m₁ m : Mspace} {S₁ : Store} {aliases : OrdMap ℕ ℕ}
    (hi : h.Mapped cfg S L) {L' : ℕ} (hinv : m₁.Inv S₁ (Set.Ico L' cfg.mmapBase))
    (hplaced : PlacedAt cfg.heapBase m₁) (hle : L' ≤ cfg.mmapBase)
    (htotal : m₁.totalSize = cfg.mmapBase - L')
    (hkeep : m₁.inuseChunks = h.mmapMspace.inuseChunks) (hround : alignRequest size = size)
    (halloc : m₁.allocate size = (ptr, m)) (hptr : ptr ≠ 0) :
    Mapped cfg { h with mmapMspace := m, aliasVaMap := aliases, live := (ptr, size) :: h.live }
      (S₁.take ptr size) L' := by
  obtain ⟨hm, hin, hnone, ht⟩ := hinv.allocate_block hround halloc hptr
  have hfresh : ∀ r ∈ h.live, r.1 ≠ ptr := fun r hr heq => by
    rw [hkeep, ← heq, hi.inuse r hr] at hnone
    cases hnone
  refine ⟨hm, ?_, hle, ht.trans htotal, ?_, ?_⟩
  · have : PlacedAt cfg.heapBase (m₁.allocate size).2 := hplaced.allocate
    rwa [halloc] at this
  · refine forall_mem_cons.mpr ⟨by rw [hin, OrdMap.get?_insert_self], fun r hr => ?_⟩
    rw [hin, OrdMap.get?_insert, if_neg (hfresh r hr), hkeep, hi.inuse r hr]
  · rw [map_cons, nodup_cons]
    refine ⟨fun hmem => ?_, hi.nodup⟩
    obtain ⟨r, hr, heq⟩ := mem_map.mp hmem
    exact hfresh r hr heq

theorem Mapped.mmap (hi : h.Mapped cfg S L) {bufPtr flags : ℕ} (hlt : size < sizeBound)
    (hs : h.mmapMem cfg bufPtr size flags = some (ptr, h'))
    (hext : h.ExtendsAtBottom cfg (.mmap bufPtr size flags)) :
    ∃ S' L', h'.Mapped cfg S' L' := by
  obtain ⟨hpos, hdvd, m, aliases, rfl, hcase⟩ := mmapMem_cases hi.placed hs
  have hround := alignRequest_mapped hlt hdvd
  rcases hcase with ⟨hptr, halloc⟩ | ⟨hnull, hroom, rfl, m₁, hadd, halloc⟩
  · exact ⟨_, L, hi.of_allocate hi.inv hi.placed hi.le hi.total rfl hround halloc hptr⟩
  · have hbot : h.bottom cfg = L := by
      refine hi.bottom_eq (hext.resolve_left ?_)
      rw [hnull]
      exact fun hne => hne rfl
    have hbound := cfg.bounded
    have hmb : cfg.mmapBase = cfg.heapBase + cfg.heapSize := rfl
    have hLb : cfg.heapBase + size < L := by
      rw [← hbot, bottom]
      omega
    have hL := hi.le
    obtain ⟨m₁', hadd', hinv, ht⟩ := hi.inv.addNewChunk (b := h.bottom cfg - size) hpos
      (fun x hx hx' => by
        simp only [Set.mem_Ico] at hx hx'
        omega) (by rw [hi.total]; simp only [mallocAlignment] at hbound; omega)
    obtain rfl : m₁ = m₁' := some.inj (hadd.symm.trans hadd')
    have hset : Set.Ico L cfg.mmapBase ∪
        Set.Ico (h.bottom cfg - size) (h.bottom cfg - size + size) =
          Set.Ico (L - size) cfg.mmapBase := by
      ext x
      simp only [Set.mem_union, Set.mem_Ico]
      omega
    rw [hset] at hinv
    exact ⟨_, L - size, hi.of_allocate hinv (hi.placed.addNewChunk (by omega) hadd) (by omega)
      (by rw [ht, hi.total]; omega) (inuseChunks_of_addNewChunk hadd) hround halloc (by omega)⟩

theorem Mapped.unmap (hi : h.Mapped cfg S L) (hs : h.unmapMem cfg ptr size = some h') :
    ∃ S' L', h'.Mapped cfg S' L' := by
  obtain ⟨size', m, aliases, hin, hm, rfl⟩ := unmapMem_cases hs
  obtain ⟨m', hm', hinv, ht⟩ := hi.inv.deallocate (by rwa [← hi.inv.rep.inuse])
  obtain rfl : m = m' := some.inj (hm.symm.trans hm')
  refine ⟨_, L, hinv, hi.placed.deallocate hm, hi.le, ht.trans hi.total, fun r hr => ?_, ?_⟩
  · obtain ⟨hr, hne⟩ := mem_filter.mp hr
    rw [decide_eq_true_eq] at hne
    rw [inuseChunks_of_deallocate hm, OrdMap.get?_erase, if_neg hne, hi.inuse r hr]
  · exact hi.nodup.sublist (filter_sublist.map _)

theorem Mapped.step (hi : h.Mapped cfg S L) {a : Action} (ha : h.ExtendsAtBottom cfg a)
    (hs : h.step cfg a = some h') : ∃ S' L', h'.Mapped cfg S' L' := by
  cases a with
  | allocate size count alignment type =>
    obtain ⟨⟨ptr, h₁⟩, hs', rfl⟩ := map_eq_some_iff.mp hs
    obtain ⟨m, size', -, -, rfl⟩ := allocateSymmetricMemory_cases hs'
    exact ⟨S, L, hi.inv, hi.placed, hi.le, hi.total, hi.inuse, hi.nodup⟩
  | deallocate ptr =>
    obtain ⟨m, -, rfl⟩ := map_eq_some_iff.mp hs
    exact ⟨S, L, hi.inv, hi.placed, hi.le, hi.total, hi.inuse, hi.nodup⟩
  | mmap bufPtr size flags =>
    obtain ⟨hlt, ptr, hs'⟩ := step_mmap_eq_some.mp hs
    exact hi.mmap hlt hs' ha
  | unmap ptr size => exact hi.unmap hs

/-- Live mappings are pairwise disjoint, and so are the chunks of their allocator. -/
def MappingsApart (h : VmmHeap) : Prop := h.live.Pairwise Apart ∧ h.mmapMspace.ChunksApart

theorem Mapped.mappingsApart (hi : h.Mapped cfg S L) : h.MappingsApart := by
  refine ⟨?_, hi.inv.chunksApart⟩
  have hne : h.live.Pairwise fun r r' => r.1 ≠ r'.1 := pairwise_map.mp hi.nodup
  refine hne.imp_of_mem fun {r r'} hr hr' hne => ?_
  exact hi.inv.chunksApart.inuse _ _ _ _ (hi.inuse r hr) (hi.inuse r' hr') hne

/-- While mappings that find no hole are placed at the bottom, mappings and chunks stay
disjoint. -/
theorem mappingsApart_of_reachable
    (hr : Reachable (restrict (ExtendsAtBottom cfg) (VmmHeap.step cfg)) (init cfg) h) :
    h.MappingsApart := by
  obtain ⟨S, L, hi⟩ : ∃ S L, h.Mapped cfg S L := by
    refine hr.invariant (I := fun h => ∃ S L, h.Mapped cfg S L) ⟨_, _, .init⟩ ?_
    rintro u a v ⟨S, L, hu⟩ hs
    obtain ⟨ha, hs⟩ := restrict_eq_some.mp hs
    exact hu.step ha hs
  exact hi.mappingsApart

def extendAtBottom : List Action :=
  [.mmap 1 2097152 0, .mmap 1 2097152 0, .unmap (9 * 2097152) 2097152, .mmap 1 2097152 0,
    .mmap 1 (2 * 2097152) 0]

theorem mappingsApart_extendAtBottom : ∃ h,
    exec (restrict (ExtendsAtBottom tenGranules) (VmmHeap.step tenGranules)) (init tenGranules)
      extendAtBottom = some h ∧ h.MappingsApart := by
  exact exists_of_exec (fun _ => True) (by decide +kernel) fun _ hh _ =>
    mappingsApart_of_reachable (.of_exec hh)

def extendOverHole : List Action :=
  [.mmap 1 2097152 0, .mmap 1 2097152 0, .unmap (9 * 2097152) 2097152, .mmap 1 (2 * 2097152) 0]

/-- The free chunk left by the unmapped buffer lies inside the next mapping. -/
theorem not_mappingsApart_extendOverHole : ∃ h,
    exec (VmmHeap.step tenGranules) (init tenGranules) extendOverHole = some h ∧
      ¬ h.MappingsApart := by
  refine exists_of_exec (fun h =>
    h.mmapMspace.freeChunksStart.get? (9 * 2097152) = some 2097152 ∧
      h.mmapMspace.inuseChunks.get? (8 * 2097152) = some (2 * 2097152)) (by decide +kernel) ?_
  rintro h - ⟨hfree, hinuse⟩ hapart
  have := hapart.2.free_inuse _ _ _ _ hfree hinuse
  simp [Apart] at this

end Nvshmem.VmmHeap
