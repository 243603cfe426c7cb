import Nvshmem.Heap.Partition

/-! # The sizes of allocations

The size that the allocator looks for is a sum or a product that wraps around, and it is rounded up
with another sum. A request is served or refused as it should be exactly if nothing wraps around, or
nothing is found for what remains of the request.
-/

namespace Nvshmem.Mspace

open Option Option OrdMap

variable {m : Mspace} {s n t bytes total : ℕ}

def Call.demand : Call → Option (ℕ × ℕ)
  | .allocate bytes => some (bytes, bytes)
  | .allocateZeroed nElements elemSize => some (nElements * elemSize, nElements * elemSize)
  | .allocateAligned alignment bytes => some (bytes, bytes + alignment)
  | _ => none

/-- The arguments are values of `size_t`. -/
def Call.InRange : Call → Prop
  | .allocate bytes => bytes < sizeBound
  | .allocateZeroed nElements elemSize => nElements < sizeBound ∧ elemSize < sizeBound
  | .allocateAligned alignment bytes => alignment < sizeBound ∧ bytes < sizeBound
  | _ => True

/-- The assertion of `allocate_aligned`. -/
def Call.Asserts : Call → Prop
  | .allocateAligned alignment _ => alignment % 8 = 0 ∧ alignment &&& (alignment - 1) = 0
  | _ => True

/-- A block that is returned was free and is as long as asked for, and a request whose size cannot
be represented is refused. -/
structure Sized (m : Mspace) (bytes total : ℕ) (result : Option (ℕ × Mspace)) : Prop where
  usable : ∀ ptr m', result = some (ptr, m') → ptr ≠ 0 →
    ∃ len, m'.inuseChunks.get? ptr = some len ∧ bytes ≤ len ∧
      ∃ s n, m.freeChunksStart.get? s = some n ∧ s ≤ ptr ∧ ptr + len ≤ s + n
  refused : sizeBound ≤ total + 511 → ∃ m', result = some (0, m') ∧
    m'.freeChunksStart = m.freeChunksStart ∧ m'.freeChunksEnd = m.freeChunksEnd

def Rejects (m : Mspace) (t : ℕ) : Prop :=
  t = 0 ∨ ∀ s n, m.freeChunksStart.get? s = some n → n < alignRequest t

theorem allocate_of_rejects (h : m.Rejects t) : m.allocate t = (0, m) := by
  rcases allocate_cases m t with heq | ⟨s, n, hpos, hs, hn, -⟩
  · exact heq
  · rcases h with rfl | h
    · exact absurd hpos (lt_irrefl 0)
    · exact absurd (h s n hs) (not_lt.mpr hn)

theorem allocate_of_not_rejects (h : ¬ m.Rejects t) :
    ∃ s n, m.freeChunksStart.get? s = some n ∧ alignRequest t ≤ n ∧
      m.allocate t = (s, m.carve s n (alignRequest t)) := by
  rw [Rejects, not_or] at h
  simp only [allocate, if_neg h.1]
  cases hf : m.freeChunksStart.first? fun _ size => decide (alignRequest t ≤ size) with
  | none =>
    refine absurd (fun s n hs => ?_) h.2
    simpa using first?_eq_none.mp hf s n hs
  | some r =>
    obtain ⟨hs, hn⟩ := get?_of_first? hf
    exact ⟨r.1, r.2, hs, of_decide_eq_true hn, rfl⟩

theorem carve_ne (hs : m.freeChunksStart.get? s = some n) :
    (m.carve s n t).freeChunksStart ≠ m.freeChunksStart := by
  intro heq
  have hnone : (m.carve s n t).freeChunksStart.get? s = none := by
    simp only [carve]
    split_ifs
    · exact get?_erase_self
    · exact get?_erase_self
  rw [heq, hs] at hnone
  cases hnone

theorem alignRequest_mod (h : total + 511 < sizeBound) :
    total ≤ alignRequest (total % sizeBound) ∧ alignRequest (total % sizeBound) < sizeBound := by
  simp only [alignRequest, mallocAlignment, sizeBound] at h ⊢
  omega

theorem sized_null : m.Sized bytes total (some (0, m)) where
  usable _ _ heq hne := absurd (Prod.mk.inj (some.inj heq)).1.symm hne
  refused _ := ⟨m, rfl, rfl, rfl⟩

theorem sized_allocate_iff : m.Sized total total (some (m.allocate (total % sizeBound))) ↔
    total + 511 < sizeBound ∨ m.Rejects (total % sizeBound) := by
  by_cases h : m.Rejects (total % sizeBound)
  · rw [allocate_of_rejects h]
    exact iff_of_true sized_null (.inr h)
  obtain ⟨s, n, hs, hn, heq⟩ := allocate_of_not_rejects h
  rw [heq, or_iff_left h]
  constructor
  · intro hsized
    by_contra hle
    obtain ⟨m', hm', hfree, -⟩ := hsized.refused (not_lt.mp hle)
    obtain ⟨-, rfl⟩ := Prod.mk.inj (some.inj hm')
    exact carve_ne hs hfree
  · refine fun hlt => ⟨fun ptr m' hm' _ => ?_, fun hle => absurd hlt (not_lt.mpr hle)⟩
    obtain ⟨rfl, rfl⟩ := Prod.mk.inj (some.inj hm')
    refine ⟨_, ?_, (alignRequest_mod hlt).1, s, n, hs, le_rfl, Nat.add_le_add_left hn s⟩
    rw [inuseChunks_carve, get?_insert_self]

theorem inuseChunks_of_trimFront {ptr retPtr : ℕ} {m' : Mspace} (hle : ptr ≤ retPtr)
    (hlt : retPtr < ptr + t) (ht : t < sizeBound) (hptr : m.inuseChunks.get? ptr = some t)
    (h : m.trimFront ptr retPtr = some m') :
    m'.inuseChunks.get? retPtr = some (ptr + t - retPtr) := by
  rw [trimFront] at h
  by_cases heq : retPtr = ptr
  · rw [if_pos heq] at h
    cases h
    rw [heq, hptr, Nat.add_sub_cancel_left]
  · rw [if_neg heq] at h
    obtain ⟨-, rfl⟩ := addFreeChunk_eq_some.mp h
    rw [inuseChunks_joined, get?_erase, if_neg heq, get?_insert_self, hptr,
      getD_some, sub_mod_sizeBound (by omega) ht]
    congr 1
    omega

theorem sized_allocateAligned_iff {alignment : ℕ} :
    m.Sized bytes (bytes + alignment) (m.allocateAligned alignment bytes) ↔
      bytes + alignment + 511 < sizeBound ∨ (Call.allocateAligned alignment bytes).Asserts ∧
        m.Rejects ((bytes + alignment) % sizeBound) := by
  -- a result that is not the null pointer is right for a size that can be represented only
  have hnonnull : ∀ result : Option (ℕ × Mspace), (∀ m', result ≠ some (0, m')) →
      (bytes + alignment + 511 < sizeBound → m.Sized bytes (bytes + alignment) result) →
      (m.Sized bytes (bytes + alignment) result ↔ bytes + alignment + 511 < sizeBound) := by
    refine fun result hne hsized => ⟨fun h => ?_, hsized⟩
    by_contra hle
    obtain ⟨m', hm', -⟩ := h.refused (not_lt.mp hle)
    exact hne m' hm'
  have hnone : ∀ m' : Mspace, (none : Option (ℕ × Mspace)) ≠ some (0, m') := fun _ heq => by
    cases heq
  have hvacuous : bytes + alignment + 511 < sizeBound → m.Sized bytes (bytes + alignment) none :=
    fun hlt => ⟨fun _ _ heq => (by cases heq), fun hle => absurd hlt (not_lt.mpr hle)⟩
  rw [allocateAligned]
  by_cases hassert : alignment % 8 = 0 ∧ alignment &&& (alignment - 1) = 0
  swap
  · rw [if_neg hassert, or_iff_left fun h => hassert h.1]
    exact hnonnull none hnone hvacuous
  rw [if_pos hassert]
  by_cases h : m.Rejects ((bytes + alignment) % sizeBound)
  · rw [allocate_of_rejects h]
    exact iff_of_true sized_null (.inr ⟨hassert, h⟩)
  obtain ⟨s, n, hs, hn, heq⟩ := allocate_of_not_rejects h
  rw [heq, or_iff_left fun hr => h hr.2]
  dsimp only
  by_cases hzero : s = 0
  · rw [if_pos hzero]
    refine ⟨fun hsized => ?_, fun hlt => ⟨fun _ _ heq hne => ?_, fun hle => ?_⟩⟩
    · by_contra hle
      obtain ⟨m', hm', hfree, -⟩ := hsized.refused (not_lt.mp hle)
      obtain ⟨-, rfl⟩ := Prod.mk.inj (some.inj hm')
      exact carve_ne hs hfree
    · exact absurd (Prod.mk.inj (some.inj heq)).1.symm hne
    · exact absurd hlt (not_lt.mpr hle)
  rw [if_neg hzero]
  by_cases halign : alignment = 0
  · rw [if_pos halign]
    exact hnonnull none hnone hvacuous
  rw [if_neg halign]
  obtain ⟨hsq, hqs⟩ := alignUp_bounds (s := s) (Nat.pos_of_ne_zero halign)
  refine hnonnull _ (fun m' hm' => ?_) fun hlt => ⟨fun ptr m' hm' _ => ?_, fun hle => ?_⟩
  · obtain ⟨m'', -, heq'⟩ := map_eq_some_iff.mp hm'
    have := (Prod.mk.inj heq').1
    rw [alignUp] at hsq
    omega
  · obtain ⟨m'', htrim, heq'⟩ := map_eq_some_iff.mp hm'
    obtain ⟨rfl, rfl⟩ := Prod.mk.inj heq'
    obtain ⟨hbytes, hbound⟩ := alignRequest_mod hlt
    rw [← alignUp] at htrim ⊢
    refine ⟨_, inuseChunks_of_trimFront hsq (by omega) hbound ?_ htrim, by omega, s, n, hs, hsq, ?_⟩
    · rw [inuseChunks_carve, get?_insert_self]
    · omega
  · exact absurd hlt (not_lt.mpr hle)

theorem sized_iff (m : Mspace) (c : Call) (hc : c.InRange) (bytes total : ℕ)
    (hdemand : c.demand = some (bytes, total)) : m.Sized bytes total (m.call c) ↔
      total + 511 < sizeBound ∨ c.Asserts ∧ m.Rejects (total % sizeBound) := by
  cases c with
  | allocate size =>
    obtain ⟨rfl, rfl⟩ := Prod.mk.inj (some.inj hdemand)
    have hcall : m.call (.allocate size) = some (m.allocate (size % sizeBound)) := by
      rw [Nat.mod_eq_of_lt hc]
      rfl
    rw [hcall]
    exact sized_allocate_iff.trans (or_congr_right (and_iff_right trivial).symm)
  | allocateZeroed nElements elemSize =>
    cases hdemand
    exact sized_allocate_iff.trans (or_congr_right (and_iff_right trivial).symm)
  | allocateAligned alignment size =>
    cases hdemand
    exact sized_allocateAligned_iff
  | addNewChunk base capacity => cases hdemand
  | deallocate mem => cases hdemand

theorem sized_threeHundreds :
    (new 512 8192).Sized 300 300 ((new 512 8192).call (.allocateZeroed 3 100)) :=
  (sized_iff (new 512 8192) (.allocateZeroed 3 100)
    (by decide : 3 < sizeBound ∧ 100 < sizeBound) 300 300 rfl).mpr (.inl (by decide))

/-- The product of the number and the size of the elements wraps around to two. -/
theorem not_sized_wrapped : ¬ (new 512 8192).Sized ((2 ^ 63 + 1) * 2) ((2 ^ 63 + 1) * 2)
    ((new 512 8192).call (.allocateZeroed (2 ^ 63 + 1) 2)) := by
  intro h
  have hptr : ((new 512 8192).call (.allocateZeroed (2 ^ 63 + 1) 2)).map Prod.fst = some 512 := by
    decide +kernel
  obtain ⟨m', hm', -⟩ := h.refused (by decide)
  rw [hm'] at hptr
  exact absurd (some.inj hptr).symm (Nat.succ_ne_zero 511)

end Nvshmem.Mspace
