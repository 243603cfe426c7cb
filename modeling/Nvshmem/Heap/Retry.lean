import Nvshmem.Heap.VmmHeap

/-! # Requests after growth

When nothing fits a request, the heap is extended by at least as many bytes as the request takes with
its alignment, in one piece at the end of the internal part. The free chunk there is large enough for
the allocator's own rounding, so that the second attempt returns a block.
-/

namespace Nvshmem

open Intervals Mspace Transition Option Option List Nat

theorem Session.Inv.merge {m : Mspace} {b n k : ℕ} {S : Store}
    (h : Session.Inv ⟨m, [(b + n, k), (b, n)]⟩ S) : Session.Inv ⟨m, [(b, n + k)]⟩ S where
  ms := by
    have hcovered : covered [(b + n, k), (b, n)] = covered [(b, n + k)] := by
      rw [covered_cons, covered_cons, covered_cons, covered_nil, Set.empty_union, Set.empty_union]
      rw [← Nat.add_assoc]
      exact Set.Ico_union_Ico_eq_Ico (Nat.le_add_right ..) (Nat.le_add_right ..)
    exact hcovered ▸ h.ms
  aligned := h.aligned
  total := by
    rw [h.total]
    simp only [map_cons, map_nil, sum_cons, sum_nil]
    omega
  apart := pairwise_singleton ..
  bounded := by
    have := h.bounded (b + n, k) mem_cons_self
    refine forall_mem_singleton.mpr ?_
    omega

namespace Mspace

variable {m m' : Mspace} {bytes alignment ptr s n : ℕ}

theorem allocate_ne_null (hstart : ∀ s n, m.freeChunksStart.get? s = some n → s ≠ 0)
    (hpos : 0 < bytes) (hs : m.freeChunksStart.get? s = some n) (hn : alignRequest bytes ≤ n) :
    (m.allocate bytes).1 ≠ 0 := by
  rw [allocate, if_neg hpos.ne']
  cases hf : m.freeChunksStart.first? fun _ size => decide (alignRequest bytes ≤ size) with
  | none => exact absurd (decide_eq_true hn) (OrdMap.first?_eq_none.mp hf s n hs)
  | some e =>
    simp only [hf]
    exact hstart e.1 e.2 (OrdMap.get?_of_first? hf).1

theorem allocateAligned_ne_null (ha : 0 < alignment) (hlt : bytes + alignment < sizeBound)
    (hne : (m.allocate (bytes + alignment)).1 ≠ 0)
    (hm : m.allocateAligned alignment bytes = some (ptr, m')) : ptr ≠ 0 := by
  obtain ⟨-, hm⟩ := ite_none_right_eq_some.mp hm
  simp only [mod_eq_of_lt hlt, hne, ha.ne', if_false] at hm
  obtain ⟨m'', -, heq⟩ := map_eq_some_iff.mp hm
  obtain rfl := congrArg Prod.fst heq
  have := (alignUp_bounds (s := (m.allocate (bytes + alignment)).1) ha).1
  rw [← alignUp]
  omega

end Mspace

namespace VmmHeap

section Backed

variable {cfg : HeapConfig} {h h' h₁ : VmmHeap} {m : Mspace} {size count alignment ptr : ℕ}
  {type : MallocType}

def NoOverflow (_ : VmmHeap) : Action → Prop
  | .allocate size _ _ .malloc => size + 511 < sizeBound
  | .allocate size count _ .calloc => count * size + 511 < sizeBound
  | .allocate size _ alignment .align => 0 < alignment ∧ size + alignment + 511 < sizeBound
  | _ => True

instance (h : VmmHeap) : (a : Action) → Decidable (h.NoOverflow a)
  | .allocate _ _ _ .malloc | .allocate _ _ _ .calloc => inferInstanceAs (Decidable (_ < _))
  | .allocate _ _ _ .align => inferInstanceAs (Decidable (_ ∧ _))
  | .deallocate _ | .mmap .. | .unmap .. => inferInstanceAs (Decidable True)

theorem legal_requestCall (hno : h.NoOverflow (.allocate size count alignment type)) {m' : Mspace}
    (hm : m.call (requestCall size count alignment type) = some (ptr, m')) (s : Session) :
    s.Legal (requestCall size count alignment type) := by
  cases type with
  | malloc => exact hno
  | calloc => exact hno
  | align =>
    obtain ⟨hassert, -⟩ := ite_none_right_eq_some.mp hm
    exact ⟨ne_zero_and_sub_one_eq_zero_iff_isPowerOfTwo.mp ⟨hno.1.ne', hassert.2⟩, hassert.1,
      hno.2⟩

structure Backed (cfg : HeapConfig) (h : VmmHeap) : Prop where
  inv : ∃ S, Session.Inv ⟨h.heapMspace, [(cfg.heapBase, h.physicalInternalHeapSize)]⟩ S
  dvd : mallocAlignment ∣ h.physicalInternalHeapSize
  le : h.physicalInternalHeapSize ≤ cfg.heapSize

namespace Backed

theorem init : (init cfg).Backed cfg where
  inv := by
    refine ⟨⟨∅, .empty⟩, ?_, .empty, ?_, pairwise_singleton .., ?_⟩
    · have hcovered : covered [(cfg.heapBase, 0)] = ∅ := by
        rw [covered_cons, covered_nil, Set.empty_union, Nat.add_zero, Set.Ico_self]
      rw [show (VmmHeap.init cfg).heapMspace = .empty from mmapMspace_init]
      exact hcovered ▸ .empty
    · rw [show (VmmHeap.init cfg).heapMspace = .empty from mmapMspace_init]
      rfl
    · have := cfg.bounded
      refine forall_mem_singleton.mpr ?_
      simp only [VmmHeap.init, mallocAlignment] at this ⊢
      omega
  dvd := dvd_zero _
  le := Nat.zero_le _

theorem call (hb : h.Backed cfg)
    (hlegal : ∀ s : Session, s.Legal (requestCall size count alignment type)) :
    ∃ ptr m, h.heapMspace.call (requestCall size count alignment type) = some (ptr, m) ∧
      Backed cfg { h with heapMspace := m } ∧
      ∀ a bytes, (requestCall size count alignment type).request = some (a, bytes) →
        ptr = 0 ∨ Session.Returned h.heapMspace [(cfg.heapBase, h.physicalInternalHeapSize)] m ptr a
          bytes := by
  obtain ⟨S, hinv⟩ := hb.inv
  obtain ⟨ptr, m, hm, hinv', hreturned⟩ := hinv.call (hlegal _) (by cases type <;> trivial)
  refine ⟨ptr, m, hm, ⟨?_, hb.dvd, hb.le⟩, hreturned⟩
  cases type with
  | malloc => exact hinv'
  | calloc => exact hinv'
  | align => exact hinv'

theorem grow (hb : h.Backed cfg) (hs : h.allocatePhysicalMemoryToHeap cfg size = some h₁) :
    h₁.Backed cfg ∧
      ∃ s n, h₁.heapMspace.freeChunksStart.get? s = some n ∧ cfg.roundUp size ≤ n := by
  obtain ⟨m, hpos, hroom, hadd, rfl⟩ := allocatePhysicalMemoryToHeap_cases hs
  obtain ⟨S, hinv⟩ := hb.inv
  have hbound := cfg.bounded
  have hlegal : Session.Legal ⟨h.heapMspace, [(cfg.heapBase, h.physicalInternalHeapSize)]⟩
      (.addNewChunk (cfg.heapBase + h.physicalInternalHeapSize) (cfg.roundUp size)) := by
    refine ⟨by omega, forall_mem_singleton.mpr (.inr le_rfl)⟩
  obtain ⟨m', hm', hinv'⟩ := hinv.addNewChunk hlegal hpos
  obtain rfl : m = m' := some.inj (hadd.symm.trans hm')
  have hinv' := hinv' ((Nat.dvd_add_iff_right cfg.base_dvd).mp hb.dvd)
  have hsize : mallocAlignment ∣ cfg.roundUp size :=
    cfg.granularity_dvd.trans (Dvd.intro_left _ rfl)
  refine ⟨⟨⟨_, hinv'.merge⟩, Nat.dvd_add hb.dvd hsize, by dsimp only; omega⟩, ?_⟩
  -- the chunk is the run of free addresses with the first new byte
  have hfree : ∀ x, cfg.heapBase + h.physicalInternalHeapSize ≤ x →
      x < cfg.heapBase + h.physicalInternalHeapSize + cfg.roundUp size →
      x ∈ (S.extend (cfg.heapBase + h.physicalInternalHeapSize) (cfg.roundUp size)).free :=
    fun x hle hlt => .inr ⟨hle, hlt⟩
  obtain ⟨s, n, hrun, hsle, hlt⟩ := exists_isRun hinv'.ms.wf.finite (hfree _ le_rfl (by omega))
  refine ⟨s, n, hinv'.ms.rep.start_iff.mpr hrun, ?_⟩
  have := hrun.le_stop (x := cfg.heapBase + h.physicalInternalHeapSize + cfg.roundUp size)
    fun y hy hy' => hfree y (by omega) hy'
  omega

theorem start_ne_zero (hb : h.Backed cfg) {s n : ℕ}
    (hs : h.heapMspace.freeChunksStart.get? s = some n) : s ≠ 0 := by
  obtain ⟨S, hinv⟩ := hb.inv
  have hrun := hinv.ms.rep.start_iff.mp hs
  have hmem : s ∈ covered [(cfg.heapBase, h.physicalInternalHeapSize)] :=
    (hinv.ms.wf.cover s).mpr (.inl (hrun.subset s le_rfl (by have := hrun.pos; omega)))
  obtain ⟨r, hr, hle, -⟩ := hmem
  obtain rfl := mem_singleton.mp hr
  have := cfg.base_pos
  omega

theorem allocate (hb : h.Backed cfg) (hno : h.NoOverflow (.allocate size count alignment type))
    (hs : h.allocateSymmetricMemory cfg size count alignment type = some (ptr, h')) :
    h'.Backed cfg := by
  simp only [allocateSymmetricMemory, allocateVirtualMemoryFromMspace_eq, bind_eq_bind,
    bind_eq_some_iff] at hs
  obtain ⟨⟨ptr₁, m₁⟩, hm₁, hs⟩ := hs
  have hlegal := legal_requestCall hno hm₁
  obtain ⟨_, _, hcall, hb₁, -⟩ := hb.call hlegal
  cases some.inj (hcall.symm.trans hm₁)
  by_cases hgrow : 0 < size ∧ ptr₁ = 0
  · simp only [hgrow, and_self, if_true, bind_eq_some_iff] at hs
    obtain ⟨h₁, hh₁, ⟨ptr₂, m₂⟩, hm₂, hs⟩ := hs
    obtain ⟨_, _, hcall₂, hb₂, -⟩ := (hb₁.grow hh₁).1.call hlegal
    cases some.inj (hcall₂.symm.trans hm₂)
    cases hs
    exact hb₂
  · simp only [hgrow, if_false] at hs
    cases hs
    exact hb₁

theorem step {a : Action} (hb : h.Backed cfg) (hp : h.Placed cfg) (hno : h.NoOverflow a)
    (hs : h.step cfg a = some h') : h'.Backed cfg := by
  cases a with
  | allocate size count alignment type =>
    obtain ⟨⟨ptr, h₁⟩, hs', rfl⟩ := map_eq_some_iff.mp hs
    exact hb.allocate hno hs'
  | deallocate ptr =>
    obtain ⟨m, hm, rfl⟩ := map_eq_some_iff.mp hs
    obtain ⟨S, hinv⟩ := hb.inv
    have hinuse : (h.heapMspace.inuseChunks.get? ptr).isSome := by
      rw [Mspace.deallocate] at hm
      cases hget : h.heapMspace.inuseChunks.get? ptr with
      | none =>
        rw [hget] at hm
        cases hm
      | some _ => rfl
    obtain ⟨m', S', hm', hinv'⟩ := hinv.deallocate hinuse
    cases hm.symm.trans hm'
    exact ⟨⟨S', hinv'⟩, hb.dvd, hb.le⟩
  | mmap bufPtr size flags =>
    obtain ⟨-, ptr, hs'⟩ := step_mmap_eq_some.mp hs
    obtain ⟨-, -, m, aliases, rfl, -⟩ := mmapMem_cases hp.mmap hs'
    exact ⟨hb.inv, hb.dvd, hb.le⟩
  | unmap ptr size =>
    obtain ⟨size', m, aliases, -, -, rfl⟩ := unmapMem_cases hs
    exact ⟨hb.inv, hb.dvd, hb.le⟩

theorem of_reachable (hr : Reachable (restrict NoOverflow (VmmHeap.step cfg)) (VmmHeap.init cfg) h) :
    h.Backed cfg := by
  have hinv : h.Placed cfg ∧ h.Backed cfg := by
    refine hr.invariant (I := fun h => h.Placed cfg ∧ h.Backed cfg) ⟨.init, .init⟩ ?_
    rintro u a v ⟨hp, hb⟩ hs
    obtain ⟨hno, hs⟩ := restrict_eq_some.mp hs
    exact ⟨hp.step hs, hb.step hp hno hs⟩
  exact hinv.2

end Backed

end Backed

inductive Request where
  | malloc (size : ℕ)
  | calloc (count size : ℕ)
  | align (alignment size : ℕ)

namespace Request

variable (q : Request)

def size : Request → ℕ
  | malloc size | calloc _ size | align _ size => size

def count : Request → ℕ
  | calloc count _ => count
  | malloc _ | align .. => 0

def alignment : Request → ℕ
  | align alignment _ => alignment
  | malloc _ | calloc .. => 0

def type : Request → MallocType
  | malloc _ => .malloc
  | calloc .. => .calloc
  | align .. => .align

def bytes : Request → ℕ
  | malloc size | align _ size => size
  | calloc count size => count * size

def blockAlignment : Request → ℕ
  | align alignment _ => alignment
  | malloc _ | calloc .. => 1

/-- `heap_malloc`, `heap_calloc` and `heap_align`. With aligned requests, `heap_malloc` aligns to the
granularity. -/
def action : Action := .allocate q.size q.count q.alignment q.type

theorem request_eq : (requestCall q.size q.count q.alignment q.type).request =
    some (q.blockAlignment, q.bytes) := by
  cases q <;> rfl

theorem growth_eq : (if q.type = .calloc then q.count * q.size + q.alignment
    else q.size + q.alignment) = q.bytes + q.alignment := by
  cases q <;> rfl

end Request

section Retry

variable {cfg : HeapConfig} {h h₁ : VmmHeap} {m : Mspace} {q : Request} {ptr : ℕ}

theorem alignRequest_le_roundUp {bytes : ℕ} (hlt : bytes + 511 < sizeBound) :
    alignRequest bytes ≤ cfg.roundUp bytes := by
  have hle : bytes ≤ cfg.roundUp bytes := by
    have hdiv := div_add_mod' (bytes + cfg.memGranularity - 1) cfg.memGranularity
    have hmod := mod_lt (bytes + cfg.memGranularity - 1) cfg.granularity_pos
    rw [HeapConfig.roundUp]
    omega
  obtain ⟨k, hk⟩ : mallocAlignment ∣ cfg.roundUp bytes :=
    cfg.granularity_dvd.trans (Dvd.intro_left _ rfl)
  simp only [alignRequest, mallocAlignment, sizeBound] at *
  omega

theorem Backed.call_ne_null (hb : h.Backed cfg) (hno : h.NoOverflow q.action) (hpos : 0 < q.bytes)
    {s n : ℕ} (hs : h.heapMspace.freeChunksStart.get? s = some n)
    (hn : cfg.roundUp (q.bytes + q.alignment) ≤ n)
    (hm : h.heapMspace.call (requestCall q.size q.count q.alignment q.type) = some (ptr, m)) :
    ptr ≠ 0 := by
  have hstart : ∀ s n, h.heapMspace.freeChunksStart.get? s = some n → s ≠ 0 := fun _ _ =>
    hb.start_ne_zero
  cases q with
  | malloc size =>
    have hlt : size + 511 < sizeBound := hno
    obtain rfl : (h.heapMspace.allocate size).1 = ptr := congrArg Prod.fst (some.inj hm)
    exact allocate_ne_null hstart hpos hs ((alignRequest_le_roundUp hlt).trans hn)
  | calloc count size =>
    have hlt : count * size + 511 < sizeBound := hno
    obtain rfl : (h.heapMspace.allocateZeroed count size).1 = ptr :=
      congrArg Prod.fst (some.inj hm)
    rw [allocateZeroed, mod_eq_of_lt (by omega : count * size < sizeBound)]
    exact allocate_ne_null hstart hpos hs ((alignRequest_le_roundUp hlt).trans hn)
  | align alignment size =>
    have hlt : size + alignment + 511 < sizeBound := hno.2
    have hne : (h.heapMspace.allocate (size + alignment)).1 ≠ 0 :=
      allocate_ne_null hstart (Nat.add_pos_left hpos _) hs ((alignRequest_le_roundUp hlt).trans hn)
    exact allocateAligned_ne_null hno.1 (by omega : size + alignment < sizeBound) hne hm

theorem bytes_pos_of_grow (hsize : 0 < q.size)
    (hgrow : h.allocatePhysicalMemoryToHeap cfg (q.bytes + q.alignment) = some h₁) :
    0 < q.bytes := by
  obtain ⟨-, hpos, -⟩ := allocatePhysicalMemoryToHeap_cases hgrow
  cases q with
  | malloc size => exact hsize
  | align alignment size => exact hsize
  | calloc count size =>
    refine Nat.pos_of_ne_zero fun hzero => hpos.ne' ?_
    rw [hzero, HeapConfig.roundUp]
    have := cfg.granularity_pos
    rw [Request.alignment, Nat.add_zero, Nat.zero_add, div_eq_of_lt (by omega), Nat.zero_mul]

/-- When nothing fits a request and the heap grows for it, the second attempt returns a block for
the request. -/
theorem allocateSymmetricMemory_of_grow (cfg : HeapConfig) (h : VmmHeap)
    (hr : Reachable (restrict NoOverflow (VmmHeap.step cfg)) (init cfg) h) (q : Request)
    (hno : h.NoOverflow q.action) (hsize : 0 < q.size) (m : Mspace)
    (hfirst : allocateVirtualMemoryFromMspace h.heapMspace q.size q.count q.alignment q.type =
      some (0, m)) (h₁ : VmmHeap)
    (hgrow : allocatePhysicalMemoryToHeap cfg { h with heapMspace := m } (q.bytes + q.alignment) =
      some h₁) :
    ∃ ptr m', allocateVirtualMemoryFromMspace h₁.heapMspace q.size q.count q.alignment q.type =
        some (ptr, m') ∧
      h.allocateSymmetricMemory cfg q.size q.count q.alignment q.type =
        some (ptr, { h₁ with heapMspace := m' }) ∧
      ptr ≠ 0 ∧ Session.Returned h₁.heapMspace [(cfg.heapBase, h₁.physicalInternalHeapSize)] m' ptr
        q.blockAlignment q.bytes := by
  have hfirst' := hfirst
  rw [allocateVirtualMemoryFromMspace_eq] at hfirst'
  have hlegal := legal_requestCall hno hfirst'
  obtain ⟨_, _, hcall, hb, -⟩ := (Backed.of_reachable hr).call hlegal
  cases some.inj (hcall.symm.trans hfirst')
  obtain ⟨hb₁, s, n, hs, hn⟩ := hb.grow hgrow
  obtain ⟨ptr, m', hcall', -, hreturned⟩ := hb₁.call hlegal
  have hne : ptr ≠ 0 := hb₁.call_ne_null hno (bytes_pos_of_grow hsize hgrow) hs hn hcall'
  have hsecond : allocateVirtualMemoryFromMspace h₁.heapMspace q.size q.count q.alignment q.type =
      some (ptr, m') := by
    rw [allocateVirtualMemoryFromMspace_eq, hcall']
  refine ⟨ptr, m', hsecond, ?_, hne, (hreturned _ _ q.request_eq).resolve_left hne⟩
  simp only [allocateSymmetricMemory, hfirst, bind_eq_bind, bind_some, hsize,
    and_self, if_true, q.growth_eq, hgrow, hsecond]

def fillGranule : List Action := [(Request.malloc 2097152).action]

theorem allocateSymmetricMemory_fillGranule : ∃ h,
    Reachable (restrict NoOverflow (VmmHeap.step tenGranules)) (init tenGranules) h ∧
      ∃ ptr h', h.allocateSymmetricMemory tenGranules 3000000 0 1048576 .align = some (ptr, h') ∧
        ptr ≠ 0 ∧ 1048576 ∣ ptr := by
  let q := Request.align 1048576 3000000
  refine Reachable.exists_of_exec fillGranule (fun h =>
    allocateVirtualMemoryFromMspace h.heapMspace q.size q.count q.alignment q.type =
      some (0, h.heapMspace) ∧
    (h.allocatePhysicalMemoryToHeap tenGranules (q.bytes + q.alignment)).isSome)
    (by decide +kernel) ?_
  rintro h hr ⟨hfirst, hsome⟩
  obtain ⟨h₁, hgrow⟩ := isSome_iff_exists.mp hsome
  have hno : h.NoOverflow q.action :=
    (by decide : 0 < 1048576 ∧ 3000000 + 1048576 + 511 < sizeBound)
  obtain ⟨ptr, m', -, hretry, hne, len, -, -, -, hdvd, -⟩ := allocateSymmetricMemory_of_grow
    tenGranules h hr q hno (by decide) h.heapMspace hfirst h₁ hgrow
  exact ⟨ptr, _, hretry, hne, hdvd⟩

end Retry

end VmmHeap

end Nvshmem
