import Nvshmem.Heap.Refinement
import Nvshmem.Transition.Exec

/-! # The allocator partitions the memory it manages

A session is an allocator with the regions given to it so far. Along every
sequence of legal calls the free chunks and the blocks in use partition the
regions, free chunks are never adjacent, and the blocks returned were free,
large enough and aligned, provided the regions are nonempty and aligned.
-/

namespace Nvshmem

open Intervals Transition Option List Nat Mspace OrdMap

section Rounding

variable {req a s : ℕ}

theorem dvd_alignRequest : mallocAlignment ∣ alignRequest req := Dvd.intro_left _ rfl

theorem alignRequest_bounds (h : req + 511 < sizeBound) :
    req ≤ alignRequest req ∧ alignRequest req < sizeBound := by
  simp only [alignRequest, mallocAlignment, sizeBound] at *
  omega

def alignUp (a s : ℕ) : ℕ := a * ((s + (a - 1)) / a)

theorem dvd_alignUp : a ∣ alignUp a s := Dvd.intro _ rfl

theorem alignUp_bounds (ha : 0 < a) : s ≤ alignUp a s ∧ alignUp a s < s + a := by
  have h₁ := div_add_mod (s + (a - 1)) a
  have h₂ := mod_lt (s + (a - 1)) ha
  unfold alignUp
  omega

theorem alignUp_of_dvd (ha : 0 < a) (h : a ∣ s) : alignUp a s = s := by
  obtain ⟨k, rfl⟩ := h
  rw [alignUp, add_comm, add_mul_div_left _ _ ha, div_eq_of_lt (by omega), zero_add]

theorem mallocAlignment_dvd_alignUp (ha : a.isPowerOfTwo) (hs : mallocAlignment ∣ s) :
    mallocAlignment ∣ alignUp a s := by
  obtain ⟨k, rfl⟩ := ha
  have h9 : mallocAlignment = 2 ^ 9 := rfl
  rcases le_total k 9 with hk | hk
  · rwa [alignUp_of_dvd (by positivity) ((h9 ▸ pow_dvd_pow 2 hk).trans hs)]
  · exact (h9 ▸ pow_dvd_pow 2 hk).trans dvd_alignUp

end Rounding

namespace Mspace

def Call.request : Call → Option (ℕ × ℕ)
  | .allocate bytes => some (1, bytes)
  | .allocateZeroed nElements elemSize => some (1, nElements * elemSize)
  | .allocateAligned alignment bytes => some (alignment, bytes)
  | _ => none

end Mspace

open Mspace

structure Session where
  ms : Mspace
  regions : List (ℕ × ℕ)
  deriving DecidableEq

namespace Session

def start (base capacity : ℕ) : Session where
  ms := .new base capacity
  regions :=
    if alignOffset base < capacity then
      [(base + alignOffset base, capacity - alignOffset base)]
    else []

/-- New regions lie in the address space apart from the managed ones, sizes do not wrap when
rounded, alignments are powers of two that pass the assertion, and only live blocks are freed. -/
def Legal (s : Session) : Call → Prop
  | .addNewChunk base capacity =>
    base + capacity < sizeBound ∧ ∀ r ∈ s.regions, Apart (base, capacity) r
  | .allocate bytes => bytes + 511 < sizeBound
  | .allocateZeroed nElements elemSize => nElements * elemSize + 511 < sizeBound
  | .allocateAligned alignment bytes =>
    alignment.isPowerOfTwo ∧ alignment % 8 = 0 ∧ bytes + alignment + 511 < sizeBound
  | .deallocate mem => (s.ms.inuseChunks.get? mem).isSome

instance (s : Session) : (c : Call) → Decidable (s.Legal c)
  | .addNewChunk .. => inferInstanceAs (Decidable (_ ∧ _))
  | .allocate _ => inferInstanceAs (Decidable (_ < _))
  | .allocateZeroed .. => inferInstanceAs (Decidable (_ < _))
  | .allocateAligned .. => inferInstanceAs (Decidable (_ ∧ _))
  | .deallocate _ => inferInstanceAs (Decidable (_ = true))

def grow (rs : List (ℕ × ℕ)) : Call → List (ℕ × ℕ)
  | .addNewChunk base capacity => (base, capacity) :: rs
  | _ => rs

def step (s : Session) (c : Call) : Option Session :=
  if s.Legal c then (s.ms.call c).map fun r => ⟨r.2, grow s.regions c⟩ else none

def AlignedRegion (_ : Session) : Call → Prop
  | .addNewChunk base capacity => mallocAlignment ∣ base ∧ 0 < capacity
  | _ => True

instance (s : Session) : (c : Call) → Decidable (s.AlignedRegion c)
  | .addNewChunk .. => inferInstanceAs (Decidable (_ ∧ _))
  | .allocate _ | .allocateZeroed .. | .allocateAligned .. | .deallocate _ =>
    inferInstanceAs (Decidable True)

variable {s t : Session} {c : Call}

theorem step_eq_some : s.step c = some t ↔
    s.Legal c ∧ ∃ ptr m, s.ms.call c = some (ptr, m) ∧ t = ⟨m, grow s.regions c⟩ := by
  simp only [step]
  split_ifs with h
  · simp [h, eq_comm]
  · simp [h]

/-- The allocator represents an aligned store over the regions, which are apart from each
other and lie in the address space. -/
structure Inv (s : Session) (S : Store) : Prop where
  ms : s.ms.Inv S (covered s.regions)
  aligned : S.Aligned mallocAlignment
  total : s.ms.totalSize = (s.regions.map Prod.snd).sum
  apart : s.regions.Pairwise Apart
  bounded : ∀ r ∈ s.regions, r.1 + r.2 < sizeBound

/-- The block at `ptr` is in use, at least as large as asked for and aligned, and all of it
was free memory of the regions before. -/
def Returned (m : Mspace) (rs : List (ℕ × ℕ)) (m' : Mspace) (ptr alignment bytes : ℕ) : Prop :=
  ∃ len, m'.inuseChunks.get? ptr = some len ∧ bytes ≤ len ∧ mallocAlignment ∣ ptr ∧
    alignment ∣ ptr ∧ ∀ x, ptr ≤ x → x < ptr + len →
      x ∈ covered rs ∧ ∃ s n, m.freeChunksStart.get? s = some n ∧ s ≤ x ∧ x < s + n

section Calls

variable {S : Store} {m : Mspace} {rs : List (ℕ × ℕ)} {b k p bytes alignment : ℕ}

section Facts

variable (h : Inv ⟨m, rs⟩ S)
include h

theorem Inv.replace {m' : Mspace} {S' : Store} (hm : m'.Inv S' (covered rs))
    (ha : S'.Aligned mallocAlignment) (ht : m'.totalSize = m.totalSize) : Inv ⟨m', rs⟩ S' :=
  ⟨hm, ha, ht.trans h.total, h.apart, h.bounded⟩

theorem Inv.addNewChunk (hl : Legal ⟨m, rs⟩ (.addNewChunk b k)) (hk : 0 < k) :
    ∃ m', m.addNewChunk b k = some m' ∧
      (mallocAlignment ∣ b → Inv ⟨m', (b, k) :: rs⟩ (S.extend b k)) := by
  obtain ⟨hb, hapart⟩ := hl
  have hapart' : ((b, k) :: rs).Pairwise Apart := pairwise_cons.mpr ⟨hapart, h.apart⟩
  have hbounded : ∀ r ∈ (b, k) :: rs, r.1 + r.2 < sizeBound :=
    forall_mem_cons.mpr ⟨hb, h.bounded⟩
  have hsum : ((((b, k) :: rs)).map Prod.snd).sum = m.totalSize + k := by
    rw [map_cons, sum_cons, add_comm, ← h.total]
  have hlt : m.totalSize + k < sizeBound := by
    have := sum_length_le hapart' (B := sizeBound - 1)
      fun r hr => le_sub_one_of_lt (hbounded r hr)
    omega
  obtain ⟨m', hm', hinv, ht⟩ := h.ms.addNewChunk hk
    (fun x hx => notMem_covered_of_apart (r := (b, k)) hapart hx) hlt
  refine ⟨m', hm', fun hdvd => ⟨?_, h.aligned.extend (by decide) hdvd, ?_, hapart', hbounded⟩⟩
  · rwa [covered_cons]
  · rw [hsum, ht]

theorem Inv.deallocate (hl : Legal ⟨m, rs⟩ (.deallocate p)) :
    ∃ m' S', m.deallocate p = some m' ∧ Inv ⟨m', rs⟩ S' := by
  obtain ⟨c, hc⟩ := isSome_iff_exists.mp hl
  rw [h.ms.rep.inuse] at hc
  obtain ⟨m', hm', hinv, ht⟩ := h.ms.deallocate hc
  exact ⟨m', _, hm', h.replace hinv (h.aligned.give (by decide) (h.aligned.live hc).1) ht⟩

theorem Inv.carve {s n c : ℕ} (hs : m.freeChunksStart.get? s = some n) (hc : 0 < c) (hcn : c ≤ n)
    (hdvd : mallocAlignment ∣ c) : Inv ⟨m.carve s n c, rs⟩ (S.take s c) :=
  h.replace (h.ms.carve hs hc hcn) (h.aligned.take (by decide)
    (h.aligned.dvd_of_isRun (by decide) (h.ms.rep.start_iff.mp hs)) hdvd) totalSize_carve

theorem Inv.allocate (hb : bytes + 511 < sizeBound) :
    (∃ S', Inv ⟨(m.allocate bytes).2, rs⟩ S') ∧
      ((m.allocate bytes).1 = 0 ∨
        Returned m rs (m.allocate bytes).2 (m.allocate bytes).1 1 bytes) := by
  obtain ⟨hle, -⟩ := alignRequest_bounds hb
  rcases allocate_cases m bytes with heq | ⟨s, n, hpos, hs, hn, heq⟩
  · rw [heq]
    exact ⟨⟨S, h⟩, .inl rfl⟩
  · rw [heq]
    have hinv := h.carve hs (by omega) hn dvd_alignRequest
    have hr := h.ms.rep.start_iff.mp hs
    refine ⟨⟨_, hinv⟩, .inr ⟨alignRequest bytes, ?_, hle,
      h.aligned.dvd_of_isRun (by decide) hr, one_dvd _, fun x h₁ h₂ => ?_⟩⟩
    · rw [inuseChunks_carve, get?_insert_self]
    · exact ⟨(h.ms.wf.cover x).mpr (.inl (hr.subset x h₁ (by omega))), s, n, hs, h₁, by omega⟩

theorem Inv.allocateAligned (hl : Legal ⟨m, rs⟩ (.allocateAligned alignment bytes)) :
    ∃ ptr m', m.allocateAligned alignment bytes = some (ptr, m') ∧ (∃ S', Inv ⟨m', rs⟩ S') ∧
      (ptr = 0 ∨ Returned m rs m' ptr alignment bytes) := by
  obtain ⟨hpow, h8, hlt⟩ := hl
  obtain ⟨hne, hand⟩ := ne_zero_and_sub_one_eq_zero_iff_isPowerOfTwo.mpr hpow
  have ha : 0 < alignment := Nat.pos_of_ne_zero hne
  obtain ⟨hle, hlt'⟩ := alignRequest_bounds hlt
  simp only [Mspace.allocateAligned, h8, hand, and_self, if_true,
    mod_eq_of_lt (show bytes + alignment < sizeBound by omega), hne, if_false]
  rcases allocate_cases m (bytes + alignment) with heq | ⟨s, n, -, hs, hn, heq⟩
  · rw [heq]
    exact ⟨0, m, rfl, ⟨S, h⟩, .inl rfl⟩
  · rw [heq]
    have hdvd : mallocAlignment ∣ alignRequest (bytes + alignment) := dvd_alignRequest
    generalize alignRequest (bytes + alignment) = c at *
    have hr := h.ms.rep.start_iff.mp hs
    have hinv := h.carve hs (by omega) hn hdvd
    obtain ⟨hsq, hqs⟩ := alignUp_bounds (s := s) ha
    have hmem : ∀ x, alignUp alignment s ≤ x → x < s + c →
        x ∈ covered rs ∧ ∃ s n, m.freeChunksStart.get? s = some n ∧ s ≤ x ∧ x < s + n := by
      intro x h₁ h₂
      exact ⟨(h.ms.wf.cover x).mpr (.inl (hr.subset x (by omega) (by omega))),
        s, n, hs, by omega, by omega⟩
    have hq : mallocAlignment ∣ alignUp alignment s :=
      mallocAlignment_dvd_alignUp hpow (h.aligned.dvd_of_isRun (by decide) hr)
    by_cases hs0 : s = 0
    · exact ⟨0, m.carve s n c, by simp [hs0], ⟨_, hinv⟩, .inl rfl⟩
    · simp only [hs0, if_false]
      rcases hsq.eq_or_lt with heq' | hlt''
      · refine ⟨alignUp alignment s, m.carve s n c, ?_, ⟨_, hinv⟩,
          .inr ⟨c, ?_, by omega, hq, dvd_alignUp, ?_⟩⟩
        · rw [← alignUp, ← heq', trimFront, if_pos rfl, map_some]
        · rw [← heq', inuseChunks_carve, OrdMap.get?_insert_self]
        · exact fun x h₁ h₂ => hmem x h₁ (by omega)
      · have hlive : (S.take s c).live.get? s = some c := OrdMap.get?_insert_self
        obtain ⟨m', hm', hinv', ht⟩ := hinv.ms.trimFront hlive hlt'' (by omega) hlt'
        refine ⟨alignUp alignment s, m', ?_, ⟨_, hinv.replace hinv'
          (hinv.aligned.trim hinv.ms.wf (by decide) hlive hlt'' (by omega) hq) ht⟩,
          .inr ⟨s + c - alignUp alignment s, ?_, by omega, hq, dvd_alignUp, ?_⟩⟩
        · rw [← alignUp, hm', map_some]
        · rw [hinv'.rep.inuse, Store.trim, OrdMap.get?_erase, if_neg hlt''.ne',
            OrdMap.get?_insert_self]
        · exact fun x h₁ h₂ => hmem x h₁ (by omega)

end Facts

end Calls

variable {S : Store}

theorem Inv.call (h : s.Inv S) (hl : s.Legal c) (ha : s.AlignedRegion c) :
    ∃ ptr m, s.ms.call c = some (ptr, m) ∧ (∃ S', Inv ⟨m, grow s.regions c⟩ S') ∧
      ∀ alignment bytes, c.request = some (alignment, bytes) →
        ptr = 0 ∨ Returned s.ms s.regions m ptr alignment bytes := by
  cases c with
  | addNewChunk b k =>
    obtain ⟨m, hm, hinv⟩ := h.addNewChunk hl ha.2
    exact ⟨0, m, by simp [call, hm], ⟨_, hinv ha.1⟩, fun _ _ hreq => by cases hreq⟩
  | allocate bytes =>
    obtain ⟨hinv, hret⟩ := h.allocate hl
    refine ⟨_, _, rfl, hinv, fun alignment size hreq => ?_⟩
    cases hreq
    exact hret
  | allocateZeroed n e =>
    have hmod : n * e % sizeBound = n * e :=
      mod_eq_of_lt (by simp only [Legal] at hl; omega)
    obtain ⟨hinv, hret⟩ := h.allocate hl
    refine ⟨_, _, by rw [call, allocateZeroed, hmod], hinv, fun alignment size hreq => ?_⟩
    cases hreq
    exact hret
  | allocateAligned alignment bytes =>
    obtain ⟨ptr, m, hm, hinv, hret⟩ := h.allocateAligned hl
    refine ⟨ptr, m, hm, hinv, fun alignment size hreq => ?_⟩
    cases hreq
    exact hret
  | deallocate p =>
    obtain ⟨m, S', hm, hinv⟩ := h.deallocate hl
    exact ⟨0, m, by simp [call, hm], ⟨S', hinv⟩, fun _ _ hreq => by cases hreq⟩

theorem Inv.step (h : s.Inv S) (ha : s.AlignedRegion c) (hstep : s.step c = some t) :
    ∃ S', t.Inv S' := by
  obtain ⟨hl, ptr, m, hm, rfl⟩ := step_eq_some.mp hstep
  obtain ⟨ptr', m', hm', hinv, -⟩ := h.call hl ha
  rw [hm'] at hm
  cases hm
  exact hinv

theorem Inv.empty : Inv ⟨.empty, []⟩ ⟨∅, .empty⟩ :=
  ⟨by rw [covered_nil]; exact .empty, .empty, rfl, .nil, by simp⟩

theorem dvd_add_alignOffset (base : ℕ) : mallocAlignment ∣ base + alignOffset base := by
  simp only [alignOffset, mallocAlignment]
  split_ifs <;> omega

theorem inv_start {base capacity : ℕ} (hoff : alignOffset base ≤ capacity)
    (hlt : base + capacity < sizeBound) : ∃ S, (start base capacity).Inv S := by
  have hcap := sub_mod_sizeBound hoff (by omega)
  rcases hoff.eq_or_lt with heq | hpos
  · refine ⟨⟨∅, .empty⟩, ?_⟩
    rw [heq, Nat.sub_self] at hcap
    simp only [start, Mspace.new, heq, hcap, lt_irrefl, if_false]
    exact .empty
  · have hk : 0 < capacity - alignOffset base := by omega
    obtain ⟨m, hm, hinv⟩ := Inv.empty.addNewChunk (b := base + alignOffset base)
      (k := capacity - alignOffset base) ⟨by omega, by simp⟩ hk
    have hnew : Mspace.new base capacity = m := by
      simp only [Mspace.new, hcap, hk, if_true]
      rw [← some.inj hm]
      simp [Mspace.empty, mergePrev, mergeNext, insertUnmerged,
        mod_eq_of_lt (show capacity - alignOffset base < sizeBound by omega)]
    rw [start, if_pos hpos, hnew]
    exact ⟨_, hinv (dvd_add_alignOffset base)⟩

theorem exists_inv_of_reachable {base capacity : ℕ} (hoff : alignOffset base ≤ capacity)
    (hlt : base + capacity < sizeBound)
    (h : Reachable (restrict AlignedRegion step) (start base capacity) s) : ∃ S, s.Inv S := by
  refine h.invariant (I := fun s => ∃ S, s.Inv S) (inv_start hoff hlt) fun {u c v} hu hstep => ?_
  obtain ⟨S, hu⟩ := hu
  obtain ⟨ha, hstep⟩ := restrict_eq_some.mp hstep
  exact hu.step ha hstep

/-- Free chunks and blocks in use partition the regions, and the two free maps agree. -/
structure Partitioned (s : Session) : Prop where
  /-- The end-keyed map lists the chunks of the start-keyed map. -/
  same_chunks : ∀ e n, s.ms.freeChunksEnd.get? e = some n ↔
    ∃ b, e = b + n ∧ s.ms.freeChunksStart.get? b = some n
  apart : s.ms.ChunksApart
  cover : ∀ x, x ∈ covered s.regions ↔
    x ∈ covered s.ms.freeChunksStart.entries ∨ x ∈ covered s.ms.inuseChunks.entries
  total : s.ms.freeChunksStart.total + s.ms.inuseChunks.total = s.ms.totalSize
  totalSize : s.ms.totalSize = (s.regions.map Prod.snd).sum
  not_adjacent : ∀ b n, s.ms.freeChunksStart.get? b = some n →
    s.ms.freeChunksStart.get? (b + n) = none

theorem mem_covered_entries {m : OrdMap ℕ ℕ} {x : ℕ} :
    x ∈ covered m.entries ↔ ∃ b n, m.get? b = some n ∧ b ≤ x ∧ x < b + n := by
  simp only [covered, get?_eq_some]
  constructor
  · rintro ⟨r, hr, hx⟩
    exact ⟨r.1, r.2, hr, hx⟩
  · rintro ⟨b, n, hr, hx⟩
    exact ⟨(b, n), hr, hx⟩

theorem Inv.partitioned (h : s.Inv S) : s.Partitioned where
  same_chunks e n := by
    rw [h.ms.rep.end_iff]
    constructor
    · rintro ⟨hn, hr⟩
      exact ⟨e - n, by omega, h.ms.rep.start_iff.mpr hr⟩
    · rintro ⟨b, rfl, hb⟩
      rw [Nat.add_sub_cancel]
      exact ⟨by omega, h.ms.rep.start_iff.mp hb⟩
  apart := h.ms.chunksApart
  cover x := by
    rw [mem_covered_entries, mem_covered_entries, h.ms.wf.cover, h.ms.rep.inuse]
    refine or_congr ⟨fun hx => ?_, ?_⟩ Iff.rfl
    · obtain ⟨b, n, hr, hx⟩ := exists_isRun h.ms.wf.finite hx
      exact ⟨b, n, h.ms.rep.start_iff.mpr hr, hx⟩
    · rintro ⟨b, n, hb, h₁, h₂⟩
      exact (h.ms.rep.start_iff.mp hb).subset x h₁ h₂
  total := h.ms.total
  totalSize := h.total
  not_adjacent b n hb := by
    cases hb' : s.ms.freeChunksStart.get? (b + n) with
    | none => rfl
    | some n' =>
      exact absurd (h.ms.rep.start_iff.mp hb') (h.ms.rep.start_iff.mp hb).not_adjacent

/-- Along every sequence of legal calls that adds nonempty regions at aligned addresses, the
allocator partitions its regions, and every legal call returns null or a block that was free. -/
theorem partitioned_of_reachable {base capacity : ℕ} (hoff : alignOffset base ≤ capacity)
    (hlt : base + capacity < sizeBound)
    (h : Reachable (restrict AlignedRegion step) (start base capacity) s) :
    s.Partitioned ∧ ∀ c, s.Legal c → s.AlignedRegion c →
      ∃ ptr m, s.ms.call c = some (ptr, m) ∧ ∀ alignment bytes,
        c.request = some (alignment, bytes) →
          ptr = 0 ∨ Returned s.ms s.regions m ptr alignment bytes := by
  obtain ⟨S, hs⟩ := exists_inv_of_reachable hoff hlt h
  refine ⟨hs.partitioned, fun c hl ha => ?_⟩
  obtain ⟨ptr, m, hm, -, hret⟩ := hs.call hl ha
  exact ⟨ptr, m, hm, hret⟩

theorem partitioned_after_aligned_calls : ∃ s,
    exec (restrict AlignedRegion step) (start 256 8192)
      [.addNewChunk 16384 4096, .allocate 100, .allocateAligned 2048 10, .deallocate 512,
        .allocateZeroed 3 400] = some s ∧
    s.Partitioned ∧ ∀ c, s.Legal c → s.AlignedRegion c →
      ∃ ptr m, s.ms.call c = some (ptr, m) ∧ ∀ alignment bytes,
        c.request = some (alignment, bytes) →
          ptr = 0 ∨ Returned s.ms s.regions m ptr alignment bytes := by
  exact exists_of_exec (fun _ => True) (by decide +kernel) fun _ hs _ =>
    partitioned_of_reachable (by decide) (by decide) (.of_exec hs)

theorem Inv.ms_eq {t : Session} {T : Store} (hs : s.Inv S) (ht : t.Inv T)
    (hr : covered s.regions = covered t.regions) (hu : s.ms.inuseChunks = t.ms.inuseChunks) :
    s.ms = t.ms := by
  have hlive : S.live = T.live := hs.ms.rep.inuse.symm.trans (hu.trans ht.ms.rep.inuse)
  have hfree : S.free = T.free := by
    ext x
    rw [hs.ms.wf.mem_free, ht.ms.wf.mem_free, hr, Store.InLive, Store.InLive, hlive]
  have hstart : s.ms.freeChunksStart = t.ms.freeChunksStart := ext_get? fun _ => Option.ext fun _ =>
    hs.ms.rep.start_iff.trans (hfree ▸ ht.ms.rep.start_iff.symm)
  have hend : s.ms.freeChunksEnd = t.ms.freeChunksEnd := ext_get? fun _ => Option.ext fun _ =>
    hs.ms.rep.end_iff.trans (hfree ▸ ht.ms.rep.end_iff.symm)
  have htotal : s.ms.totalSize = t.ms.totalSize := by
    rw [← hs.ms.total, ← ht.ms.total, hstart, hu]
  rw [Mspace.mk.injEq]
  exact ⟨hstart, hend, hu, htotal⟩

/-- The history of an allocator leaves no trace: whatever calls led to them, two allocators with
the same addresses to manage and the same blocks in use are equal. -/
theorem ms_eq_of_reachable {base capacity base' capacity' : ℕ} {t : Session}
    (hoff : alignOffset base ≤ capacity) (hlt : base + capacity < sizeBound)
    (hs : Reachable (restrict AlignedRegion step) (start base capacity) s)
    (hoff' : alignOffset base' ≤ capacity') (hlt' : base' + capacity' < sizeBound)
    (ht : Reachable (restrict AlignedRegion step) (start base' capacity') t)
    (hr : covered s.regions = covered t.regions) (hu : s.ms.inuseChunks = t.ms.inuseChunks) :
    s.ms = t.ms := by
  obtain ⟨S, hS⟩ := exists_inv_of_reachable hoff hlt hs
  obtain ⟨T, hT⟩ := exists_inv_of_reachable hoff' hlt' ht
  exact hS.ms_eq hT hr hu

theorem ms_eq_after_free : ∃ s,
    exec (restrict AlignedRegion step) (start 512 8192)
      [.allocate 100, .allocate 1000, .deallocate 512] = some s ∧ ∃ t,
    exec (restrict AlignedRegion step) (start 512 8192) [.allocateAligned 1024 100] = some t ∧
      s.ms = t.ms := by
  refine exists_of_exec (fun s => s.regions = [(512, 8192)] ∧ s.ms.inuseChunks.entries =
    [(1024, 1024)]) (by decide +kernel) fun s hs h => ?_
  refine exists_of_exec (fun t => t.regions = [(512, 8192)] ∧ t.ms.inuseChunks.entries =
    [(1024, 1024)]) (by decide +kernel) fun t ht h' => ?_
  refine ms_eq_of_reachable (by decide) (by decide) (.of_exec hs) (by decide) (by decide)
    (.of_exec ht) (by rw [h.1, h'.1]) (ext_get? fun k => ?_)
  rw [OrdMap.get?, OrdMap.get?, h.2, h'.2]

/-- A region at an unaligned address makes the allocator return an unaligned block. -/
theorem unaligned_region_unaligned_block : ∃ s m,
    exec step (start 0 0) [.addNewChunk 256 1024] = some s ∧ s.Legal (.allocate 512) ∧
      s.ms.call (.allocate 512) = some (256, m) ∧ ¬ mallocAlignment ∣ 256 :=
  ⟨_, _, rfl, by decide, rfl, by decide⟩

end Session

end Nvshmem
