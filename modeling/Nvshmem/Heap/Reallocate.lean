import Nvshmem.Heap.Sizes

/-! # Reallocation

A block is made smaller, grows into the free chunk behind it or moves. The rest of the chunk that a
block grows into is returned with the length by which the block has grown, and a move copies as many
bytes as the new block has.
-/

namespace Nvshmem

open Intervals Set Transition Option OrdMap

variable {β : Type}

namespace Mspace

structure Reallocated (β : Type) where
  ptr : ℕ
  ms : Mspace
  mem : ℕ → β
  read : ℕ

/-- `inuse_chunks[ptr]`, which enters a pointer that is not in use. -/
def currentSize (m : Mspace) (ptr : ℕ) : ℕ × Mspace :=
  match m.inuseChunks.get? ptr with
  | some size => (size, m)
  | none => (0, { m with inuseChunks := m.inuseChunks.insert ptr 0 })

def takeNext (m : Mspace) (ptr currentSize chunkSize size : ℕ) : Mspace :=
  { m with
    inuseChunks := m.inuseChunks.insert ptr size
    freeChunksStart := m.freeChunksStart.erase (ptr + currentSize)
    freeChunksEnd := m.freeChunksEnd.erase (ptr + currentSize + chunkSize) }

def growInPlace (m : Mspace) (ptr currentSize chunkSize size : ℕ) : Option Mspace :=
  let m := m.takeNext ptr currentSize chunkSize size
  if size < currentSize + chunkSize then m.addFreeChunk (ptr + size) (size - currentSize)
  else some m

def move (m : Mspace) (mem : ℕ → β) (ptr currentSize size : ℕ) : Option (Reallocated β) :=
  let (newPtr, m) := m.allocate size
  if newPtr = 0 then some ⟨0, m, mem, 0⟩
  else
    (addFreeChunk { m with inuseChunks := m.inuseChunks.erase ptr } ptr currentSize).map fun m =>
      { ptr := newPtr
        ms := m
        mem := fun x => if newPtr ≤ x ∧ x < newPtr + size then mem (ptr + (x - newPtr)) else mem x
        read := size }

/-- `mspace::reallocate`. -/
def reallocate (m : Mspace) (mem : ℕ → β) (ptr size : ℕ) : Option (Reallocated β) :=
  let size := alignRequest size
  let (currentSize, m) := m.currentSize ptr
  if size < currentSize then
    (addFreeChunk { m with inuseChunks := m.inuseChunks.insert ptr size } (ptr + size)
      (currentSize - size)).map (⟨ptr, ·, mem, 0⟩)
  else if currentSize < size then
    match m.freeChunksStart.get? (ptr + currentSize) with
    | none => m.move mem ptr currentSize size
    | some chunkSize =>
      if size ≤ currentSize + chunkSize then
        (m.growInPlace ptr currentSize chunkSize size).map (⟨ptr, ·, mem, 0⟩)
      else m.move mem ptr currentSize size
  else some ⟨ptr, m, mem, 0⟩

variable {m m' : Mspace} {S : Store} {M : Set ℕ} {p c r k : ℕ}

theorem Inv.shrink (h : m.Inv S M) (hp : S.live.get? p = some c) (hr : 0 < r) (hrc : r < c) :
    ∃ m', addFreeChunk { m with inuseChunks := m.inuseChunks.insert p r } (p + r) (c - r) =
      some m' ∧ m'.Inv (S.resize p c r) M ∧ m'.totalSize = m.totalSize ∧
      m'.inuseChunks = m.inuseChunks.insert p r := by
  have hl : m.inuseChunks.get? p = some c := h.rep.inuse ▸ hp
  have hnone : (m.inuseChunks.insert p r).get? (p + r) = none := by
    rw [get?_insert, if_neg (by omega)]
    cases hl' : m.inuseChunks.get? (p + r) with
    | none => rfl
    | some d =>
      rw [h.rep.inuse] at hl'
      have := h.wf.disjoint hp hl' (by omega)
      omega
  have hd : ∀ x ∈ S.free, x ∉ Ico (p + r) (p + r + (c - r)) := fun x hx hxp => by
    simp only [mem_Ico] at hxp
    exact h.wf.notMem_free hp (by omega) (by omega) hx
  let m₁ : Mspace := { m with inuseChunks := m.inuseChunks.insert p r }
  have hrep : m₁.Rep ⟨S.free, S.live.insert p r⟩ :=
    ⟨h.rep.start_iff, h.rep.end_iff, congrArg (insert · p r) h.rep.inuse⟩
  have hjoin := hrep.joined h.wf.finite (by omega) hd
  refine ⟨m₁.joined (p + r) (c - r), addFreeChunk_of_none hnone, ⟨?_, ?_, ?_⟩, totalSize_joined,
    inuseChunks_joined⟩
  · rw [h.wf.resize_eq hp, Ico_eq_empty (by omega : ¬ p + c < p + r), sdiff_empty]
    rwa [Store.extend, show p + r + (c - r) = p + c by omega] at hjoin
  · exact h.wf.resize hp hr fun x h₁ h₂ => by omega
  · have h₁ := hrep.total_joined h.wf.finite (by omega) hd
    have h₂ := total_insert (m := m.inuseChunks) (k := p) (n := r)
    have h₃ := h.total
    rw [hl, getD_some] at h₂
    rw [totalSize_joined, inuseChunks_joined]
    simp only [m₁] at *
    omega

section Grow

variable (h : m.Inv S M) (hk : m.freeChunksStart.get? (p + c) = some k)
include h hk

theorem Inv.grow (hp : S.live.get? p = some c) (hcr : c < r) (hrk : r ≤ c + k) :
    Inv { m.carve (p + c) k (r - c) with inuseChunks := m.inuseChunks.insert p r }
      (S.resize p c r) M := by
  have hrun := h.rep.start_iff.mp hk
  have hrep := h.rep.carve h.wf.finite hk (by omega : 0 < r - c) (by omega)
  have hfree : (S.take (p + c) (r - c)).free = (S.resize p c r).free := by
    rw [h.wf.resize_eq hp, Ico_eq_empty (by omega : ¬ p + r < p + c), union_empty, Store.take,
      show p + c + (r - c) = p + r by omega]
  refine ⟨⟨?_, ?_, ?_⟩, h.wf.resize hp (by omega) fun x h₁ h₂ => hrun.subset x h₁ (by omega), ?_⟩
  · rw [← hfree]
    exact hrep.start_iff
  · rw [← hfree]
    exact hrep.end_iff
  · rw [h.wf.resize_eq hp, h.rep.inuse]
  · have h₁ := (h.carve hk (by omega : 0 < r - c) (by omega)).total
    have h₂ := total_insert (m := m.inuseChunks) (k := p) (n := r)
    have h₃ := total_insert (m := m.inuseChunks) (k := p + c) (n := r - c)
    have hnone : m.inuseChunks.get? (p + c) = none := by
      rw [h.rep.inuse]
      exact h.wf.get?_eq_none (hrun.subset _ le_rfl (Nat.lt_add_of_pos_right hrun.pos))
    rw [show m.inuseChunks.get? p = some c from h.rep.inuse ▸ hp, getD_some] at h₂
    rw [hnone, getD_none] at h₃
    rw [inuseChunks_carve, totalSize_carve] at h₁
    rw [totalSize_carve]
    dsimp only
    omega

theorem Inv.rest (hcr : c < r) (hrk : r < c + k) : m.freeChunksEnd.get? (p + r) = none ∧
    m.freeChunksStart.get? (p + r) = none ∧ m.freeChunksStart.get? (p + c + k) = none ∧
    m.inuseChunks.get? (p + r) = none := by
  have hrun := h.rep.start_iff.mp hk
  have hmem : p + r ∈ S.free := hrun.subset _ (by omega) (by omega)
  refine ⟨?_, ?_, ?_, ?_⟩
  · refine eq_none_iff_forall_ne_some.mpr fun n hn => ?_
    obtain ⟨hle, hn⟩ := h.rep.end_iff.mp hn
    exact hn.stop (by rwa [Nat.sub_add_cancel hle])
  · refine eq_none_iff_forall_ne_some.mpr fun n hn => ?_
    exact (h.rep.start_iff.mp hn).start (p + r - 1) (by omega) (hrun.subset _ (by omega) (by omega))
  · refine eq_none_iff_forall_ne_some.mpr fun n hn => ?_
    exact hrun.not_adjacent (h.rep.start_iff.mp hn)
  · rw [h.rep.inuse]
    exact h.wf.get?_eq_none hmem

theorem Inv.growInPlace_of_lt (hcr : c < r) (hrk : r < c + k) :
    m.growInPlace p c k r = some ((m.takeNext p c k r).joined (p + r) (r - c)) := by
  obtain ⟨-, -, -, hinuse⟩ := h.rest hk hcr hrk
  simp only [growInPlace, if_pos hrk]
  refine addFreeChunk_of_none ?_
  rw [takeNext, get?_insert, if_neg (by omega), hinuse]

theorem Inv.joined_takeNext (hcr : c < r) (hrk : r < c + k) :
    (m.takeNext p c k r).joined (p + r) (r - c) = { m.takeNext p c k r with
      freeChunksStart := ((m.freeChunksStart.erase (p + c)).erase (p + r + (r - c))).insert (p + r)
        (r - c + (m.takeNext p c k r).nextSize (p + r + (r - c)))
      freeChunksEnd := (m.freeChunksEnd.erase (p + c + k)).erase (p + r + (r - c)) |>.insert
        (p + r + (r - c) + (m.takeNext p c k r).nextSize (p + r + (r - c)))
        (r - c + (m.takeNext p c k r).nextSize (p + r + (r - c))) } := by
  obtain ⟨hend, -, -, -⟩ := h.rest hk hcr hrk
  have hnone : (m.takeNext p c k r).freeChunksEnd.get? (p + r) = none := by
    rw [takeNext, get?_erase, hend, ite_self]
  rw [joined_eq (fun p hp => by rw [hnone] at hp; cases hp) (by omega), prevSize, hnone,
    getD_none, Nat.sub_zero, Nat.zero_add, erase_of_none hnone]
  rfl

theorem Inv.growInPlace_eq (hcr : c < r) (hrk : r ≤ c + k)
    (hrest : r = c + k ∨ k = 2 * (r - c)) : m.growInPlace p c k r =
      some { m.carve (p + c) k (r - c) with inuseChunks := m.inuseChunks.insert p r } := by
  rcases eq_or_lt_of_le hrk with heq | hlt
  · simp [growInPlace, takeNext, Mspace.carve, heq]
  obtain ⟨-, -, hnext, -⟩ := h.rest hk hcr hlt
  have hstop : p + r + (r - c) = p + c + k := by omega
  have hzero : (m.takeNext p c k r).nextSize (p + c + k) = 0 := by
    rw [nextSize, takeNext, OrdMap.get?_erase, hnext, ite_self, getD_none]
  rw [h.growInPlace_of_lt hk hcr hlt, h.joined_takeNext hk hcr hlt, hstop, hzero]
  simp only [takeNext, Mspace.carve, if_pos (by omega : 0 < k - (r - c)), Option.some.injEq,
    Mspace.mk.injEq, and_true]
  constructor
  · refine OrdMap.ext_get? fun t => ?_
    grind [OrdMap.get?_insert, OrdMap.get?_erase]
  · refine OrdMap.ext_get? fun t => ?_
    grind [OrdMap.get?_insert, OrdMap.get?_erase]

theorem Inv.total_growInPlace (hp : S.live.get? p = some c) (hcr : c < r) (hrk : r < c + k)
    (hm : m.growInPlace p c k r = some m') :
    m'.freeChunksStart.total + m'.inuseChunks.total + k = m'.totalSize + 2 * (r - c) := by
  obtain ⟨-, hstart, -, -⟩ := h.rest hk hcr hrk
  rw [h.growInPlace_of_lt hk hcr hrk, h.joined_takeNext hk hcr hrk] at hm
  cases hm
  have h₁ := total_erase (m := m.freeChunksStart) (k := p + c)
  have h₂ := total_erase (m := m.freeChunksStart.erase (p + c)) (k := p + r + (r - c))
  have h₃ := total_insert
    (m := (m.freeChunksStart.erase (p + c)).erase (p + r + (r - c))) (k := p + r)
    (n := r - c + (m.takeNext p c k r).nextSize (p + r + (r - c)))
  have h₄ := total_insert (m := m.inuseChunks) (k := p) (n := r)
  have h₅ := h.total
  rw [hk, getD_some] at h₁
  rw [get?_erase, if_neg (by omega), get?_erase, hstart, ite_self,
    getD_none] at h₃
  rw [show m.inuseChunks.get? p = some c from h.rep.inuse ▸ hp, getD_some] at h₄
  simp only [takeNext, nextSize] at h₂ h₃ ⊢
  omega

end Grow

theorem get?_nextSize (hcr : c < r) (hrk : r ≤ c + m.nextSize (p + c)) :
    m.freeChunksStart.get? (p + c) = some (m.nextSize (p + c)) := by
  cases hk : m.freeChunksStart.get? (p + c) with
  | none =>
    rw [nextSize, hk] at hrk
    exact absurd hcr (not_lt.mpr hrk)
  | some k => rw [nextSize, hk, getD_some]

theorem reallocate_eq {mem : ℕ → β} {size : ℕ} (hc : m.inuseChunks.get? p = some c) :
    m.reallocate mem p size =
      if alignRequest size < c then
        (addFreeChunk { m with inuseChunks := m.inuseChunks.insert p (alignRequest size) }
          (p + alignRequest size) (c - alignRequest size)).map (⟨p, ·, mem, 0⟩)
      else if c < alignRequest size then
        if alignRequest size ≤ c + m.nextSize (p + c) then
          (m.growInPlace p c (m.nextSize (p + c)) (alignRequest size)).map (⟨p, ·, mem, 0⟩)
        else m.move mem p c (alignRequest size)
      else some ⟨p, m, mem, 0⟩ := by
  simp only [reallocate, currentSize, hc]
  split_ifs with hlt hgt hle
  · rfl
  · rw [get?_nextSize hgt hle]
    exact if_pos hle
  · cases hk : m.freeChunksStart.get? (p + c) with
    | none => rfl
    | some k =>
      rw [nextSize, hk] at hle
      exact if_neg hle
  · rfl

instance : DecidablePred m.Rejects := fun t =>
  decidable_of_iff (t = 0 ∨ (m.freeChunksStart.first? fun _ n => alignRequest t ≤ n) = none) <| by
    rw [OrdMap.first?_eq_none, Rejects]
    simp only [decide_eq_true_eq, not_le]

/-- The new size is not zero and can be represented, and a block that has to grow fills the chunk
behind it or half of what it takes of it is left, or nothing is found for it. -/
def Reallocatable (m : Mspace) (ptr len size : ℕ) : Prop :=
  0 < size ∧ size + 511 < sizeBound ∧ (len < alignRequest size →
    if alignRequest size ≤ len + m.nextSize (ptr + len) then
      alignRequest size = len + m.nextSize (ptr + len) ∨
        m.nextSize (ptr + len) = 2 * (alignRequest size - len)
    else m.Rejects (alignRequest size))

instance {ptr len size : ℕ} : Decidable (m.Reallocatable ptr len size) :=
  inferInstanceAs (Decidable (_ ∧ _ ∧ (_ → _)))

end Mspace

open Mspace

namespace Session

/-- What a reallocation is for. The null pointer says that there was no memory. -/
structure Reallocates (s : Session) (mem : ℕ → β) (ptr len size : ℕ) (r : Reallocated β) :
    Prop where
  partitioned : Partitioned ⟨r.ms, s.regions⟩
  read_le : r.read ≤ len
  block : r.ptr = 0 ∧ r.ms = s.ms ∨ r.ptr ≠ 0 ∧ ∃ n, r.ms.inuseChunks.get? r.ptr = some n ∧
    size ≤ n ∧ ∀ i < min len size, r.mem (r.ptr + i) = mem (ptr + i)

inductive Op where
  | call (c : Call)
  | reallocate (ptr size : ℕ)

def run (s : Session) : Op → Option Session
  | .call c => s.step c
  | .reallocate ptr size =>
    if ptr ≠ 0 ∧ (s.ms.inuseChunks.get? ptr).isSome ∧ size < sizeBound then
      (s.ms.reallocate (fun _ => ()) ptr size).map fun r => ⟨r.ms, s.regions⟩
    else none

def Allowed (s : Session) : Op → Prop
  | .call c => s.AlignedRegion c
  | .reallocate ptr size => s.ms.Reallocatable ptr ((s.ms.inuseChunks.get? ptr).getD 0) size

instance (s : Session) : DecidablePred s.Allowed
  | .call c => inferInstanceAs (Decidable (s.AlignedRegion c))
  | .reallocate ptr size => inferInstanceAs (Decidable (s.ms.Reallocatable ptr _ size))

variable {s : Session} {S : Store} {mem : ℕ → β} {ptr len size : ℕ}

theorem alignRequest_pos (hsize : size < sizeBound) :
    0 < alignRequest size ↔ 0 < size ∧ size + 511 < sizeBound := by
  simp only [alignRequest, mallocAlignment, sizeBound] at *
  omega

theorem Inv.reallocate (h : s.Inv S) (mem : ℕ → β) (hptr : ptr ≠ 0)
    (hlive : s.ms.inuseChunks.get? ptr = some len) (hok : s.ms.Reallocatable ptr len size) :
    ∃ r, s.ms.reallocate mem ptr size = some r ∧ (∃ S', Inv ⟨r.ms, s.regions⟩ S') ∧
      s.Reallocates mem ptr len size r := by
  obtain ⟨hpos, hlt, hgrow⟩ := hok
  have hle := (alignRequest_bounds hlt).1
  have hp : S.live.get? ptr = some len := h.ms.rep.inuse ▸ hlive
  have hdvd : mallocAlignment ∣ alignRequest size := dvd_alignRequest
  have hkeep : ∀ {m'}, (∃ S', Inv ⟨m', s.regions⟩ S') →
      m'.inuseChunks.get? ptr = some (alignRequest size) →
      s.Reallocates mem ptr len size ⟨ptr, m', mem, 0⟩ := fun ⟨S', hinv⟩ hget =>
    ⟨hinv.partitioned, Nat.zero_le _, .inr ⟨hptr, _, hget, hle, fun _ _ => rfl⟩⟩
  rw [reallocate_eq hlive]
  generalize alignRequest size = r at *
  split_ifs with hlt' hgt hin
  · obtain ⟨m', hm', hinv, htotal, hinuse⟩ := h.ms.shrink hp (by omega) hlt'
    have hinv' : ∃ S', Inv ⟨m', s.regions⟩ S' :=
      ⟨_, h.replace hinv (h.aligned.resize (by decide) hp hdvd) htotal⟩
    refine ⟨_, by rw [hm']; rfl, hinv', hkeep hinv' ?_⟩
    rw [hinuse, get?_insert_self]
  · have hk := get?_nextSize hgt hin
    have hrest := hgrow hgt
    rw [if_pos hin] at hrest
    have hinv' : ∃ S', Inv ⟨_, s.regions⟩ S' := ⟨_, h.replace (h.ms.grow hk hp hgt hin)
      (h.aligned.resize (by decide) hp hdvd) totalSize_carve⟩
    exact ⟨_, by rw [h.ms.growInPlace_eq hk hgt hin hrest]; rfl, hinv',
      hkeep hinv' get?_insert_self⟩
  · have hnull := hgrow hgt
    rw [if_neg hin] at hnull
    refine ⟨⟨0, s.ms, mem, 0⟩, ?_, ⟨S, h⟩, h.partitioned, Nat.zero_le _, .inl ⟨rfl, rfl⟩⟩
    rw [move, allocate_of_rejects hnull]
    rfl
  · obtain rfl : r = len := by omega
    exact ⟨_, rfl, ⟨S, h⟩, hkeep ⟨S, h⟩ hlive⟩

theorem Inv.reallocatable (h : s.Inv S) (hlive : s.ms.inuseChunks.get? ptr = some len)
    (hsize : size < sizeBound) {r : Reallocated β} (hr : s.ms.reallocate mem ptr size = some r)
    (hok : s.Reallocates mem ptr len size r) : s.ms.Reallocatable ptr len size := by
  have hp : S.live.get? ptr = some len := h.ms.rep.inuse ▸ hlive
  have hlen := h.ms.wf.pos hp
  rw [reallocate_eq hlive] at hr
  have hpos : 0 < alignRequest size := by
    by_contra hzero
    obtain heq : alignRequest size = 0 := Nat.eq_zero_of_not_pos hzero
    rw [heq, if_pos hlen, addFreeChunk, Nat.add_zero, get?_insert_self] at hr
    cases hr
  obtain ⟨hpos', hlt⟩ := (alignRequest_pos hsize).mp hpos
  refine ⟨hpos', hlt, fun hgt => ?_⟩
  rw [if_neg (by omega), if_pos hgt] at hr
  split_ifs at hr ⊢ with hin
  · refine or_iff_not_imp_left.mpr fun hne => ?_
    have hk := get?_nextSize hgt hin
    obtain ⟨m', hm', rfl⟩ := map_eq_some_iff.mp hr
    have htotal := h.ms.total_growInPlace hk hp hgt (by omega) hm'
    have := hok.partitioned.total
    dsimp only at this
    omega
  · by_contra hnot
    obtain ⟨b, n, hb, -, heq⟩ := allocate_of_not_rejects hnot
    rw [move, heq] at hr
    dsimp only at hr
    split_ifs at hr with hzero
    · cases hr
      rcases hok.block with ⟨-, hms⟩ | ⟨hne, -⟩
      · exact carve_ne hb (congrArg freeChunksStart hms)
      · exact hne rfl
    · obtain ⟨m', -, rfl⟩ := map_eq_some_iff.mp hr
      exact absurd hok.read_le (not_le.mpr hgt)

/-- In every run of calls and such reallocations, a block is reallocated as it should be if and only
if the block that grows leaves the right rest and does not have to move. -/
theorem reallocates_iff {base capacity : ℕ} (hoff : alignOffset base ≤ capacity)
    (hlt : base + capacity < sizeBound)
    (h : Reachable (restrict Allowed run) (start base capacity) s) (mem : ℕ → β) (ptr len size : ℕ)
    (hptr : ptr ≠ 0) (hlive : s.ms.inuseChunks.get? ptr = some len) (hsize : size < sizeBound) :
    (∃ r, s.ms.reallocate mem ptr size = some r ∧ s.Reallocates mem ptr len size r) ↔
      s.ms.Reallocatable ptr len size := by
  obtain ⟨S, hinv⟩ : ∃ S, s.Inv S := by
    refine h.invariant (I := fun s => ∃ S, s.Inv S) (inv_start hoff hlt) fun {u op v} hu hstep => ?_
    obtain ⟨S, hu⟩ := hu
    obtain ⟨ha, hstep⟩ := restrict_eq_some.mp hstep
    cases op with
    | call c => exact hu.step ha hstep
    | reallocate ptr size =>
      rw [run, ite_none_right_eq_some] at hstep
      obtain ⟨⟨hptr, hsome, -⟩, hstep⟩ := hstep
      obtain ⟨len, hlen⟩ := isSome_iff_exists.mp hsome
      rw [Allowed, hlen] at ha
      obtain ⟨r, hr, hr', -⟩ := hu.reallocate (fun _ => ()) hptr hlen ha
      rw [hr] at hstep
      cases hstep
      exact hr'
  constructor
  · rintro ⟨r, hr, hok⟩
    exact hinv.reallocatable hlive hsize hr hok
  · intro hok
    obtain ⟨r, hr, -, hok⟩ := hinv.reallocate mem hptr hlive hok
    exact ⟨r, hr, hok⟩

def freedBehind : List Op := [.call (.allocate 512), .call (.allocate 512), .call (.deallocate 1024)]

theorem reallocates_freedBehind : ∃ s, Reachable (restrict Allowed run) (start 512 2048) s ∧
    ∃ r, s.ms.reallocate (fun x => x) 512 2000 = some r ∧
      s.Reallocates (fun x => x) 512 512 2000 r := by
  refine Reachable.exists_of_exec freedBehind (fun s =>
    s.ms.inuseChunks.get? 512 = some 512 ∧ s.ms.Reallocatable 512 512 2000) (by decide +kernel) ?_
  rintro s hr ⟨hlive, hok⟩
  exact (reallocates_iff (by decide) (by decide) hr _ 512 512 2000 (by decide) hlive
    (by decide)).mpr hok

/-- A block grows by one granule into a chunk of three and loses the last one. -/
theorem not_reallocates_freedBehind : ∃ s,
    Reachable (restrict Allowed run) (start 512 2048) s ∧ s.ms.inuseChunks.get? 512 = some 512 ∧
      ¬ ∃ r, s.ms.reallocate (fun x => x) 512 1000 = some r ∧
        s.Reallocates (fun x => x) 512 512 1000 r := by
  refine Reachable.exists_of_exec freedBehind (fun s =>
    s.ms.inuseChunks.get? 512 = some 512 ∧ (s.ms.reallocate (fun x => x) 512 1000).all fun r =>
      r.ms.freeChunksStart.total + r.ms.inuseChunks.total ≠ r.ms.totalSize) (by decide +kernel) ?_
  rintro s - ⟨hlive, hall⟩
  refine ⟨hlive, fun ⟨r, hr, hok⟩ => ?_⟩
  rw [hr] at hall
  exact of_decide_eq_true hall hok.partitioned.total

end Session

end Nvshmem
