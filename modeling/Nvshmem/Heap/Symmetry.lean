import Nvshmem.Heap.Partition

/-! # Symmetry of the symmetric heap

An allocator whose addresses are offsets can be placed at any base. Calls given
in offsets act on the placed allocator as on the offsets, so two processing
elements with different heap bases hand out the same offsets, and decide alike
whether to grow the heap.
-/

namespace Nvshmem

open Mspace Option Call Mspace OrdMap

namespace Mspace

variable {o : Mspace} {b d e off cap ptr ret bytes alignment : ℕ} {k n s : ℕ}

def place (o : Mspace) (b : ℕ) : Mspace where
  freeChunksStart := o.freeChunksStart.shift b
  freeChunksEnd := o.freeChunksEnd.shift b
  inuseChunks := o.inuseChunks.shift b
  totalSize := o.totalSize

def Fits (o : Mspace) : Prop := ∀ e n, o.freeChunksEnd.get? e = some n → n ≤ e

def Pending.place (p : Pending) (b : ℕ) : Pending :=
  ⟨p.ms.place b, p.base + b, p.capacity, p.merged⟩

theorem mergePrev_place (ho : o.Fits) :
    mergePrev (o.place b) (off + b) cap = (mergePrev o off cap).place b := by
  simp only [mergePrev, place, get?_shift]
  cases he : o.freeChunksEnd.get? off with
  | none => rfl
  | some n =>
    have hn := ho _ _ he
    simp only [Pending.place, place, ← shift_insert, ← shift_erase]
    rw [show off + b + cap = off + cap + b by omega, show off + b - n = off - n + b by omega]

theorem mergeNext_place (p : Pending) : mergeNext (p.place b) = (mergeNext p).place b := by
  simp only [mergeNext, Pending.place, place]
  rw [show p.base + b + p.capacity = p.base + p.capacity + b by omega, get?_shift]
  cases hs : p.ms.freeChunksStart.get? (p.base + p.capacity) with
  | none => rfl
  | some n =>
    simp only [← shift_insert, ← shift_erase]
    rw [show p.base + p.capacity + b + n = p.base + p.capacity + n + b by omega]

theorem insertUnmerged_place (p : Pending) :
    insertUnmerged (p.place b) = (insertUnmerged p).place b := by
  obtain ⟨m, base, capacity, merged⟩ := p
  cases merged with
  | true => rfl
  | false =>
    simp only [insertUnmerged, Pending.place, Bool.false_eq_true, if_false, place,
      ← shift_insert]
    rw [show base + b + capacity = base + capacity + b by omega]

theorem addFreeChunk_place (ho : o.Fits) :
    (o.place b).addFreeChunk (off + b) cap = (o.addFreeChunk off cap).map (·.place b) := by
  simp only [addFreeChunk, mergePrev_place ho, mergeNext_place, insertUnmerged_place]
  rw [place, get?_shift]
  split_ifs <;> rfl

theorem addNewChunk_place (ho : o.Fits) :
    (o.place b).addNewChunk (off + b) cap = (o.addNewChunk off cap).map (·.place b) :=
  addFreeChunk_place (o := { o with totalSize := (o.totalSize + cap) % sizeBound }) ho

theorem deallocate_place (ho : o.Fits) :
    (o.place b).deallocate (off + b) = (o.deallocate off).map (·.place b) := by
  simp only [deallocate, place, get?_shift]
  cases hl : o.inuseChunks.get? off with
  | none => rfl
  | some n =>
    simp only [shift_erase]
    exact addFreeChunk_place (o := { o with inuseChunks := o.inuseChunks.erase off }) ho

theorem carve_place : (o.place b).carve (s + b) n bytes = (o.carve s n bytes).place b := by
  simp only [carve, place]
  split_ifs <;>
    simp only [← shift_insert, ← shift_erase,
      show s + b + bytes = s + bytes + b by omega, show s + b + n = s + n + b by omega]

theorem trimFront_place (ho : o.Fits) (hret : ptr ≤ ret) :
    (o.place b).trimFront (ptr + b) (ret + b) = (o.trimFront ptr ret).map (·.place b) := by
  simp only [trimFront, Nat.add_right_cancel_iff]
  split_ifs
  · rfl
  · rw [place, get?_shift, shift_insert, shift_erase,
      show ret + b - (ptr + b) = ret - ptr by omega]
    exact addFreeChunk_place (o := { o with inuseChunks := _ }) ho

def allocateOffset (o : Mspace) (bytes : ℕ) : Option ℕ × Mspace :=
  if bytes = 0 then (none, o)
  else
    match o.freeChunksStart.first? fun _ size => alignRequest bytes ≤ size with
    | some (s, size) => (some s, o.carve s size (alignRequest bytes))
    | none => (none, o)

/-- Move a fresh block to an alignment of the addresses over base `b`. -/
def moveUp (b alignment : ℕ) : Option ℕ × Mspace → Option (Option ℕ × Mspace)
  | (none, o) => some (none, o)
  | (some s, o) =>
    if alignment = 0 then none
    else
      let ret := alignUp alignment (s + b) - b
      (o.trimFront s ret).map fun o => (some ret, o)

/-- Allocate in offsets at an alignment of the addresses over base `b`. -/
def allocateAlignedOffset (o : Mspace) (b alignment bytes : ℕ) : Option (Option ℕ × Mspace) :=
  if alignment % 8 = 0 ∧ alignment &&& (alignment - 1) = 0 then
    moveUp b alignment (o.allocateOffset ((bytes + alignment) % sizeBound))
  else none

def pointer (b : ℕ) : Option ℕ → ℕ
  | none => 0
  | some off => off + b

theorem allocate_place :
    (o.place b).allocate bytes =
      (pointer b (o.allocateOffset bytes).1, (o.allocateOffset bytes).2.place b) := by
  unfold allocate allocateOffset
  split_ifs
  · rfl
  · simp only [show (o.place b).freeChunksStart = o.freeChunksStart.shift b from rfl,
      first?_shift (fun size => decide (alignRequest bytes ≤ size))]
    cases hf : o.freeChunksStart.first? fun _ size => alignRequest bytes ≤ size with
    | none => rfl
    | some e => simp only [map_some, pointer, carve_place]

theorem allocateOffset_cases (o : Mspace) (bytes : ℕ) : o.allocateOffset bytes = (none, o) ∨
    ∃ s n, o.allocateOffset bytes = (some s, o.carve s n (alignRequest bytes)) := by
  unfold allocateOffset
  split_ifs
  · exact .inl rfl
  · cases hf : o.freeChunksStart.first? fun _ size => alignRequest bytes ≤ size with
    | none => exact .inl rfl
    | some e => exact .inr ⟨e.1, e.2, rfl⟩

theorem fits_insert {m : OrdMap ℕ ℕ} (hm : ∀ e n, m.get? e = some n → n ≤ e) (hn : n ≤ k) :
    ∀ e n', (m.insert k n).get? e = some n' → n' ≤ e := by
  intro e n' h
  rw [get?_insert] at h
  split_ifs at h with hk
  · cases h
    omega
  · exact hm e n' h

theorem fits_erase {m : OrdMap ℕ ℕ} (hm : ∀ e n, m.get? e = some n → n ≤ e) :
    ∀ e n, (m.erase k).get? e = some n → n ≤ e := by
  intro e n h
  rw [get?_erase] at h
  split_ifs at h
  exact hm e n h

theorem Fits.mergePrev (ho : o.Fits) : (mergePrev o off cap).ms.Fits := by
  unfold Mspace.mergePrev
  split
  · exact ho
  · rename_i n he
    have hn := ho off n he
    exact fits_insert (fits_erase ho) (by omega)

theorem Fits.mergeNext {p : Pending} (hp : p.ms.Fits) : (mergeNext p).ms.Fits := by
  unfold Mspace.mergeNext
  split
  · exact hp
  · exact fits_insert (fits_erase hp) (by omega)

theorem Fits.insertUnmerged {p : Pending} (hp : p.ms.Fits) : (insertUnmerged p).Fits := by
  unfold Mspace.insertUnmerged
  split_ifs
  · exact hp
  · exact fits_insert hp (by omega)

theorem fits_of_addFreeChunk {o' : Mspace} (h : o.addFreeChunk off cap = some o') (ho : o.Fits) :
    o'.Fits := by
  unfold addFreeChunk at h
  split_ifs at h
  cases h
  exact ho.mergePrev.mergeNext.insertUnmerged

theorem Fits.carve (ho : o.Fits) : (o.carve s n bytes).Fits := by
  unfold Mspace.carve
  simp only
  split_ifs
  · exact fits_insert ho (by omega)
  · exact fits_erase ho

theorem Fits.allocateOffset (ho : o.Fits) : (o.allocateOffset bytes).2.Fits := by
  rcases allocateOffset_cases o bytes with h | ⟨s, n, h⟩ <;> rw [h]
  · exact ho
  · exact ho.carve

theorem Fits.trimFront (ho : o.Fits) {o' : Mspace} (h : o.trimFront ptr ret = some o') :
    o'.Fits := by
  unfold Mspace.trimFront at h
  split_ifs at h
  · cases h
    exact ho
  · exact fits_of_addFreeChunk h ho

theorem Fits.moveUp (ho : o.Fits) {s : Option ℕ} {r : Option ℕ × Mspace}
    (h : moveUp b alignment (s, o) = some r) : r.2.Fits := by
  cases s with
  | none =>
    cases h
    exact ho
  | some s =>
    simp only [Mspace.moveUp] at h
    split_ifs at h
    obtain ⟨o', ho', rfl⟩ := map_eq_some_iff.mp h
    exact ho.trimFront ho'

theorem allocateAligned_place (ho : o.Fits) (hb : 0 < b) :
    (o.place b).allocateAligned alignment bytes =
      (o.allocateAlignedOffset b alignment bytes).map fun r => (pointer b r.1, r.2.place b) := by
  unfold allocateAligned allocateAlignedOffset
  by_cases hassert : alignment % 8 = 0 ∧ alignment &&& (alignment - 1) = 0
  · have hfits : (o.allocateOffset ((bytes + alignment) % sizeBound)).2.Fits := ho.allocateOffset
    rw [if_pos hassert, if_pos hassert, allocate_place]
    rcases hr : o.allocateOffset ((bytes + alignment) % sizeBound) with ⟨_ | s, o'⟩
    · rfl
    · rw [hr] at hfits
      simp only [moveUp, pointer, show s + b ≠ 0 by omega, if_false]
      by_cases ha : alignment = 0
      · rw [if_pos ha, if_pos ha, map_none]
      · have hs := (alignUp_bounds (s := s + b) (Nat.pos_of_ne_zero ha)).1
        rw [if_neg ha, if_neg ha, ← alignUp,
          show alignUp alignment (s + b) = alignUp alignment (s + b) - b + b by omega,
          trimFront_place hfits (by omega), Nat.add_sub_cancel]
        cases o'.trimFront s (alignUp alignment (s + b) - b) <;> rfl
  · rw [if_neg hassert, if_neg hassert, map_none]

section PlacedAt

variable {m m' : Mspace}

def PlacedAt (b : ℕ) (m : Mspace) : Prop := ∃ o : Mspace, o.Fits ∧ m = o.place b

theorem PlacedAt.le_of_inuse (h : PlacedAt b m) (hk : m.inuseChunks.get? k = some n) : b ≤ k := by
  obtain ⟨o, -, rfl⟩ := h
  exact le_of_get?_shift hk

theorem PlacedAt.allocate (h : PlacedAt b m) : PlacedAt b (m.allocate bytes).2 := by
  obtain ⟨o, ho, rfl⟩ := h
  rw [allocate_place]
  exact ⟨_, ho.allocateOffset, rfl⟩

theorem PlacedAt.addNewChunk (h : PlacedAt b m) (hle : b ≤ off)
    (hm : m.addNewChunk off cap = some m') : PlacedAt b m' := by
  obtain ⟨o, ho, rfl⟩ := h
  rw [show off = off - b + b by omega, addNewChunk_place ho] at hm
  obtain ⟨o', ho', rfl⟩ := map_eq_some_iff.mp hm
  exact ⟨o', fits_of_addFreeChunk ho' ho, rfl⟩

theorem fits_of_deallocate (h : o.deallocate off = some m') (ho : o.Fits) : m'.Fits := by
  unfold deallocate at h
  split at h
  · cases h
  · exact fits_of_addFreeChunk h ho

theorem PlacedAt.deallocate (h : PlacedAt b m) (hm : m.deallocate off = some m') :
    PlacedAt b m' := by
  have hle : b ≤ off := by
    cases hl : m.inuseChunks.get? off with
    | none => simp [Mspace.deallocate, hl] at hm
    | some n => exact h.le_of_inuse hl
  obtain ⟨o, ho, rfl⟩ := h
  rw [show off = off - b + b by omega, deallocate_place ho] at hm
  obtain ⟨o', ho', rfl⟩ := map_eq_some_iff.mp hm
  exact ⟨o', fits_of_deallocate ho' ho, rfl⟩

theorem PlacedAt.allocate_eq_null (h : PlacedAt b m) (hb : 0 < b)
    (hnull : (m.allocate bytes).1 = 0) : m.allocate bytes = (0, m) := by
  obtain ⟨o, -, rfl⟩ := h
  rw [allocate_place] at hnull ⊢
  rcases allocateOffset_cases o bytes with heq | ⟨s, n, heq⟩
  · rw [heq]
    rfl
  · rw [heq, pointer] at hnull
    omega

end PlacedAt

/-- The call at base `b` of a call given in offsets. -/
def Call.at (b : ℕ) : Call → Call
  | .addNewChunk off capacity => .addNewChunk (off + b) capacity
  | .deallocate off => .deallocate (off + b)
  | c => c

/-- A call in offsets; the base matters only for the alignment of addresses. -/
def offsetCall (o : Mspace) (b : ℕ) : Call → Option (Option ℕ × Mspace)
  | .addNewChunk off capacity => (o.addNewChunk off capacity).map fun o => (none, o)
  | .allocate bytes => some (o.allocateOffset bytes)
  | .allocateZeroed nElements elemSize => some (o.allocateOffset (nElements * elemSize % sizeBound))
  | .allocateAligned alignment bytes => o.allocateAlignedOffset b alignment bytes
  | .deallocate off => (o.deallocate off).map fun o => (none, o)

variable {c : Call} {r : Option ℕ × Mspace} {b₁ b₂ : ℕ}

theorem call_place (ho : o.Fits) (hb : 0 < b) :
    (o.place b).call (c.at b) =
      (o.offsetCall b c).map fun r => (pointer b r.1, r.2.place b) := by
  cases c with
  | addNewChunk off cap =>
    simp only [Call.at, call, offsetCall, addNewChunk_place ho, map_map]
    rfl
  | allocate bytes => simp only [Call.at, call, offsetCall, allocate_place, map_some]
  | allocateZeroed n e =>
    simp only [Call.at, call, allocateZeroed, offsetCall, allocate_place, map_some]
  | allocateAligned alignment bytes => exact allocateAligned_place ho hb
  | deallocate off =>
    simp only [Call.at, call, offsetCall, deallocate_place ho, map_map]
    rfl

theorem Fits.offsetCall (ho : o.Fits) (h : o.offsetCall b c = some r) : r.2.Fits := by
  cases c with
  | addNewChunk off cap =>
    obtain ⟨o', ho', rfl⟩ := map_eq_some_iff.mp h
    exact fits_of_addFreeChunk ho' ho
  | allocate bytes =>
    cases h
    exact ho.allocateOffset
  | allocateZeroed n e =>
    cases h
    exact ho.allocateOffset
  | allocateAligned alignment bytes =>
    simp only [offsetCall, allocateAlignedOffset] at h
    split_ifs at h
    exact ho.allocateOffset.moveUp h
  | deallocate off =>
    obtain ⟨o', ho', rfl⟩ := map_eq_some_iff.mp h
    exact fits_of_deallocate ho' ho

theorem PlacedAt.call {m m' : Mspace} (h : PlacedAt b m) (hb : 0 < b) (hc : c.at b = c)
    (hm : m.call c = some (ptr, m')) : PlacedAt b m' := by
  obtain ⟨o, ho, rfl⟩ := h
  rw [← hc, call_place ho hb] at hm
  obtain ⟨r, hr, heq⟩ := map_eq_some_iff.mp hm
  cases heq
  exact ⟨r.2, ho.offsetCall hr, rfl⟩

def Call.AlignedFor (b₁ b₂ : ℕ) : Call → Prop
  | .allocateAligned alignment _ => (alignment : ℤ) ∣ b₁ - b₂
  | _ => True

instance (b₁ b₂ : ℕ) : (c : Call) → Decidable (c.AlignedFor b₁ b₂)
  | .allocateAligned .. => inferInstanceAs (Decidable (_ ∣ _))
  | .addNewChunk .. | .allocate _ | .allocateZeroed .. | .deallocate _ =>
    inferInstanceAs (Decidable True)

theorem alignUp_add {s d : ℕ} (ha : 0 < alignment) (hd : alignment ∣ d) :
    alignUp alignment (s + d) = alignUp alignment s + d := by
  obtain ⟨k, rfl⟩ := hd
  rw [alignUp, alignUp, show s + alignment * k + (alignment - 1) = s + (alignment - 1) +
    alignment * k by omega, Nat.add_mul_div_left _ _ ha, Nat.mul_add]

theorem moveUp_add (hd : alignment ∣ d) : moveUp (b + d) alignment r = moveUp b alignment r := by
  obtain ⟨_ | s, o⟩ := r
  · rfl
  · by_cases ha : alignment = 0
    · simp only [moveUp, ha, if_true]
    · simp only [moveUp, ha, if_false]
      rw [← add_assoc, alignUp_add (Nat.pos_of_ne_zero ha) hd, Nat.add_sub_add_right]

theorem offsetCall_congr (hc : c.AlignedFor b₁ b₂) : o.offsetCall b₁ c = o.offsetCall b₂ c := by
  cases c with
  | addNewChunk off cap => rfl
  | allocate bytes => rfl
  | allocateZeroed n e => rfl
  | deallocate off => rfl
  | allocateAligned alignment bytes =>
    simp only [offsetCall, allocateAlignedOffset]
    rcases le_total b₁ b₂ with hle | hle
    · have hd : alignment ∣ b₂ - b₁ := by
        rw [← Int.natCast_dvd_natCast, Nat.cast_sub hle]
        exact (dvd_sub_comm).mp hc
      rw [← moveUp_add (b := b₁) hd, Nat.add_sub_cancel' hle]
    · have hd : alignment ∣ b₁ - b₂ := by
        rw [← Int.natCast_dvd_natCast, Nat.cast_sub hle]
        exact hc
      rw [← moveUp_add (b := b₂) hd, Nat.add_sub_cancel' hle]

inductive Outcome where
  | exit
  | returned (block : Option ℕ) (grows : Bool)
  deriving DecidableEq, Repr

def offsetOf (b ptr : ℕ) : Option ℕ := if ptr = 0 then none else some (ptr - b)

def growsHeap (c : Call) (ptr : ℕ) : Bool :=
  match c with
  | .allocate size | .allocateZeroed _ size | .allocateAligned _ size => 0 < size ∧ ptr = 0
  | _ => false

def outcomes (b : ℕ) : Mspace → List Call → List Outcome
  | _, [] => []
  | m, c :: cs =>
    match m.call (c.at b) with
    | none => [.exit]
    | some (ptr, m) => .returned (offsetOf b ptr) (growsHeap c ptr) :: outcomes b m cs

theorem offsetOf_pointer (hb : 0 < b) (r : Option ℕ) : offsetOf b (pointer b r) = r := by
  cases r with
  | none => rfl
  | some off => simp [offsetOf, pointer, hb.ne']

theorem growsHeap_pointer (h₁ : 0 < b₁) (h₂ : 0 < b₂) (r : Option ℕ) :
    growsHeap c (pointer b₁ r) = growsHeap c (pointer b₂ r) := by
  have hnull : pointer b₁ r = 0 ↔ pointer b₂ r = 0 := by cases r <;> simp [pointer, h₁.ne', h₂.ne']
  cases c <;> simp only [growsHeap, hnull]

theorem outcomes_place (h₁ : 0 < b₁) (h₂ : 0 < b₂) {cs : List Call} :
    ∀ {o : Mspace}, o.Fits → (∀ c ∈ cs, c.AlignedFor b₁ b₂) →
      outcomes b₁ (o.place b₁) cs = outcomes b₂ (o.place b₂) cs := by
  induction cs with
  | nil => exact fun _ _ => rfl
  | cons c cs ih =>
    intro o ho hcs
    obtain ⟨hc, hcs⟩ := List.forall_mem_cons.mp hcs
    simp only [outcomes, call_place ho h₁, call_place ho h₂, offsetCall_congr hc]
    cases hr : o.offsetCall b₂ c with
    | none => rfl
    | some r =>
      simp only [map_some, offsetOf_pointer h₁, offsetOf_pointer h₂,
        growsHeap_pointer h₁ h₂, ih (ho.offsetCall hr) hcs]

theorem new_place {capacity : ℕ} (hb : mallocAlignment ∣ b) :
    new b capacity = (new 0 capacity).place b := by
  have hoff : alignOffset b = 0 := by simp [alignOffset, Nat.mod_eq_zero_of_dvd hb]
  simp only [new, hoff, show alignOffset 0 = 0 from rfl]
  split_ifs
  · simp only [place, ← shift_insert, Nat.add_zero, Nat.zero_add, Nat.add_comm b]
    rfl
  · rfl

theorem fits_new {capacity : ℕ} : (new b capacity).Fits := by
  unfold new
  simp only
  split_ifs
  · exact fits_insert (fun e n h => by cases h) (by omega)
  · exact fun e n h => by cases h

end Mspace

structure HeapBase where
  addr : ℕ
  pos : 0 < addr
  aligned : mallocAlignment ∣ addr

end Nvshmem
