import Nvshmem.Heap.Mspace
import Nvshmem.Intervals.Region
import Nvshmem.Intervals.Store

/-! # The allocator refines a block store

The free maps list exactly the maximal runs of free addresses, and the third map
the live blocks. Returning, carving and trimming chunks then refine the
operations of an abstract block store and keep the byte count.
-/

namespace Nvshmem.Mspace

open Intervals Set Option Mspace OrdMap Store

variable {m : Mspace} {S : Store} {M : Set ℕ} {b c p q s n : ℕ}

/-- The free maps list the runs of free addresses, the third map the live blocks. -/
structure Rep (m : Mspace) (S : Store) : Prop where
  start_iff : ∀ {s n}, m.freeChunksStart.get? s = some n ↔ IsRun S.free s n
  end_iff : ∀ {e n}, m.freeChunksEnd.get? e = some n ↔ n ≤ e ∧ IsRun S.free (e - n) n
  inuse : m.inuseChunks = S.live

def prevSize (m : Mspace) (b : ℕ) : ℕ := (m.freeChunksEnd.get? b).getD 0

def nextSize (m : Mspace) (e : ℕ) : ℕ := (m.freeChunksStart.get? e).getD 0

def joined (m : Mspace) (b c : ℕ) : Mspace := insertUnmerged (mergeNext (mergePrev m b c))

theorem addFreeChunk_eq_some {m' : Mspace} :
    m.addFreeChunk b c = some m' ↔ m.inuseChunks.get? b = none ∧ m' = m.joined b c := by
  unfold addFreeChunk
  cases h : m.inuseChunks.get? b <;> simp [joined, eq_comm]

theorem addFreeChunk_of_none (h : m.inuseChunks.get? b = none) :
    m.addFreeChunk b c = some (m.joined b c) :=
  addFreeChunk_eq_some.mpr ⟨h, rfl⟩

theorem joined_eq (hp : ∀ p, m.freeChunksEnd.get? b = some p → p ≤ b) (hc : 0 < c) :
    m.joined b c = { m with
      freeChunksStart := (m.freeChunksStart.erase (b + c)).insert (b - m.prevSize b)
        (m.prevSize b + c + m.nextSize (b + c))
      freeChunksEnd := ((m.freeChunksEnd.erase b).erase (b + c)).insert
        (b + c + m.nextSize (b + c)) (m.prevSize b + c + m.nextSize (b + c)) } := by
  unfold joined mergePrev prevSize nextSize
  cases he : m.freeChunksEnd.get? b with
  | none =>
    cases hs : m.freeChunksStart.get? (b + c) <;>
      simp only [mergeNext, hs, insertUnmerged, Bool.false_eq_true, if_false, if_true,
        mk.injEq, getD_some, getD_none, and_true] <;>
      refine ⟨ext_get? fun t => ?_, ext_get? fun t => ?_⟩ <;>
      grind [get?_insert, get?_erase]
  | some p =>
    have hpb := hp p he
    have hbc : b - p + (c + p) = b + c := by omega
    have hne : b + c ≠ b - p := by omega
    cases hs : m.freeChunksStart.get? (b + c) <;>
      simp only [mergeNext, hbc, get?_insert, hne, hs, insertUnmerged, if_false, if_true,
        mk.injEq, getD_some, getD_none, and_true] <;>
      refine ⟨ext_get? fun t => ?_, ext_get? fun t => ?_⟩ <;>
      grind [get?_insert, get?_erase]

theorem Rep.stop_ne_of_none (h : m.Rep S) (he : m.freeChunksEnd.get? b = none) :
    ∀ s n, IsRun S.free s n → s + n ≠ b := by
  rintro s n hr rfl
  have : m.freeChunksEnd.get? (s + n) = some n :=
    h.end_iff.mpr ⟨by omega, by rwa [Nat.add_sub_cancel]⟩
  rw [he] at this
  cases this

theorem Rep.stopsAt (h : m.Rep S) (hF : S.free.Finite) (hb : b ∉ S.free) :
    StopsAt S.free b (m.prevSize b) := by
  unfold prevSize
  cases he : m.freeChunksEnd.get? b with
  | none => exact .inl ⟨rfl, fun x => notMem_of_forall_stop hF hb (h.stop_ne_of_none he)⟩
  | some p => exact .inr (h.end_iff.mp he)

theorem Rep.startsAt (h : m.Rep S) (hF : S.free.Finite) (hb : ∀ x, x + 1 = b → x ∉ S.free) :
    StartsAt S.free b (m.nextSize b) := by
  unfold nextSize
  cases hs : m.freeChunksStart.get? b with
  | none =>
    refine .inl ⟨rfl, notMem_of_forall_start hF hb fun n hr => ?_⟩
    simp [h.start_iff.mpr hr] at hs
  | some q => exact .inr (h.start_iff.mp hs)

theorem Rep.joined (h : m.Rep S) (hF : S.free.Finite) (hc : 0 < c)
    (hd : ∀ x ∈ S.free, x ∉ Ico b (b + c)) : (m.joined b c).Rep (S.extend b c) := by
  have hb : b ∉ S.free := fun hb => hd b hb ⟨le_rfl, by omega⟩
  have hbc : ∀ x, x + 1 = b + c → x ∉ S.free := fun x hx hxF => hd x hxF ⟨by omega, by omega⟩
  have hp := h.stopsAt hF hb
  have hq := h.startsAt hF hbc
  have hrun := fun {t n} => isRun_union_Ico (t := t) (m := n) hF hd hc hp hq
  rw [joined_eq (fun p he => (h.end_iff.mp he).1) hc]
  generalize m.prevSize b = p at *
  generalize m.nextSize (b + c) = q at *
  have hpb : p ≤ b := by rcases hp with ⟨rfl, -⟩ | ⟨hpb, -⟩ <;> omega
  have hstop : ∀ {t n}, IsRun S.free t n → t + n ≠ b + c := fun hr hne =>
    hbc (b + c - 1) (by omega) (hr.subset _ (by have := hr.pos; omega) (by omega))
  refine ⟨fun {t n} => ?_, fun {e n} => ?_, h.inuse⟩
  · rw [extend, hrun, get?_insert, get?_erase]
    split_ifs with h₁ h₂
    · subst h₁
      refine ⟨fun he => .inl ⟨rfl, (some.inj he).symm⟩, ?_⟩
      rintro (⟨-, rfl⟩ | ⟨hr, hne, -⟩)
      · rfl
      · rcases hp with ⟨rfl, -⟩ | ⟨-, hp⟩
        · exact absurd (hr.subset b le_rfl (by have := hr.pos; omega)) hb
        · exact absurd (by rw [hr.length_unique hp]; omega) hne
    · refine ⟨fun he => he.elim, ?_⟩
      rintro (⟨ht, -⟩ | ⟨-, -, ht⟩)
      · exact absurd ht h₁
      · exact absurd h₂ ht
    · rw [h.start_iff]
      refine ⟨fun hr => .inr ⟨hr, fun hb => h₁ (hp.eq_of_isRun hr hb).1, h₂⟩, ?_⟩
      rintro (⟨ht, -⟩ | ⟨hr, -⟩)
      · exact absurd ht h₁
      · exact hr
  · rw [extend, hrun, get?_insert, get?_erase, get?_erase]
    split_ifs with h₁ h₂ h₃
    · subst h₁
      refine ⟨fun he => ?_, ?_⟩
      · cases he
        exact ⟨by omega, .inl ⟨by omega, rfl⟩⟩
      · rintro ⟨hn, ⟨-, rfl⟩ | ⟨hr, -, hne⟩⟩
        · rfl
        · rcases hq with ⟨rfl, -⟩ | hq
          · exact absurd (by omega) (hstop hr)
          · exact absurd (hr.stop_unique hq (by omega)).1 hne
    · refine ⟨fun he => he.elim, ?_⟩
      rintro ⟨hn, ⟨h₂, rfl⟩ | ⟨hr, -⟩⟩
      · omega
      · exact absurd (by omega) (hstop hr)
    · refine ⟨fun he => he.elim, ?_⟩
      rintro ⟨hn, ⟨h₂, rfl⟩ | ⟨-, hne, -⟩⟩ <;> omega
    · rw [h.end_iff]
      refine and_congr_right fun hn => ⟨fun hr => .inr ⟨hr, by omega, fun he => h₁ ?_⟩, ?_⟩
      · have := hq.eq_of_isRun (he ▸ hr)
        omega
      · rintro (⟨he, rfl⟩ | ⟨hr, -⟩)
        · omega
        · exact hr

theorem Rep.total_joined (h : m.Rep S) (hF : S.free.Finite) (hc : 0 < c)
    (hd : ∀ x ∈ S.free, x ∉ Ico b (b + c)) :
    (m.joined b c).freeChunksStart.total = m.freeChunksStart.total + c := by
  have hb : b ∉ S.free := fun hb => hd b hb ⟨le_rfl, by omega⟩
  have hp := h.stopsAt hF hb
  rw [joined_eq (fun p he => (h.end_iff.mp he).1) hc]
  have hpget : (m.freeChunksStart.get? (b - m.prevSize b)).getD 0 = m.prevSize b := by
    rcases hp with ⟨hp, -⟩ | ⟨-, hp⟩
    · rw [hp]
      cases hs : m.freeChunksStart.get? (b - 0) with
      | none => rfl
      | some k =>
        have hr := h.start_iff.mp hs
        exact absurd (hr.subset b le_rfl (by have := hr.pos; omega)) hb
    · rw [h.start_iff.mpr hp, getD_some]
  have h₁ := total_insert (m := m.freeChunksStart.erase (b + c)) (k := b - m.prevSize b)
    (n := m.prevSize b + c + m.nextSize (b + c))
  have h₂ := total_erase (m := m.freeChunksStart) (k := b + c)
  rw [get?_erase, if_neg (by omega), hpget] at h₁
  unfold nextSize at *
  simp only at h₁ ⊢
  omega

theorem totalSize_joined : (m.joined b c).totalSize = m.totalSize := by
  unfold joined insertUnmerged mergeNext mergePrev
  split <;> split <;> split_ifs <;> rfl

theorem Rep.empty : empty.Rep ⟨∅, .empty⟩ := by
  have hrun : ∀ {s n}, ¬ IsRun ∅ s n := fun h =>
    (h.subset _ le_rfl (Nat.lt_add_of_pos_right h.pos)).elim
  refine ⟨⟨fun h => ?_, fun h => (hrun h).elim⟩, ⟨fun h => ?_, fun h => (hrun h.2).elim⟩, rfl⟩ <;>
    cases h

theorem Rep.carve (h : m.Rep S) (hF : S.free.Finite) (hs : m.freeChunksStart.get? s = some n)
    (hc : 0 < c) (hcn : c ≤ n) : (m.carve s n c).Rep (S.take s c) := by
  have hr := h.start_iff.mp hs
  have hrun := fun {t k} => isRun_diff_front (t := t) (m := k) hF hr hc hcn
  have hstop : ∀ {k}, k ≤ s + n → IsRun S.free (s + n - k) k → s + n - k = s :=
    fun hk hr' => (hr'.stop_unique hr (by omega)).1
  have hstart : ∀ {e k}, k ≤ e → IsRun S.free (e - k) k → e ≠ s + n → e - k ≠ s := by
    intro e k hk hr' hne he
    have := (he ▸ hr').length_unique hr
    omega
  have hmid : ∀ {k}, ¬ IsRun S.free (s + c) k ∨ c = n := by
    intro k
    refine or_iff_not_imp_right.mpr fun hlt hr' => ?_
    have := (hr'.eq_of_mem hr le_rfl (Nat.lt_add_of_pos_right hr'.pos) (by omega) (by omega)).1
    omega
  unfold Mspace.carve
  simp only
  split_ifs with hlt
  · refine ⟨fun {t k} => ?_, fun {e k} => ?_, by rw [h.inuse]; rfl⟩
    · rw [Store.take, hrun, OrdMap.get?_erase, OrdMap.get?_insert]
      split_ifs with h₁ h₂
      · simp [h₁, hc.ne']
      · subst h₂
        rw [Option.some.injEq]
        refine ⟨fun hk => .inr ⟨by omega, rfl, hk.symm⟩, ?_⟩
        rintro (⟨hr', -⟩ | ⟨-, -, hk⟩)
        · exact absurd hr' (hmid.resolve_right (by omega))
        · exact hk.symm
      · simp [h₁, h₂, h.start_iff]
    · rw [Store.take, hrun, OrdMap.get?_insert]
      split_ifs with h₁
      · subst h₁
        rw [Option.some.injEq]
        refine ⟨fun hk => ⟨by omega, .inr ⟨by omega, by omega, hk.symm⟩⟩, ?_⟩
        rintro ⟨hk, ⟨hr', hne⟩ | ⟨-, -, hk'⟩⟩
        · exact absurd (hstop hk hr') hne
        · exact hk'.symm
      · rw [h.end_iff]
        refine and_congr_right fun hk => ⟨fun hr' => .inl ⟨hr', hstart hk hr' h₁⟩, ?_⟩
        rintro (⟨hr', -⟩ | ⟨-, he, hk'⟩)
        · exact hr'
        · omega
  · refine ⟨fun {t k} => ?_, fun {e k} => ?_, by rw [h.inuse]; rfl⟩
    · rw [Store.take, hrun, OrdMap.get?_erase]
      split_ifs with h₁
      · simp [h₁, hc.ne']
      · simp [h₁, show ¬ c < n by omega, h.start_iff]
    · rw [Store.take, hrun, OrdMap.get?_erase]
      split_ifs with h₁
      · subst h₁
        refine ⟨fun hk => hk.elim, ?_⟩
        rintro ⟨hk, ⟨hr', hne⟩ | ⟨hlt', -⟩⟩
        · exact hne (hstop hk hr')
        · omega
      · rw [h.end_iff]
        refine and_congr_right fun hk => ⟨fun hr' => .inl ⟨hr', hstart hk hr' h₁⟩, ?_⟩
        rintro (⟨hr', -⟩ | ⟨hlt', -⟩)
        · exact hr'
        · omega

theorem total_carve (hs : m.freeChunksStart.get? s = some n) (hmid : c < n →
    m.freeChunksStart.get? (s + c) = none) (hc : 0 < c) (hcn : c ≤ n) :
    (m.carve s n c).freeChunksStart.total + c = m.freeChunksStart.total := by
  have herase := total_erase (m := m.freeChunksStart) (k := s)
  rw [hs, getD_some] at herase
  unfold carve
  simp only
  split_ifs with hlt
  · have h₁ := total_erase (m := m.freeChunksStart.insert (s + c) (n - c)) (k := s)
    have h₂ := total_insert (m := m.freeChunksStart) (k := s + c) (n := n - c)
    rw [get?_insert, if_neg (by omega), hs, getD_some] at h₁
    rw [hmid (by omega), getD_none] at h₂
    simp only
    omega
  · simp only
    omega

theorem allocate_cases (m : Mspace) (bytes : ℕ) : m.allocate bytes = (0, m) ∨ ∃ s n, 0 < bytes ∧
    m.freeChunksStart.get? s = some n ∧ alignRequest bytes ≤ n ∧
      m.allocate bytes = (s, m.carve s n (alignRequest bytes)) := by
  unfold allocate
  split_ifs with hb
  · exact .inl rfl
  · simp only
    split
    · rename_i s n hf
      obtain ⟨hs, hn⟩ := get?_of_first? hf
      exact .inr ⟨s, n, Nat.pos_of_ne_zero hb, hs, of_decide_eq_true hn, rfl⟩
    · exact .inl rfl

/-- The allocator represents a store that partitions the managed set, and counts its bytes. -/
structure Inv (m : Mspace) (S : Store) (M : Set ℕ) : Prop where
  rep : m.Rep S
  wf : S.WellFormed M
  total : m.freeChunksStart.total + m.inuseChunks.total = m.totalSize

theorem Inv.empty : Inv .empty ⟨∅, .empty⟩ ∅ := ⟨.empty, .empty, rfl⟩

theorem inuseChunks_joined : (m.joined b c).inuseChunks = m.inuseChunks := by
  unfold joined insertUnmerged mergeNext mergePrev
  split <;> split <;> split_ifs <;> rfl

theorem inuseChunks_of_addNewChunk {m' : Mspace} (h : m.addNewChunk b c = some m') :
    m'.inuseChunks = m.inuseChunks := by
  obtain ⟨-, rfl⟩ := addFreeChunk_eq_some.mp h
  rw [inuseChunks_joined]

theorem inuseChunks_of_deallocate {m' : Mspace} (h : m.deallocate p = some m') :
    m'.inuseChunks = m.inuseChunks.erase p := by
  unfold deallocate at h
  split at h
  · cases h
  · obtain ⟨-, rfl⟩ := addFreeChunk_eq_some.mp h
    rw [inuseChunks_joined]

theorem Inv.addNewChunk (h : m.Inv S M) (hc : 0 < c) (hd : ∀ x ∈ M, x ∉ Ico b (b + c))
    (hlt : m.totalSize + c < sizeBound) :
    ∃ m', m.addNewChunk b c = some m' ∧ m'.Inv (S.extend b c) (M ∪ Ico b (b + c)) ∧
      m'.totalSize = m.totalSize + c := by
  have hb : m.inuseChunks.get? b = none := by
    cases hl : m.inuseChunks.get? b with
    | none => rfl
    | some k =>
      rw [h.rep.inuse] at hl
      exact absurd ⟨le_rfl, by omega⟩
        (hd b ((h.wf.cover b).mpr (.inr ⟨b, k, hl, le_rfl, by have := h.wf.pos hl; omega⟩)))
  have hd' : ∀ x ∈ S.free, x ∉ Ico b (b + c) := fun x hx => hd x ((h.wf.cover x).mpr (.inl hx))
  let m₁ : Mspace := { m with totalSize := (m.totalSize + c) % sizeBound }
  have hrep : m₁.Rep S := ⟨h.rep.start_iff, h.rep.end_iff, h.rep.inuse⟩
  have htotal : m₁.totalSize = m.totalSize + c := Nat.mod_eq_of_lt hlt
  refine ⟨m₁.joined b c, addFreeChunk_of_none hb,
    ⟨hrep.joined h.wf.finite hc hd', h.wf.extend hd, ?_⟩, totalSize_joined.trans htotal⟩
  have h₁ := hrep.total_joined h.wf.finite hc hd'
  have h₂ : m₁.freeChunksStart.total + m₁.inuseChunks.total = m.totalSize := h.total
  rw [totalSize_joined, inuseChunks_joined]
  omega

theorem Inv.deallocate (h : m.Inv S M) (hp : S.live.get? p = some c) :
    ∃ m', m.deallocate p = some m' ∧ m'.Inv (S.give p c) M ∧ m'.totalSize = m.totalSize := by
  have hl : m.inuseChunks.get? p = some c := h.rep.inuse ▸ hp
  have hd : ∀ x ∈ S.free, x ∉ Ico p (p + c) := fun x hx hxp => h.wf.notMem_free hp hxp.1 hxp.2 hx
  let m₁ : Mspace := { m with inuseChunks := m.inuseChunks.erase p }
  have hrep : m₁.Rep ⟨S.free, S.live.erase p⟩ :=
    ⟨h.rep.start_iff, h.rep.end_iff, congrArg (OrdMap.erase · p) h.rep.inuse⟩
  refine ⟨m₁.joined p c, ?_, ⟨hrep.joined h.wf.finite (h.wf.pos hp) hd, h.wf.give hp, ?_⟩,
    totalSize_joined⟩
  · simp only [Mspace.deallocate, hl]
    exact addFreeChunk_of_none OrdMap.get?_erase_self
  · have h₁ := hrep.total_joined h.wf.finite (h.wf.pos hp) hd
    have h₂ := OrdMap.total_erase (m := m.inuseChunks) (k := p)
    have h₃ := h.total
    rw [hl, getD_some] at h₂
    rw [totalSize_joined, inuseChunks_joined]
    simp only [m₁] at *
    omega

theorem inuseChunks_carve : (m.carve s n c).inuseChunks = m.inuseChunks.insert s c := by
  unfold carve
  simp only
  split_ifs <;> rfl

theorem totalSize_carve : (m.carve s n c).totalSize = m.totalSize := by
  unfold carve
  simp only
  split_ifs <;> rfl

theorem Inv.carve (h : m.Inv S M) (hs : m.freeChunksStart.get? s = some n) (hc : 0 < c)
    (hcn : c ≤ n) : (m.carve s n c).Inv (S.take s c) M := by
  have hr := h.rep.start_iff.mp hs
  have hsF : s ∈ S.free := hr.subset s le_rfl (Nat.lt_add_of_pos_right hr.pos)
  refine ⟨h.rep.carve h.wf.finite hs hc hcn,
    h.wf.take hc fun x h₁ h₂ => hr.subset x h₁ (by omega), ?_⟩
  have h₁ := total_carve hs (fun hlt => ?_) hc hcn
  · have h₂ := total_insert (m := m.inuseChunks) (k := s) (n := c)
    rw [h.rep.inuse, h.wf.get?_eq_none hsF, getD_none, ← h.rep.inuse] at h₂
    have h₃ := h.total
    rw [inuseChunks_carve, totalSize_carve]
    omega
  · cases hk : m.freeChunksStart.get? (s + c) with
    | none => rfl
    | some k =>
      have hr' := h.rep.start_iff.mp hk
      have := (hr'.eq_of_mem hr le_rfl (Nat.lt_add_of_pos_right hr'.pos) (by omega) (by omega)).1
      omega

theorem sub_mod_sizeBound {d : ℕ} (hd : d ≤ c) (hc : c < sizeBound) :
    (c + sizeBound - d) % sizeBound = c - d := by
  rw [show c + sizeBound - d = c - d + sizeBound by omega, Nat.add_mod_right,
    Nat.mod_eq_of_lt (by omega)]

theorem Inv.trimFront (h : m.Inv S M) (hp : S.live.get? p = some c) (hpq : p < q)
    (hq : q < p + c) (hc : c < sizeBound) :
    ∃ m', m.trimFront p q = some m' ∧ m'.Inv (S.trim p q c) M ∧ m'.totalSize = m.totalSize := by
  have hl : m.inuseChunks.get? p = some c := h.rep.inuse ▸ hp
  have hsize : (c + sizeBound - (q - p)) % sizeBound = p + c - q := by
    rw [sub_mod_sizeBound (by omega) hc]
    omega
  have hlq : m.inuseChunks.get? q = none := by
    cases hl' : m.inuseChunks.get? q with
    | none => rfl
    | some d =>
      rw [h.rep.inuse] at hl'
      have := h.wf.disjoint hp hl' hpq.ne
      omega
  have hd : ∀ x ∈ S.free, x ∉ Ico p (p + (q - p)) := fun x hx hxp => by
    simp only [mem_Ico] at hxp
    exact h.wf.notMem_free hp hxp.1 (by omega) hx
  let m₁ : Mspace :=
    { m with inuseChunks := (m.inuseChunks.insert q (p + c - q)).erase p }
  have hrep : m₁.Rep ⟨S.free, (S.live.insert q (p + c - q)).erase p⟩ :=
    ⟨h.rep.start_iff, h.rep.end_iff, by simp only [m₁, h.rep.inuse]⟩
  have hjoin := hrep.joined h.wf.finite (by omega) hd
  refine ⟨m₁.joined p (q - p), ?_, ⟨?_, h.wf.trim hp hpq hq, ?_⟩, totalSize_joined⟩
  · simp only [Mspace.trimFront, hl, if_neg hpq.ne', getD_some, hsize]
    exact addFreeChunk_of_none OrdMap.get?_erase_self
  · rwa [Store.extend, show p + (q - p) = q by omega] at hjoin
  · have h₁ := hrep.total_joined h.wf.finite (by omega) hd
    have h₂ := OrdMap.total_erase (m := m.inuseChunks.insert q (p + c - q)) (k := p)
    have h₃ := OrdMap.total_insert (m := m.inuseChunks) (k := q) (n := p + c - q)
    have h₄ := h.total
    rw [OrdMap.get?_insert, if_neg hpq.ne, hl, getD_some] at h₂
    rw [hlq, getD_none] at h₃
    rw [totalSize_joined, inuseChunks_joined]
    simp only [m₁] at *
    omega

theorem Inv.allocate_block {m' : Mspace} {size ptr : ℕ} (h : m.Inv S M)
    (hround : alignRequest size = size) (ha : m.allocate size = (ptr, m')) (hptr : ptr ≠ 0) :
    m'.Inv (S.take ptr size) M ∧ m'.inuseChunks = m.inuseChunks.insert ptr size ∧
      m.inuseChunks.get? ptr = none ∧ m'.totalSize = m.totalSize := by
  rcases allocate_cases m size with heq | ⟨s, n, hpos, hs, hn, heq⟩
  · rw [heq] at ha
    exact absurd (congrArg Prod.fst ha).symm hptr
  · rw [heq, hround] at ha
    rw [hround] at hn
    obtain ⟨rfl, rfl⟩ := Prod.mk.inj ha
    have hr := h.rep.start_iff.mp hs
    refine ⟨h.carve hs hpos hn, inuseChunks_carve, ?_, totalSize_carve⟩
    rw [h.rep.inuse]
    exact h.wf.get?_eq_none (hr.subset s le_rfl (Nat.lt_add_of_pos_right hr.pos))

structure ChunksApart (m : Mspace) : Prop where
  free : ∀ b n b' n', m.freeChunksStart.get? b = some n → m.freeChunksStart.get? b' = some n' →
    b ≠ b' → Apart (b, n) (b', n')
  inuse : ∀ b n b' n', m.inuseChunks.get? b = some n → m.inuseChunks.get? b' = some n' →
    b ≠ b' → Apart (b, n) (b', n')
  free_inuse : ∀ b n b' n', m.freeChunksStart.get? b = some n →
    m.inuseChunks.get? b' = some n' → Apart (b, n) (b', n')

theorem Inv.chunksApart (h : m.Inv S M) : m.ChunksApart where
  free b n b' n' hb hb' hne :=
    (h.rep.start_iff.mp hb).disjoint (h.rep.start_iff.mp hb') hne
  inuse b n b' n' hb hb' hne := by
    rw [h.rep.inuse] at hb hb'
    exact h.wf.disjoint hb hb' hne
  free_inuse b n b' n' hb hb' := by
    rw [h.rep.inuse] at hb'
    have hr := h.rep.start_iff.mp hb
    have hn := hr.pos
    have hn' := h.wf.pos hb'
    by_contra hov
    simp only [Apart, not_or] at hov
    exact h.wf.notMem_free hb' (x := max b b') (by omega) (by omega)
      (hr.subset _ (by omega) (by omega))

end Nvshmem.Mspace
