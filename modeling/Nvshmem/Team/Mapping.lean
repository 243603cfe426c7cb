import Nvshmem.Transition.Exec

/-! # The PEs of a team

A team has a table with the PEs in the order of their indices and, behind them, the index of every
PE of the job. Translation reads the table of one team and then that of the other one, and teams are
compared by the fields that their constructors have set.
-/

namespace Nvshmem.PeMapping

open Function Option List Function Nat

/-- The fields of `nvshmemi_team_t` that say which PEs are in a team. -/
structure Team where
  myPe : ℤ
  start : ℤ
  stride : ℤ
  size : ℕ
  peMapping : ℤ → ℤ

/-- The loops that fill `pe_mapping`, entry by entry. Where the first part is copied beforehand, it
is written again. There is no result if a store is outside the table. -/
def populate (npes size : ℕ) (pe : ℕ → ℤ) : ℕ → Option (ℤ → ℤ)
  | 0 => some fun _ => -1
  | i + 1 => (populate npes size pe i).bind fun table =>
    if 0 ≤ pe i + size ∧ pe i < npes then
      some (update (update table i (pe i)) (pe i + size) i)
    else none

variable {npes size n : ℕ} {pe : ℕ → ℤ} {t u : Team} {i p q : ℤ}

structure Fills (size n : ℕ) (pe : ℕ → ℤ) (table : ℤ → ℤ) : Prop where
  pe_eq : ∀ i < n, table i = pe i
  index_eq : ∀ i < n, table (size + pe i) = i
  absent : ∀ q, 0 ≤ q → (∀ i < n, pe i ≠ q) → table (size + q) = -1

theorem exists_populate (hpe : ∀ i < size, 0 ≤ pe i ∧ pe i < npes)
    (hinj : ∀ i < size, ∀ j < size, pe i = pe j → i = j) (hn : n ≤ size) :
    ∃ table, populate npes size pe n = some table ∧ Fills size n pe table := by
  induction n with
  | zero => exact ⟨_, rfl, fun _ h => absurd h (Nat.not_lt_zero _),
      fun _ h => absurd h (Nat.not_lt_zero _), fun _ _ _ => rfl⟩
  | succ n ih =>
    obtain ⟨table, htable, hfill⟩ := ih (le_of_succ_le hn)
    have hlt := hpe n hn
    have hnext : populate npes size pe (n + 1) =
        some (update (update table n (pe n)) (pe n + size) n) := by
      rw [populate, htable]
      exact if_pos ⟨by omega, hlt.2⟩
    refine ⟨_, hnext, ?_, ?_, ?_⟩
    · intro i hi
      rw [update_of_ne (by omega), update_apply]
      split_ifs with heq
      · rw [Nat.cast_inj.mp heq]
      · exact hfill.pe_eq i (by omega)
    · intro i hi
      have := hpe i (by omega)
      rw [update_apply, update_of_ne (by omega)]
      split_ifs with heq
      · rw [hinj i (by omega) n hn (by omega)]
      · refine hfill.index_eq i (Nat.lt_of_le_of_ne (le_of_lt_succ hi) ?_)
        rintro rfl
        omega
    · intro q hq hne
      have := hne n (lt_succ_self n)
      rw [update_of_ne (by omega), update_of_ne (by omega)]
      exact hfill.absent q hq fun i hi => hne i (lt_succ_of_lt hi)

namespace Team

def pe? (t : Team) (i : ℤ) : Option ℤ := if 0 ≤ i ∧ i < t.size then some (t.peMapping i) else none

/-- A read of `pe_mapping`, if it is inside the table. -/
def read (npes : ℕ) (t : Team) (i : ℤ) : Option ℤ :=
  if 0 ≤ i ∧ i < t.size + npes then some (t.peMapping i) else none

structure Built (npes : ℕ) (t : Team) : Prop where
  size_pos : 0 < t.size
  size_le : t.size ≤ npes
  table : ∃ pe : ℕ → ℤ, (∀ i < t.size, 0 ≤ pe i ∧ pe i < npes) ∧
    (∀ i < t.size, ∀ j < t.size, pe i = pe j → i = j) ∧
    populate npes t.size pe t.size = some t.peMapping

theorem pe?_eq_some : t.pe? i = some p ↔ (0 ≤ i ∧ i < t.size) ∧ t.peMapping i = p := by
  rw [pe?, ite_none_right_eq_some, some.injEq]

theorem read_of_lt (h : 0 ≤ i ∧ i < t.size + npes) : t.read npes i = some (t.peMapping i) :=
  if_pos h

theorem read_index (hq : 0 ≤ q ∧ q < npes) :
    t.read npes (t.size + q) = some (t.peMapping (t.size + q)) :=
  read_of_lt ⟨by omega, by omega⟩

namespace Built

variable (h : t.Built npes)
include h

theorem fills : ∃ pe : ℕ → ℤ, (∀ i < t.size, 0 ≤ pe i ∧ pe i < npes) ∧
    Fills t.size t.size pe t.peMapping := by
  obtain ⟨pe, hpe, hinj, htable⟩ := h.table
  obtain ⟨table, htable', hfill⟩ := exists_populate hpe hinj le_rfl
  cases htable.symm.trans htable'
  exact ⟨pe, hpe, hfill⟩

theorem bounds (hp : t.pe? i = some p) : 0 ≤ p ∧ p < npes := by
  obtain ⟨pe, hpe, hfill⟩ := h.fills
  obtain ⟨hi, rfl⟩ := pe?_eq_some.mp hp
  lift i to ℕ using hi.1
  rw [hfill.pe_eq i (by omega)]
  exact hpe i (by omega)

theorem index (hp : t.pe? i = some p) : t.peMapping (t.size + p) = i := by
  obtain ⟨pe, hpe, hfill⟩ := h.fills
  obtain ⟨hi, rfl⟩ := pe?_eq_some.mp hp
  lift i to ℕ using hi.1
  rw [hfill.pe_eq i (by omega)]
  exact hfill.index_eq i (by omega)

theorem absent (hq : 0 ≤ q) (hno : ∀ i, t.pe? i ≠ some q) : t.peMapping (t.size + q) = -1 := by
  obtain ⟨pe, hpe, hfill⟩ := h.fills
  refine hfill.absent q hq fun i hi heq => hno i (pe?_eq_some.mpr ⟨by omega, ?_⟩)
  rw [hfill.pe_eq i hi, heq]

theorem index_eq_neg_one (hq : 0 ≤ q) :
    t.peMapping (t.size + q) = -1 ↔ ∀ i, t.pe? i ≠ some q := by
  refine ⟨fun heq i hi => ?_, h.absent hq⟩
  have := (pe?_eq_some.mp hi).1.1
  rw [h.index hi] at heq
  omega

theorem inj (hp : t.pe? i = some p) {j : ℤ} (hq : t.pe? j = some p) : i = j :=
  (h.index hp).symm.trans (h.index hq)

end Built

section Translate

/-- `nvshmemi_team_translate_pe` from the index at which the table of the source is read. -/
def translateAt (asserts : Bool) (npes : ℕ) (src : Team) (srcPe index : ℤ) (dest : Team) :
    Option ℤ :=
  if src.size < srcPe then some (-1)
  else (src.read npes index).bind fun world =>
    if asserts = true ∧ ¬ (src.start ≤ world ∧ world < npes) then none
    else dest.read npes (dest.size + world)

/-- On the host, where the index wraps around. -/
def translatePe (asserts : Bool) (npes : ℕ) (src : Team) (srcPe : ℤ) (dest : Team) : Option ℤ :=
  translateAt asserts npes src srcPe (srcPe.tmod src.size) dest

/-- On the device. -/
def Device.translatePe (asserts : Bool) (npes : ℕ) (src : Team) (srcPe : ℤ) (dest : Team) :
    Option ℤ :=
  translateAt asserts npes src srcPe srcPe dest

/-- The PE of the index has the result as its index, or it has none and the result is -1. -/
structure Translates (asserts : Bool) (npes : ℕ) (src : Team) (srcPe : ℤ) (dest : Team) :
    Prop where
  agree : Device.translatePe asserts npes src srcPe dest = translatePe asserts npes src srcPe dest
  found : ∀ p i, src.pe? srcPe = some p → dest.pe? i = some p →
    translatePe asserts npes src srcPe dest = some i ∧
      translatePe asserts npes dest i src = some srcPe
  absent : (∀ p, src.pe? srcPe = some p → ∀ i, dest.pe? i ≠ some p) →
    translatePe asserts npes src srcPe dest = some (-1)

/-- The index is not negative, and the assertions hold. Where it is the size of the team, the first
PE is not in the other team, and neither is the one that has the index of PE 0. -/
structure Translatable (asserts : Bool) (src : Team) (srcPe : ℤ) (dest : Team) : Prop where
  nonneg : 0 ≤ srcPe
  inside : ∀ p, src.pe? srcPe = some p → asserts = true →
    src.start ≤ p ∧ ∀ i, dest.pe? i = some p → dest.start ≤ p
  size : srcPe = src.size → (asserts = true → src.start ≤ src.peMapping 0) ∧
    (∀ i, dest.pe? i ≠ some (src.peMapping 0)) ∧
    ∃ r, src.pe? r = some 0 ∧ (asserts = true → src.start ≤ r) ∧ ∀ i, dest.pe? i ≠ some r

variable {asserts : Bool} {src dest : Team} {index : ℤ}

theorem translateAt_eq (hle : p ≤ src.size) (hread : src.read npes index = some q) (hq : q < npes) :
    translateAt asserts npes src p index dest =
      if asserts = true ∧ ¬ src.start ≤ q then none else dest.read npes (dest.size + q) := by
  rw [translateAt, if_neg (not_lt.mpr hle), hread, bind_some]
  simp only [hq, and_true]

variable (hs : src.Built npes)
include hs

theorem translatePe_inside (hp : src.pe? i = some p) :
    translatePe asserts npes src i dest = Device.translatePe asserts npes src i dest ∧
      translatePe asserts npes src i dest = if asserts = true ∧ ¬ src.start ≤ p then none
        else some (dest.peMapping (dest.size + p)) := by
  obtain ⟨hi, rfl⟩ := pe?_eq_some.mp hp
  have hread : src.read npes i = some (src.peMapping i) := read_of_lt ⟨hi.1, by omega⟩
  rw [translatePe, Device.translatePe, Int.tmod_eq_of_lt hi.1 hi.2,
    translateAt_eq hi.2.le hread (hs.bounds hp).2, read_index (hs.bounds hp)]
  exact ⟨rfl, rfl⟩

theorem translatePe_size : translatePe asserts npes src src.size dest =
    if asserts = true ∧ ¬ src.start ≤ src.peMapping 0 then none
    else some (dest.peMapping (dest.size + src.peMapping 0)) := by
  have hp : src.pe? 0 = some (src.peMapping 0) :=
    pe?_eq_some.mpr ⟨⟨le_rfl, Int.natCast_pos.mpr hs.size_pos⟩, rfl⟩
  have hread : src.read npes 0 = some (src.peMapping 0) := read_of_lt ⟨le_rfl, by
    have := hs.size_pos
    omega⟩
  rw [translatePe, Int.tmod_self, translateAt_eq le_rfl hread (hs.bounds hp).2,
    read_index (hs.bounds hp)]

variable (hd : dest.Built npes)
include hd

theorem device_translatePe_size : Device.translatePe asserts npes src src.size dest = some (-1) ↔
    ∃ r, src.pe? r = some 0 ∧ (asserts = true → src.start ≤ r) ∧ ∀ i, dest.pe? i ≠ some r := by
  have hpos := hs.size_pos
  have hle := hs.size_le
  have hread : src.read npes src.size = some (src.peMapping (src.size + 0)) := by
    rw [read_of_lt ⟨by omega, by omega⟩, add_zero]
  by_cases hzero : ∃ r, src.pe? r = some 0
  · obtain ⟨r, hr⟩ := hzero
    have hlt := (pe?_eq_some.mp hr).1
    rw [hs.index hr] at hread
    rw [Device.translatePe, translateAt_eq le_rfl hread (by omega), read_index (by omega)]
    constructor
    · intro h
      split_ifs at h with hassert
      refine ⟨r, hr, fun ha => not_not.mp fun hlt => hassert ⟨ha, hlt⟩, ?_⟩
      exact (hd.index_eq_neg_one (by omega)).mp (some.inj h)
    · rintro ⟨r', hr', hstart, hno⟩
      obtain rfl := hs.inj hr hr'
      rw [if_neg fun h => h.2 (hstart h.1), (hd.index_eq_neg_one (by omega)).mpr hno]
  · rw [hs.absent le_rfl fun r hr => hzero ⟨r, hr⟩] at hread
    rw [Device.translatePe, translateAt_eq le_rfl hread (by omega)]
    have hlast := hd.size_pos
    have hp : dest.pe? (dest.size + -1) = some (dest.peMapping (dest.size + -1)) :=
      pe?_eq_some.mpr ⟨by omega, rfl⟩
    have hb := hd.bounds hp
    refine iff_of_false (fun h => ?_) fun ⟨r, hr, _⟩ => hzero ⟨r, hr⟩
    split_ifs at h
    rw [read_of_lt ⟨by omega, by omega⟩] at h
    have := some.inj h
    omega

theorem translatePe_size_eq_neg_one : translatePe asserts npes src src.size dest = some (-1) ↔
    (asserts = true → src.start ≤ src.peMapping 0) ∧
      ∀ i, dest.pe? i ≠ some (src.peMapping 0) := by
  have hp : src.pe? 0 = some (src.peMapping 0) :=
    pe?_eq_some.mpr ⟨⟨le_rfl, Int.natCast_pos.mpr hs.size_pos⟩, rfl⟩
  rw [translatePe_size hs, ← hd.index_eq_neg_one (hs.bounds hp).1]
  split_ifs with h
  · exact iff_of_false (fun heq => by cases heq) fun hand => h.2 (hand.1 h.1)
  · rw [some.injEq]
    exact (and_iff_right fun ha => not_not.mp fun hlt => h ⟨ha, hlt⟩).symm

/-- An index is translated as it should be if and only if it is not negative and, where it is the
size of the team, nothing is found by accident. -/
theorem translates_iff (p : ℤ) :
    Translates asserts npes src p dest ↔ Translatable asserts src p dest := by
  have hnone : p < 0 ∨ src.size ≤ p → src.pe? p = none := fun h => if_neg (by omega)
  constructor
  · intro h
    refine ⟨?_, ?_, ?_⟩
    · by_contra hneg
      have hhost := h.absent fun w hw => by
        rw [hnone (.inl (not_le.mp hneg))] at hw
        cases hw
      rw [← h.agree, Device.translatePe, translateAt, if_neg (by omega), read,
        if_neg fun hand => hneg hand.1] at hhost
      cases hhost
    · intro w hw ha
      have hhost : translatePe asserts npes src p dest = _ := (translatePe_inside hs hw).2
      have hstart : translatePe asserts npes src p dest ≠ none → src.start ≤ w := fun hne =>
        not_not.mp fun hlt => hne (hhost.trans (if_pos ⟨ha, hlt⟩))
      by_cases hfound : ∃ i, dest.pe? i = some w
      · obtain ⟨i, hi⟩ := hfound
        obtain ⟨hto, hback⟩ := h.found w i hw hi
        refine ⟨hstart (hto ▸ some_ne_none i), fun j hj => not_not.mp fun hlt => ?_⟩
        rw [(translatePe_inside hd hi).2, if_pos ⟨ha, hlt⟩] at hback
        cases hback
      · refine ⟨hstart ?_, fun i hi => absurd ⟨i, hi⟩ hfound⟩
        rw [h.absent fun w' hw' i hi => hfound ⟨i, ?_⟩]
        · exact some_ne_none _
        · rwa [some.inj (hw.symm.trans hw')]
    · rintro rfl
      have hhost := h.absent fun w hw => by
        rw [hnone (.inr le_rfl)] at hw
        cases hw
      have hdevice := (device_translatePe_size hs hd).mp (h.agree.trans hhost)
      obtain ⟨hstart, hno⟩ := (translatePe_size_eq_neg_one hs hd).mp hhost
      exact ⟨hstart, hno, hdevice⟩
  · intro h
    have hout : src.size ≤ p → translatePe asserts npes src p dest = some (-1) ∧
        Device.translatePe asserts npes src p dest = some (-1) := by
      intro hle
      rcases hle.eq_or_lt with heq | hlt
      · obtain ⟨hstart, hno, hdevice⟩ := h.size heq.symm
        rw [← heq]
        exact ⟨(translatePe_size_eq_neg_one hs hd).mpr ⟨hstart, hno⟩,
          (device_translatePe_size hs hd).mpr hdevice⟩
      · exact ⟨if_pos hlt, if_pos hlt⟩
    have hin : p < src.size → ∃ w, src.pe? p = some w := fun hlt => ⟨_, if_pos ⟨h.nonneg, hlt⟩⟩
    have heq : ∀ w, src.pe? p = some w → translatePe asserts npes src p dest =
        some (dest.peMapping (dest.size + w)) := fun w hw =>
      (translatePe_inside hs hw).2.trans (if_neg fun hand => hand.2 (h.inside w hw hand.1).1)
    refine ⟨?_, ?_, ?_⟩
    · rcases lt_or_ge p src.size with hlt | hle
      · obtain ⟨w, hw⟩ := hin hlt
        exact (translatePe_inside hs hw).1.symm
      · exact (hout hle).2.trans (hout hle).1.symm
    · intro w i hw hi
      refine ⟨by rw [heq w hw, hd.index hi], ?_⟩
      rw [(translatePe_inside hd hi).2, hs.index hw]
      exact if_neg fun hand => hand.2 ((h.inside w hw hand.1).2 i hi)
    · intro hno
      rcases lt_or_ge p src.size with hlt | hle
      · obtain ⟨w, hw⟩ := hin hlt
        rw [heq w hw, hd.absent (hs.bounds hw).1 (hno w hw)]
      · exact (hout hle).1

end Translate

/-- `nvshmemi_team_get_stride`. For one PE, the entry behind it is the index of PE 0. -/
def getStride (size : ℕ) (peMapping : ℤ → ℤ) : ℤ :=
  let stride := peMapping 1 - peMapping 0
  if ∀ i < size, 2 ≤ i → peMapping i - peMapping (i - 1) = stride then stride else -1

inductive Live (npes : ℕ) (t : Team) : Prop
  /-- The predefined teams, those of a strided split and the internal ones with a stride. -/
  | strided : t.Built npes → (∀ i < t.size, t.peMapping i = t.start + i * t.stride) → Live npes t
  /-- `nvshmemi_team_create` and the split of a team without a stride. -/
  | listed : t.Built npes → t.start = -1 → t.stride = getStride t.size t.peMapping → Live npes t
  /-- The internal teams without a stride. -/
  | overlap : t.Built npes → t.start = t.peMapping 0 → t.stride = getStride t.size t.peMapping →
    Live npes t

/-- `nvshmemi_team_is_identical` -/
def isIdentical (t u : Team) : Prop :=
  (t.start = u.start ∧ t.size = u.size) ∧
    (0 < t.stride ∧ u.stride = t.stride ∨ ∀ i < t.size, t.peMapping i = u.peMapping i)

instance : Decidable (t.isIdentical u) := inferInstanceAs (Decidable (_ ∧ _))

/-- `nvshmemi_team_get_same_existing_nvls_team`, of the teams with smaller indices. -/
def sameExistingNvlsTeam (supportsNvls : Team → Bool) (t : Team) : List (Option Team) → Option Team
  | some u :: pool =>
    if t.isIdentical u then if supportsNvls u then some u else none
    else sameExistingNvlsTeam supportsNvls t pool
  | none :: pool => sameExistingNvlsTeam supportsNvls t pool
  | [] => none

def SamePes (t u : Team) : Prop := t.size = u.size ∧ ∀ i < t.size, t.peMapping i = u.peMapping i

/-- The teams of a pool that are identical to a team are those with the same PEs, and the team
shares the resources of no other one. -/
structure Identifies (pool : List (Option Team)) (t : Team) : Prop where
  identical : ∀ u, some u ∈ pool → (t.isIdentical u ↔ t.SamePes u)
  shared : ∀ supportsNvls u, t.sameExistingNvlsTeam supportsNvls pool = some u → t.SamePes u

/-- Teams with the same PEs both have a start or both have none, and teams without a start and with
the same stride start with the same PE. -/
structure Comparable (t u : Team) : Prop where
  start : t.SamePes u → (t.start = -1 ↔ u.start = -1)
  first : t.start = -1 → u.start = -1 → t.size = u.size → 0 < t.stride → u.stride = t.stride →
    t.peMapping 0 = u.peMapping 0

namespace Live

variable (h : t.Live npes)
include h

theorem built : t.Built npes := by
  cases h <;> assumption

theorem start_eq : t.start = -1 ∨ t.start = t.peMapping 0 := by
  cases h with
  | strided hb harith => exact .inr (by simpa using (harith 0 hb.size_pos).symm)
  | listed _ hstart => exact .inl hstart
  | overlap _ hstart => exact .inr hstart

theorem peMapping_eq (hpos : 0 < t.stride) {i : ℕ} (hi : i < t.size) :
    t.peMapping i = t.peMapping 0 + i * t.stride := by
  have hgap : t.stride = getStride t.size t.peMapping →
      t.peMapping i = t.peMapping 0 + i * t.stride := by
    intro hstride
    rw [getStride] at hstride
    split_ifs at hstride with hall
    · induction i with
      | zero => simp
      | succ i ih =>
        rcases Nat.eq_zero_or_pos i with rfl | hi'
        · push_cast
          omega
        · have := hall (i + 1) hi (succ_le_succ hi')
          rw [cast_succ, add_sub_cancel_right, ih (lt_of_succ_lt hi), ← hstride] at this
          rw [cast_succ, add_mul]
          omega
    · omega
  cases h with
  | strided hb harith =>
    have h0 := harith 0 hb.size_pos
    rw [cast_zero, zero_mul, add_zero] at h0
    rw [harith i hi, h0]
  | listed _ _ hstride => exact hgap hstride
  | overlap _ _ hstride => exact hgap hstride

theorem isIdentical_iff (hu : u.Live npes) :
    (t.isIdentical u ↔ t.SamePes u) ↔ t.Comparable u := by
  have hpos := h.built.size_pos
  constructor
  · refine fun hiff => ⟨fun hsame => by rw [(hiff.mpr hsame).1.1], ?_⟩
    intro ht hu hsize hstride heq
    exact (hiff.mp ⟨⟨ht.trans hu.symm, hsize⟩, .inl ⟨hstride, heq⟩⟩).2 0 hpos
  · rintro ⟨hstart, hfirst⟩
    constructor
    · rintro ⟨⟨heq, hsize⟩, ⟨hstride, hstride'⟩ | hall⟩
      · have h0 : t.peMapping 0 = u.peMapping 0 := by
          rcases h.start_eq with ht | ht
          · exact hfirst ht (heq ▸ ht) hsize hstride hstride'
          · rcases hu.start_eq with hu' | hu'
            · exact hfirst (heq.trans hu') hu' hsize hstride hstride'
            · rw [← ht, ← hu', heq]
        refine ⟨hsize, fun i hi => ?_⟩
        rw [h.peMapping_eq hstride hi, hu.peMapping_eq (hstride' ▸ hstride) (hsize ▸ hi), h0,
          hstride']
      · exact ⟨hsize, hall⟩
    · intro hsame
      refine ⟨⟨?_, hsame.1⟩, .inr hsame.2⟩
      rcases h.start_eq with ht | ht
      · rw [ht, (hstart hsame).mp ht]
      · rcases hu.start_eq with hu' | hu'
        · rw [hu', (hstart hsame).mpr hu']
        · rw [ht, hu']
          exact hsame.2 0 hpos

end Live

theorem exists_of_sameExistingNvlsTeam {supportsNvls : Team → Bool} {pool : List (Option Team)}
    (h : t.sameExistingNvlsTeam supportsNvls pool = some u) : some u ∈ pool ∧ t.isIdentical u := by
  induction pool with
  | nil => cases h
  | cons v pool ih =>
    cases v with
    | none =>
      obtain ⟨hmem, hid⟩ := ih h
      exact ⟨mem_cons_of_mem _ hmem, hid⟩
    | some v =>
      rw [sameExistingNvlsTeam] at h
      split_ifs at h with hid
      · cases h
        exact ⟨mem_cons_self, hid⟩
      · obtain ⟨hmem, hid⟩ := ih h
        exact ⟨mem_cons_of_mem _ hmem, hid⟩

/-- The team of a list of PEs as `nvshmemi_team_create` leaves it. -/
def ofList (npes : ℕ) (pes : List ℕ) (stride myPe : ℤ) : Team where
  myPe := myPe
  start := -1
  stride := stride
  size := pes.length
  peMapping := (populate npes pes.length (fun i => pes.getD i 0) pes.length).getD fun _ => -1

def firstTwo : Team := ofList 4 [0, 1] 1 0

def lastTwo : Team := ofList 4 [2, 3] 1 0

theorem live_firstTwo : firstTwo.Live 4 :=
  .listed ⟨by decide, by decide, fun i => [0, 1].getD i 0, by decide, by decide, rfl⟩ rfl
    (by decide)

theorem live_lastTwo : lastTwo.Live 4 :=
  .listed ⟨by decide, by decide, fun i => [2, 3].getD i 0, by decide, by decide, rfl⟩ rfl
    (by decide)

theorem translates_firstTwo : Translates true 4 firstTwo 1 firstTwo := by
  have hb := live_firstTwo.built
  refine (translates_iff hb hb 1).mpr ⟨by decide, fun p hp _ => ?_, fun heq => ?_⟩
  · have hstart : firstTwo.start ≤ p := (by decide : (-1 : ℤ) ≤ 0).trans (hb.bounds hp).1
    exact ⟨hstart, fun _ _ => hstart⟩
  · exact absurd heq (by decide)

/-- The index behind the last one is translated to that of the first PE. -/
theorem not_translates_firstTwo : ¬ Translates false 4 firstTwo 2 firstTwo := by
  intro h
  have hno := h.absent fun p hp => by
    cases hp
  exact absurd hno (by decide)

end Team

end Nvshmem.PeMapping
