import Mathlib

/-! # Ordered maps

A finite map kept as a list of entries with strictly increasing keys, so that
iteration visits the keys in order and two maps with the same lookups are equal.
-/

structure OrdMap (κ α : Type*) [LT κ] where
  entries : List (κ × α)
  sorted : entries.Pairwise fun e e' => e.1 < e'.1
  deriving DecidableEq

namespace OrdMap

open List Function

variable {κ α : Type*} [LinearOrder κ]

def empty : OrdMap κ α := ⟨[], .nil⟩

def get? (m : OrdMap κ α) (k : κ) : Option α := (m.entries.find? (·.1 = k)).map Prod.snd

def insertEntry (k : κ) (a : α) : List (κ × α) → List (κ × α)
  | [] => [(k, a)]
  | e :: es =>
    if k < e.1 then (k, a) :: e :: es
    else if e.1 < k then e :: insertEntry k a es
    else (k, a) :: es

theorem mem_insertEntry {k : κ} {a : α} {es : List (κ × α)}
    (hs : es.Pairwise fun e e' => e.1 < e'.1) {e : κ × α} :
    e ∈ insertEntry k a es ↔ e = (k, a) ∨ e.1 ≠ k ∧ e ∈ es := by
  induction es with
  | nil => simp [insertEntry]
  | cons d es ih =>
    obtain ⟨hd, hs⟩ := pairwise_cons.mp hs
    unfold insertEntry
    split_ifs with h₁ h₂
    · have hk : ∀ e ∈ d :: es, e.1 ≠ k := by
        intro e he
        rcases mem_cons.mp he with rfl | he
        · exact h₁.ne'
        · exact (h₁.trans (hd e he)).ne'
      rw [mem_cons]
      exact or_congr Iff.rfl ⟨fun he => ⟨hk e he, he⟩, And.right⟩
    · rw [mem_cons, ih hs, mem_cons]
      constructor
      · rintro (rfl | rfl | ⟨hk, he⟩)
        · exact .inr ⟨h₂.ne, .inl rfl⟩
        · exact .inl rfl
        · exact .inr ⟨hk, .inr he⟩
      · rintro (rfl | ⟨hk, rfl | he⟩)
        · exact .inr (.inl rfl)
        · exact .inl rfl
        · exact .inr (.inr ⟨hk, he⟩)
    · obtain rfl : d.1 = k := le_antisymm (not_lt.mp h₁) (not_lt.mp h₂)
      rw [mem_cons, mem_cons]
      constructor
      · rintro (rfl | he)
        · exact .inl rfl
        · exact .inr ⟨(hd e he).ne', .inr he⟩
      · rintro (rfl | ⟨hk, rfl | he⟩)
        · exact .inl rfl
        · exact absurd rfl hk
        · exact .inr he

theorem pairwise_insertEntry {k : κ} {a : α} {es : List (κ × α)}
    (hs : es.Pairwise fun e e' => e.1 < e'.1) :
    (insertEntry k a es).Pairwise fun e e' => e.1 < e'.1 := by
  induction es with
  | nil => simp [insertEntry]
  | cons d es ih =>
    obtain ⟨hd, hs'⟩ := pairwise_cons.mp hs
    unfold insertEntry
    split_ifs with h₁ h₂
    · refine pairwise_cons.mpr ⟨fun e he => ?_, hs⟩
      rcases mem_cons.mp he with rfl | he
      · exact h₁
      · exact h₁.trans (hd e he)
    · refine pairwise_cons.mpr ⟨fun e he => ?_, ih hs'⟩
      rcases (mem_insertEntry hs').mp he with rfl | ⟨-, he⟩
      · exact h₂
      · exact hd e he
    · obtain rfl : d.1 = k := le_antisymm (not_lt.mp h₁) (not_lt.mp h₂)
      exact pairwise_cons.mpr ⟨hd, hs'⟩

def insert (m : OrdMap κ α) (k : κ) (a : α) : OrdMap κ α :=
  ⟨insertEntry k a m.entries, pairwise_insertEntry m.sorted⟩

def erase (m : OrdMap κ α) (k : κ) : OrdMap κ α :=
  ⟨m.entries.filter (·.1 ≠ k), m.sorted.filter _⟩

def first? (m : OrdMap κ α) (p : κ → α → Bool) : Option (κ × α) :=
  m.entries.find? fun e => p e.1 e.2

variable {m : OrdMap κ α} {k k' : κ} {a b : α}

theorem eq_of_mem {e e' : κ × α} (he : e ∈ m.entries) (he' : e' ∈ m.entries)
    (h : e.1 = e'.1) : e = e' := by
  have : Std.Symm fun e e' : κ × α => e.1 ≠ e'.1 := ⟨fun _ _ h => h.symm⟩
  by_contra hne
  exact (m.sorted.imp ne_of_lt).forall he he' hne h

theorem get?_eq_some : m.get? k = some a ↔ (k, a) ∈ m.entries := by
  simp only [get?, Option.map_eq_some_iff]
  constructor
  · rintro ⟨⟨k', a'⟩, h, rfl⟩
    obtain rfl : k' = k := by simpa using find?_some h
    exact mem_of_find?_eq_some h
  · intro h
    cases hf : m.entries.find? (·.1 = k) with
    | none => simpa using find?_eq_none.mp hf _ h
    | some e =>
      have he : e.1 = k := by simpa using find?_some hf
      rw [eq_of_mem (mem_of_find?_eq_some hf) h he]
      exact ⟨_, rfl, rfl⟩

theorem ext_get? {m m' : OrdMap κ α} (h : ∀ k, m.get? k = m'.get? k) : m = m' := by
  have hm : ∀ e, e ∈ m.entries ↔ e ∈ m'.entries := by
    rintro ⟨k, a⟩
    rw [← get?_eq_some, ← get?_eq_some, h]
  have hp : m.entries.Perm m'.entries :=
    (perm_ext_iff_of_nodup (m.sorted.imp fun h => ne_of_apply_ne Prod.fst h.ne)
      (m'.sorted.imp fun h => ne_of_apply_ne Prod.fst h.ne)).mpr hm
  have : m.entries = m'.entries :=
    hp.eq_of_pairwise (fun _ _ _ _ h h' => absurd h h'.not_gt) m.sorted m'.sorted
  cases m
  cases m'
  congr

@[simp] theorem get?_empty : (empty : OrdMap κ α).get? k = none := rfl

theorem get?_insert : (m.insert k a).get? k' = if k' = k then some a else m.get? k' := by
  ext b
  rw [get?_eq_some, insert, mem_insertEntry m.sorted]
  split_ifs with h
  · simp [h, eq_comm]
  · simp [h, get?_eq_some]

theorem get?_erase : (m.erase k).get? k' = if k' = k then none else m.get? k' := by
  ext b
  rw [get?_eq_some, erase, mem_filter]
  split_ifs with h
  · simp [h]
  · simp [h, get?_eq_some]

@[simp] theorem get?_insert_self : (m.insert k a).get? k = some a := by simp [get?_insert]

@[simp] theorem get?_erase_self : (m.erase k).get? k = none := by simp [get?_erase]

theorem get?_of_first? {p : κ → α → Bool} (h : m.first? p = some (k, a)) :
    m.get? k = some a ∧ p k a :=
  ⟨get?_eq_some.mpr (mem_of_find?_eq_some h), by simpa using find?_some h⟩

theorem first?_eq_none {p : κ → α → Bool} :
    m.first? p = none ↔ ∀ k a, m.get? k = some a → ¬ p k a := by
  simp [first?, find?_eq_none, get?_eq_some]

theorem le_of_first? {p : κ → α → Bool} (h : m.first? p = some (k, a)) (hk : m.get? k' = some b)
    (hp : p k' b) : k ≤ k' := by
  obtain ⟨-, as, bs, hes, has⟩ := find?_eq_some_iff_append.mp h
  have hmem := get?_eq_some.mp hk
  have hsorted := m.sorted
  rw [hes] at hmem hsorted
  rcases mem_append.mp hmem with hmem | hmem
  · simpa [hp] using has _ hmem
  · rcases mem_cons.mp hmem with heq | hmem
    · exact (congrArg Prod.fst heq).ge
    · exact ((pairwise_cons.mp (pairwise_append.mp hsorted).2.1).1 _ hmem).le

section Total

variable {m : OrdMap κ ℕ} {n : ℕ}

def total (m : OrdMap κ ℕ) : ℕ := (m.entries.map Prod.snd).sum

theorem sum_insertEntry {es : List (κ × ℕ)} (h : ∀ e ∈ es, e.1 ≠ k) :
    ((insertEntry k n es).map Prod.snd).sum = (es.map Prod.snd).sum + n := by
  induction es with
  | nil => simp [insertEntry]
  | cons d es ih =>
    have hd : d.1 ≠ k := h d mem_cons_self
    unfold insertEntry
    split_ifs with h₁ h₂
    · simp only [map_cons, sum_cons]
      omega
    · simp only [map_cons, sum_cons, ih fun e he => h e (mem_cons_of_mem _ he)]
      omega
    · exact absurd (le_antisymm (not_lt.mp h₁) (not_lt.mp h₂)) hd

theorem total_insert_of_none (h : m.get? k = none) : (m.insert k n).total = m.total + n := by
  refine sum_insertEntry fun e he hk => ?_
  rw [get?_eq_some.mpr (show (k, e.2) ∈ m.entries from hk ▸ he)] at h
  cases h

theorem insert_erase : (m.erase k).insert k n = m.insert k n := by
  refine ext_get? fun k' => ?_
  simp only [get?_insert, get?_erase]
  split_ifs <;> rfl

theorem erase_of_none (h : m.get? k = none) : m.erase k = m := by
  refine ext_get? fun k' => ?_
  rw [get?_erase]
  split_ifs with hk
  · rw [hk, h]
  · rfl

theorem insert_of_some (h : m.get? k = some n) : m.insert k n = m := by
  refine ext_get? fun k' => ?_
  rw [get?_insert]
  split_ifs with hk
  · rw [hk, h]
  · rfl

theorem total_erase : (m.erase k).total + (m.get? k).getD 0 = m.total := by
  cases h : m.get? k with
  | none => rw [erase_of_none h, Option.getD_none, add_zero]
  | some n =>
    rw [Option.getD_some, ← total_insert_of_none get?_erase_self, insert_erase, insert_of_some h]

theorem total_insert : (m.insert k n).total + (m.get? k).getD 0 = m.total + n := by
  rw [← insert_erase, total_insert_of_none get?_erase_self, ← total_erase (m := m) (k := k)]
  omega

end Total

section Shift

variable {m : OrdMap ℕ α} {k d : ℕ}

def shift (m : OrdMap ℕ α) (d : ℕ) : OrdMap ℕ α :=
  ⟨m.entries.map fun e => (e.1 + d, e.2),
    pairwise_map.mpr (m.sorted.imp fun h => Nat.add_lt_add_right h d)⟩

theorem insertEntry_shift (es : List (ℕ × α)) :
    insertEntry (k + d) a (es.map fun e => (e.1 + d, e.2)) =
      (insertEntry k a es).map fun e => (e.1 + d, e.2) := by
  induction es with
  | nil => rfl
  | cons e es ih =>
    simp only [map_cons, insertEntry, Nat.add_lt_add_iff_right, ih]
    split_ifs <;> rfl

@[simp] theorem get?_shift : (m.shift d).get? (k + d) = m.get? k := by
  simp [get?, shift, find?_map, comp_def]

theorem le_of_get?_shift (h : (m.shift d).get? k = some a) : d ≤ k := by
  obtain ⟨e, -, he⟩ := mem_map.mp (get?_eq_some.mp h)
  exact (Prod.mk.inj he).1 ▸ Nat.le_add_left d e.1

theorem shift_insert : (m.shift d).insert (k + d) a = (m.insert k a).shift d := by
  simp only [insert, shift, insertEntry_shift]

theorem shift_erase : (m.shift d).erase (k + d) = (m.erase k).shift d := by
  simp only [erase, shift, filter_map, comp_def, ne_eq, Nat.add_right_cancel_iff]

theorem first?_shift (p : α → Bool) :
    (m.shift d).first? (fun _ => p) = (m.first? fun _ => p).map fun e => (e.1 + d, e.2) := by
  simp only [first?, shift, find?_map, comp_def]

end Shift

end OrdMap
