import Mathlib

/-! # Maximal runs of a set of naturals

A run is a maximal nonempty interval contained in a set. Distinct runs neither
meet nor touch, and runs change locally when an interval is added to the set or
the front of a run is removed from it.
-/

namespace Intervals

open Set

variable {F : Set ℕ} {s t n m b c x : ℕ}

/-- The interval `[s, s + n)` is nonempty, contained in the set and maximal. -/
structure IsRun (F : Set ℕ) (s n : ℕ) : Prop where
  pos : 0 < n
  subset : ∀ x, s ≤ x → x < s + n → x ∈ F
  stop : s + n ∉ F
  start : ∀ x, x + 1 = s → x ∉ F

theorem IsRun.start_le (h : IsRun F s n) (hF : ∀ y, x ≤ y → y < s → y ∈ F) : s ≤ x := by
  by_contra hlt
  exact h.start (s - 1) (by omega) (hF _ (by omega) (by omega))

theorem IsRun.le_stop (h : IsRun F s n) (hF : ∀ y, s + n ≤ y → y < x → y ∈ F) :
    x ≤ s + n := by
  by_contra hlt
  exact h.stop (hF _ le_rfl (by omega))

theorem IsRun.eq_of_mem (h : IsRun F s n) (h' : IsRun F t m)
    (hs : s ≤ x) (hn : x < s + n) (ht : t ≤ x) (hm : x < t + m) : s = t ∧ n = m := by
  have h₁ : s ≤ t := h.start_le fun y hy hy' => h'.subset y hy (by omega)
  have h₂ : t ≤ s := h'.start_le fun y hy hy' => h.subset y hy (by omega)
  have h₃ : t + m ≤ s + n := h.le_stop fun y hy hy' => h'.subset y (by omega) hy'
  have h₄ : s + n ≤ t + m := h'.le_stop fun y hy hy' => h.subset y (by omega) hy'
  omega

theorem IsRun.length_unique (h : IsRun F s n) (h' : IsRun F s m) : n = m :=
  (h.eq_of_mem h' le_rfl (by have := h.pos; omega) le_rfl (by have := h'.pos; omega)).2

theorem IsRun.stop_unique (h : IsRun F s n) (h' : IsRun F t m) (he : s + n = t + m) :
    s = t ∧ n = m := by
  have := h.pos
  have := h'.pos
  exact h.eq_of_mem h' (x := s + n - 1) (by omega) (by omega) (by omega) (by omega)

theorem IsRun.not_adjacent (h : IsRun F s n) : ¬ IsRun F (s + n) m := fun h' =>
  h.stop (h'.subset _ le_rfl (by have := h'.pos; omega))

theorem IsRun.disjoint (h : IsRun F s n) (h' : IsRun F t m) (hne : s ≠ t) :
    s + n ≤ t ∨ t + m ≤ s := by
  have hn := h.pos
  have hm := h'.pos
  by_contra hov
  exact hne (h.eq_of_mem h' (x := max s t) (by omega) (by omega) (by omega) (by omega)).1

theorem exists_isRun (hF : F.Finite) (hx : x ∈ F) :
    ∃ s n, IsRun F s n ∧ s ≤ x ∧ x < s + n := by
  classical
  obtain ⟨B, hB⟩ := hF.bddAbove
  have hstop : ∃ e, x ≤ e ∧ e ∉ F := by
    refine ⟨max x (B + 1), le_max_left _ _, fun h => ?_⟩
    have := hB h
    omega
  have hstart : ∃ s, s ≤ x ∧ ∀ y, s ≤ y → y ≤ x → y ∈ F :=
    ⟨x, le_rfl, fun y h₁ h₂ => le_antisymm h₂ h₁ ▸ hx⟩
  obtain ⟨he, heF⟩ := Nat.find_spec hstop
  obtain ⟨hs, hsF⟩ := Nat.find_spec hstart
  have he_min := fun y => Nat.find_min hstop (m := y)
  have hs_min := fun y => Nat.find_min hstart (m := y)
  generalize Nat.find hstop = e at *
  generalize Nat.find hstart = s at *
  have hne : x ≠ e := fun h => heF (h ▸ hx)
  refine ⟨s, e - s, ⟨by omega, fun y h₁ h₂ => ?_, ?_, fun y hy hyF => ?_⟩, hs, by omega⟩
  · rcases le_total x y with h | h
    · by_contra hy
      exact he_min y (by omega) ⟨h, hy⟩
    · exact hsF y h₁ h
  · rwa [show s + (e - s) = e by omega]
  · refine hs_min y (by omega) ⟨by omega, fun z h₁ h₂ => ?_⟩
    rcases eq_or_ne z y with rfl | hz
    · exact hyF
    · exact hsF z (by omega) h₂

theorem isRun_iff_of_cover {P : ℕ → ℕ → Prop} (hP : ∀ t m, P t m → IsRun F t m)
    (hcover : ∀ x ∈ F, ∃ t m, P t m ∧ t ≤ x ∧ x < t + m) : IsRun F t m ↔ P t m := by
  refine ⟨fun h => ?_, hP t m⟩
  have htm : t < t + m := by have := h.pos; omega
  obtain ⟨t', m', hP', ht, hm⟩ := hcover t (h.subset t le_rfl htm)
  obtain ⟨rfl, rfl⟩ := h.eq_of_mem (hP _ _ hP') le_rfl htm ht hm
  exact hP'

theorem isRun_diff_front (hF : F.Finite) (h : IsRun F s n) (hc : 0 < c) (hcn : c ≤ n) :
    IsRun (F \ Ico s (s + c)) t m ↔
      IsRun F t m ∧ t ≠ s ∨ c < n ∧ t = s + c ∧ m = n - c := by
  refine isRun_iff_of_cover (P := fun t m => IsRun F t m ∧ t ≠ s ∨ c < n ∧ t = s + c ∧ m = n - c)
    ?_ ?_
  · rintro t m (⟨h', hne⟩ | ⟨hlt, rfl, rfl⟩)
    · have hd := h'.disjoint h hne
      refine ⟨h'.pos, fun y h₁ h₂ => ⟨h'.subset y h₁ h₂, fun hy => ?_⟩,
        fun hF => h'.stop hF.1, fun y hy hF => h'.start y hy hF.1⟩
      simp only [mem_Ico] at hy
      omega
    · refine ⟨by omega, fun y h₁ h₂ => ⟨h.subset y (by omega) (by omega), fun hy => ?_⟩,
        fun hF => h.stop ?_, fun y hy hF => hF.2 ?_⟩
      · simp only [mem_Ico] at hy
        omega
      · rw [show s + n = s + c + (n - c) by omega]
        exact hF.1
      · simp only [mem_Ico]
        omega
  · rintro x ⟨hx, hxc⟩
    obtain ⟨t, m, h', ht, hm⟩ := exists_isRun hF hx
    by_cases hne : t = s
    · subst hne
      obtain rfl := h.length_unique h'
      simp only [mem_Ico, not_and, not_lt] at hxc
      exact ⟨t + c, n - c, .inr ⟨by omega, rfl, rfl⟩, hxc ht, by omega⟩
    · exact ⟨t, m, .inl ⟨h', hne⟩, ht, hm⟩

theorem notMem_of_forall_stop (hF : F.Finite) (hb : b ∉ F)
    (h : ∀ s n, IsRun F s n → s + n ≠ b) (hx : x + 1 = b) : x ∉ F := by
  intro hxF
  obtain ⟨s, n, hr, hs, hn⟩ := exists_isRun hF hxF
  refine hb (hr.subset b (by omega) ?_)
  have := h s n hr
  omega

theorem notMem_of_forall_start (hF : F.Finite) (hb : ∀ x, x + 1 = b → x ∉ F)
    (h : ∀ n, ¬ IsRun F b n) : b ∉ F := by
  intro hbF
  obtain ⟨s, n, hr, hs, hn⟩ := exists_isRun hF hbF
  rcases eq_or_lt_of_le hs with rfl | hlt
  · exact h n hr
  · exact hb (b - 1) (by omega) (hr.subset _ (by omega) (by omega))

/-- The run that stops at `b` has length `p`, and `p = 0` when there is none. -/
def StopsAt (F : Set ℕ) (b p : ℕ) : Prop :=
  p = 0 ∧ (∀ x, x + 1 = b → x ∉ F) ∨ p ≤ b ∧ IsRun F (b - p) p

/-- The run that starts at `e` has length `q`, and `q = 0` when there is none. -/
def StartsAt (F : Set ℕ) (e q : ℕ) : Prop := q = 0 ∧ e ∉ F ∨ IsRun F e q

theorem StopsAt.eq_of_isRun (h : StopsAt F b n) (hr : IsRun F t m) (ht : t + m = b) :
    t = b - n ∧ m = n := by
  have hm := hr.pos
  rcases h with ⟨-, h⟩ | ⟨hn, h⟩
  · exact absurd (hr.subset (b - 1) (by omega) (by omega)) (h _ (by omega))
  · exact hr.stop_unique h (by omega)

theorem StartsAt.eq_of_isRun (h : StartsAt F b n) (hr : IsRun F b m) : m = n := by
  rcases h with ⟨-, h⟩ | h
  · exact absurd (hr.subset b le_rfl (by have := hr.pos; omega)) h
  · exact hr.length_unique h

theorem isRun_union_Ico {p q : ℕ} (hF : F.Finite) (hd : ∀ x ∈ F, x ∉ Ico b (b + c))
    (hc : 0 < c) (hp : StopsAt F b p) (hq : StartsAt F (b + c) q) :
    IsRun (F ∪ Ico b (b + c)) t m ↔
      t = b - p ∧ m = p + c + q ∨ IsRun F t m ∧ t + m ≠ b ∧ t ≠ b + c := by
  have hpb : p ≤ b := by rcases hp with ⟨rfl, -⟩ | ⟨h, -⟩ <;> omega
  have hleft : ∀ y, b - p ≤ y → y < b → y ∈ F := fun y h₁ h₂ => by
    rcases hp with ⟨rfl, -⟩ | ⟨-, h⟩
    · omega
    · exact h.subset y h₁ (by omega)
  have hright : ∀ y, b + c ≤ y → y < b + c + q → y ∈ F := fun y h₁ h₂ => by
    rcases hq with ⟨rfl, -⟩ | h
    · omega
    · exact h.subset y h₁ h₂
  refine isRun_iff_of_cover
    (P := fun t m => t = b - p ∧ m = p + c + q ∨ IsRun F t m ∧ t + m ≠ b ∧ t ≠ b + c) ?_ ?_
  · rintro t m (⟨rfl, rfl⟩ | ⟨h, h₁, h₂⟩)
    · refine ⟨by omega, fun y h₁ h₂ => ?_, ?_, fun y hy => ?_⟩
      · rcases Nat.lt_or_ge y b with h | h
        · exact .inl (hleft y h₁ h)
        · rcases Nat.lt_or_ge y (b + c) with h' | h'
          · exact .inr ⟨h, h'⟩
          · exact .inl (hright y h' (by omega))
      · rw [show b - p + (p + c + q) = b + c + q by omega]
        rintro (hmem | hmem)
        · rcases hq with ⟨rfl, h⟩ | h
          · exact h hmem
          · exact h.stop hmem
        · simp only [mem_Ico] at hmem
          omega
      · rintro (hmem | hmem)
        · rcases hp with ⟨rfl, h⟩ | ⟨-, h⟩
          · exact h y (by omega) hmem
          · exact h.start y hy hmem
        · simp only [mem_Ico] at hmem
          omega
    · have hm := h.pos
      have htb : t + m ≤ b ∨ b + c ≤ t := by
        by_contra hov
        exact hd (max t b) (h.subset _ (by omega) (by omega)) (by simp only [mem_Ico]; omega)
      refine ⟨h.pos, fun y h₁ h₂ => .inl (h.subset y h₁ h₂), ?_, fun y hy => ?_⟩
      · rintro (hmem | hmem)
        · exact h.stop hmem
        · simp only [mem_Ico] at hmem
          omega
      · rintro (hmem | hmem)
        · exact h.start y hy hmem
        · simp only [mem_Ico] at hmem
          omega
  · have hnew : ∀ x, b - p ≤ x → x < b + c + q → ∃ t m,
        (t = b - p ∧ m = p + c + q ∨ IsRun F t m ∧ t + m ≠ b ∧ t ≠ b + c) ∧ t ≤ x ∧ x < t + m :=
      fun x h₁ h₂ => ⟨_, _, .inl ⟨rfl, rfl⟩, h₁, by omega⟩
    rintro x (hx | hx)
    · obtain ⟨t, m, h, ht, hm⟩ := exists_isRun hF hx
      by_cases h₁ : t + m = b
      · obtain ⟨rfl, rfl⟩ := hp.eq_of_isRun h h₁
        exact hnew x ht (by omega)
      · by_cases h₂ : t = b + c
        · subst h₂
          obtain rfl := hq.eq_of_isRun h
          exact hnew x (by omega) hm
        · exact ⟨t, m, .inr ⟨h, h₁, h₂⟩, ht, hm⟩
    · simp only [mem_Ico] at hx
      exact hnew x (by omega) (by omega)

end Intervals
