import Nvshmem.Intervals.Region

/-! # Tilings of an interval

Regions that follow each other without a gap cover an interval, and no two of them overlap.
-/

namespace Intervals

inductive Tiles : ℕ → ℕ → List (ℕ × ℕ) → Prop where
  | nil {start : ℕ} : Tiles start 0 []
  | cons {start n size : ℕ} {rs : List (ℕ × ℕ)} (hn : 0 < n) (h : Tiles (start + n) size rs) :
      Tiles start (n + size) ((start, n) :: rs)

namespace Tiles

variable {start size : ℕ} {rs : List (ℕ × ℕ)}

theorem bounds (h : Tiles start size rs) :
    ∀ r ∈ rs, start ≤ r.1 ∧ 0 < r.2 ∧ r.1 + r.2 ≤ start + size := by
  induction h with
  | nil => exact fun _ hr => absurd hr List.not_mem_nil
  | cons hn _ ih =>
    refine List.forall_mem_cons.mpr ⟨⟨le_rfl, hn, by dsimp only; omega⟩, fun r hr => ?_⟩
    have := ih r hr
    omega

theorem pairwise_apart (h : Tiles start size rs) : rs.Pairwise Apart := by
  induction h with
  | nil => exact .nil
  | cons _ h ih => exact List.pairwise_cons.mpr ⟨fun r hr => .inl (h.bounds r hr).1, ih⟩

theorem covered_eq (h : Tiles start size rs) : covered rs = Set.Ico start (start + size) := by
  induction h with
  | nil => rw [covered_nil, Nat.add_zero, Set.Ico_self]
  | cons hn _ ih =>
    rw [covered_cons, ih, Set.union_comm]
    rw [← Nat.add_assoc]
    exact Set.Ico_union_Ico_eq_Ico (Nat.le_add_right ..) (Nat.le_add_right ..)

end Tiles

end Intervals
