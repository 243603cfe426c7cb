import Nvshmem.Intervals.Run
import Nvshmem.OrderedMap.Basic

/-! # Block stores

A block store is a set of free addresses and a map of live blocks. It is well
formed over a set of managed addresses when the live blocks are nonempty and
disjoint, and free addresses and live blocks partition the managed set.
-/

namespace Intervals

open Set OrdMap

/-- Free addresses and the lengths of the live blocks by their first address. -/
structure Store where
  free : Set ℕ
  live : OrdMap ℕ ℕ

namespace Store

variable {S : Store} {M : Set ℕ} {p q c d x : ℕ}

def InLive (S : Store) (x : ℕ) : Prop := ∃ p c, S.live.get? p = some c ∧ p ≤ x ∧ x < p + c

/-- Free addresses and nonempty, pairwise disjoint live blocks partition the managed set. -/
structure WellFormed (S : Store) (M : Set ℕ) : Prop where
  finite : S.free.Finite
  pos : ∀ {p c}, S.live.get? p = some c → 0 < c
  disjoint : ∀ {p c q d}, S.live.get? p = some c → S.live.get? q = some d → p ≠ q →
    p + c ≤ q ∨ q + d ≤ p
  notMem_free : ∀ {p c x}, S.live.get? p = some c → p ≤ x → x < p + c → x ∉ S.free
  cover : ∀ x, x ∈ M ↔ x ∈ S.free ∨ S.InLive x

theorem WellFormed.mem_free (h : S.WellFormed M) {x : ℕ} :
    x ∈ S.free ↔ x ∈ M ∧ ¬ S.InLive x := by
  rw [h.cover]
  constructor
  · intro hx
    exact ⟨.inl hx, fun ⟨_, _, hp, h₁, h₂⟩ => h.notMem_free hp h₁ h₂ hx⟩
  · rintro ⟨hx, hn⟩
    exact hx.resolve_right hn

def take (S : Store) (p c : ℕ) : Store := ⟨S.free \ Ico p (p + c), S.live.insert p c⟩

def give (S : Store) (p c : ℕ) : Store := ⟨S.free ∪ Ico p (p + c), S.live.erase p⟩

/-- Free the part of a live block in front of `q`. -/
def trim (S : Store) (p q c : ℕ) : Store :=
  ⟨S.free ∪ Ico p q, (S.live.insert q (p + c - q)).erase p⟩

def extend (S : Store) (p c : ℕ) : Store := ⟨S.free ∪ Ico p (p + c), S.live⟩

theorem WellFormed.get?_eq_none (h : S.WellFormed M) (hx : x ∈ S.free) :
    S.live.get? x = none := by
  cases hl : S.live.get? x with
  | none => rfl
  | some c => exact absurd hx (h.notMem_free hl le_rfl (by have := h.pos hl; omega))

theorem WellFormed.empty : WellFormed ⟨∅, .empty⟩ ∅ where
  finite := finite_empty
  pos h := by cases h
  disjoint h := by cases h
  notMem_free h := by cases h
  cover x := by simp [InLive]

theorem WellFormed.take (h : S.WellFormed M) (hc : 0 < c)
    (hp : ∀ x, p ≤ x → x < p + c → x ∈ S.free) : (S.take p c).WellFormed M := by
  have hnew : ∀ {q d}, S.live.get? q = some d → p + c ≤ q ∨ q + d ≤ p := by
    intro q d hq
    have := h.pos hq
    by_contra hov
    exact h.notMem_free hq (x := max p q) (by omega) (by omega) (hp _ (by omega) (by omega))
  have hlive : ∀ {q d}, (S.take p c).live.get? q = some d →
      q = p ∧ d = c ∨ q ≠ p ∧ S.live.get? q = some d := by
    intro q d hq
    simp only [Store.take, get?_insert] at hq
    split_ifs at hq with hqp
    · exact .inl ⟨hqp, (Option.some.inj hq).symm⟩
    · exact .inr ⟨hqp, hq⟩
  refine ⟨h.finite.sdiff, fun hq => ?_, fun {q d q' d'} hq hq' hne => ?_,
    fun {q d x} hq h₁ h₂ hx => ?_, fun x => ?_⟩
  · rcases hlive hq with ⟨-, rfl⟩ | ⟨-, hq⟩
    · exact hc
    · exact h.pos hq
  · rcases hlive hq with ⟨rfl, rfl⟩ | ⟨-, hl⟩ <;> rcases hlive hq' with ⟨rfl, rfl⟩ | ⟨-, hl'⟩
    · exact absurd rfl hne
    · exact hnew hl'
    · exact (hnew hl).symm
    · exact h.disjoint hl hl' hne
  · rcases hlive hq with ⟨rfl, rfl⟩ | ⟨-, hq⟩
    · exact hx.2 ⟨h₁, h₂⟩
    · exact h.notMem_free hq h₁ h₂ hx.1
  · rw [h.cover]
    constructor
    · intro hx
      by_cases hxp : x ∈ Ico p (p + c)
      · exact .inr ⟨p, c, get?_insert_self, hxp⟩
      · rcases hx with hx | ⟨q, d, hq, hx⟩
        · exact .inl ⟨hx, hxp⟩
        · refine .inr ⟨q, d, ?_, hx⟩
          have := hnew hq
          simp only [Store.take, get?_insert, hq]
          rw [if_neg (by omega)]
    · rintro (hx | ⟨q, d, hq, hx₁, hx₂⟩)
      · exact .inl hx.1
      · rcases hlive hq with ⟨rfl, rfl⟩ | ⟨-, hq⟩
        · exact .inl (hp x hx₁ hx₂)
        · exact .inr ⟨q, d, hq, hx₁, hx₂⟩

theorem WellFormed.give (h : S.WellFormed M) (hp : S.live.get? p = some c) :
    (S.give p c).WellFormed M := by
  have hlive : ∀ {q d}, (S.give p c).live.get? q = some d → q ≠ p ∧ S.live.get? q = some d := by
    intro q d hq
    simp only [Store.give, get?_erase] at hq
    split_ifs at hq with hqp
    exact ⟨hqp, hq⟩
  refine ⟨h.finite.union (finite_Ico _ _), fun hq => h.pos (hlive hq).2,
    fun hq hq' hne => h.disjoint (hlive hq).2 (hlive hq').2 hne, fun {q d x} hq h₁ h₂ hx => ?_,
    fun x => ?_⟩
  · obtain ⟨hqp, hq⟩ := hlive hq
    rcases hx with hx | hx
    · exact h.notMem_free hq h₁ h₂ hx
    · simp only [mem_Ico] at hx
      rcases h.disjoint hp hq hqp.symm with h' | h' <;> omega
  · rw [h.cover]
    constructor
    · rintro (hx | ⟨q, d, hq, hx⟩)
      · exact .inl (.inl hx)
      · by_cases hqp : q = p
        · subst hqp
          obtain rfl : c = d := Option.some.inj (hp.symm.trans hq)
          exact .inl (.inr hx)
        · exact .inr ⟨q, d, by simp [Store.give, get?_erase, hqp, hq], hx⟩
    · rintro ((hx | hx) | ⟨q, d, hq, hx⟩)
      · exact .inl hx
      · exact .inr ⟨p, c, hp, hx⟩
      · exact .inr ⟨q, d, (hlive hq).2, hx⟩

theorem WellFormed.trim_eq (h : S.WellFormed M) (hp : S.live.get? p = some c) (hpq : p < q)
    (hq : q < p + c) : S.trim p q c = (S.give p c).take q (p + c - q) := by
  simp only [Store.trim, Store.give, Store.take, Store.mk.injEq]
  constructor
  · ext x
    simp only [mem_union, mem_Ico, mem_sdiff]
    constructor
    · rintro (hx | hx)
      · refine ⟨.inl hx, fun hx' => h.notMem_free hp (by omega) (by omega) hx⟩
      · omega
    · rintro ⟨hx | hx, hx'⟩
      · exact .inl hx
      · omega
  · refine ext_get? fun k => ?_
    simp only [get?_insert, get?_erase]
    split_ifs <;> first | rfl | omega

theorem WellFormed.trim (h : S.WellFormed M) (hp : S.live.get? p = some c) (hpq : p < q)
    (hq : q < p + c) : (S.trim p q c).WellFormed M := by
  rw [h.trim_eq hp hpq hq]
  refine (h.give hp).take (by omega) fun x h₁ h₂ => .inr ?_
  simp only [mem_Ico]
  omega

theorem WellFormed.extend (h : S.WellFormed M) (hd : ∀ x ∈ M, x ∉ Ico p (p + c)) :
    (S.extend p c).WellFormed (M ∪ Ico p (p + c)) := by
  refine ⟨h.finite.union (finite_Ico _ _), h.pos, h.disjoint, fun {q d x} hq h₁ h₂ hx => ?_,
    fun x => ?_⟩
  · rcases hx with hx | hx
    · exact h.notMem_free hq h₁ h₂ hx
    · exact hd x ((h.cover x).mpr (.inr ⟨q, d, hq, h₁, h₂⟩)) hx
  · rw [mem_union, h.cover]
    exact ⟨fun hx => hx.elim (Or.imp_left .inl) fun hx => .inl (.inr hx),
      fun hx => hx.elim (Or.imp_left .inl) fun hx => .inl (.inr hx)⟩

/-- A live block has another length, for which addresses behind it are taken or freed. -/
def resize (S : Store) (p c d : ℕ) : Store := (S.give p c).take p d

theorem WellFormed.resize_eq (h : S.WellFormed M) (hp : S.live.get? p = some c) :
    S.resize p c d = ⟨(S.free ∪ Ico (p + d) (p + c)) \ Ico (p + c) (p + d), S.live.insert p d⟩ := by
  simp only [Store.resize, Store.give, Store.take, insert_erase, Store.mk.injEq, and_true]
  ext x
  have := fun h₁ h₂ => h.notMem_free (x := x) hp h₁ h₂
  grind

theorem WellFormed.resize (h : S.WellFormed M) (hp : S.live.get? p = some c) (hd : 0 < d)
    (hfree : ∀ x, p + c ≤ x → x < p + d → x ∈ S.free) : (S.resize p c d).WellFormed M := by
  refine (h.give hp).take hd fun x h₁ h₂ => ?_
  by_cases hx : x < p + c
  · exact .inr ⟨h₁, hx⟩
  · exact .inl (hfree x (not_lt.mp hx) h₂)

section Aligned

variable {a y s n : ℕ}

/-- Free addresses come with the addresses before them in their cell of `a` addresses, and
live blocks consist of whole cells. -/
structure Aligned (S : Store) (a : ℕ) : Prop where
  free : ∀ {x y}, x ∈ S.free → y ≤ x → y / a = x / a → y ∈ S.free
  live : ∀ {p c}, S.live.get? p = some c → a ∣ p ∧ a ∣ c

theorem le_of_div_eq (ha : 0 < a) (hp : a ∣ p) (hpx : p ≤ x) (h : y / a = x / a) : p ≤ y := by
  obtain ⟨k, rfl⟩ := hp
  calc a * k ≤ a * (x / a) := Nat.mul_le_mul_left a ((Nat.le_div_iff_mul_le ha).mpr (by
        rwa [mul_comm] at hpx))
    _ = a * (y / a) := by rw [h]
    _ ≤ y := Nat.mul_div_le y a

theorem Aligned.dvd_of_isRun (h : S.Aligned a) (ha : 0 < a) (hr : IsRun S.free s n) : a ∣ s := by
  by_contra hs
  have hpos : 0 < s := Nat.pos_of_ne_zero fun h => hs (h ▸ Nat.dvd_zero a)
  refine hr.start (s - 1) (by omega) (h.free (hr.subset s le_rfl (by have := hr.pos; omega))
    (by omega) ?_)
  have hs := Nat.div_add_mod s a
  have hlt := Nat.mod_lt s ha
  rw [Nat.div_eq_iff ha, mul_comm]
  constructor <;> omega

theorem Aligned.empty : Aligned ⟨∅, .empty⟩ a := ⟨fun h => h.elim, fun h => by cases h⟩

theorem Aligned.extend (h : S.Aligned a) (ha : 0 < a) (hp : a ∣ p) : (S.extend p c).Aligned a := by
  refine ⟨fun {x y} hx hyx hxy => ?_, h.live⟩
  rcases hx with hx | hx
  · exact .inl (h.free hx hyx hxy)
  · exact .inr ⟨le_of_div_eq ha hp hx.1 hxy, lt_of_le_of_lt hyx hx.2⟩

theorem Aligned.give (h : S.Aligned a) (ha : 0 < a) (hp : a ∣ p) : (S.give p c).Aligned a := by
  refine ⟨(h.extend ha hp).free, fun {q d} hq => ?_⟩
  simp only [Store.give, get?_erase] at hq
  split_ifs at hq
  exact h.live hq

theorem Aligned.take (h : S.Aligned a) (ha : 0 < a) (hp : a ∣ p) (hc : a ∣ c) :
    (S.take p c).Aligned a := by
  refine ⟨fun {x y} hx hyx hxy => ⟨h.free hx.1 hyx hxy, fun hy => ?_⟩, fun {q d} hq => ?_⟩
  · have hx := hx.2
    simp only [mem_Ico] at hx hy
    have := le_of_div_eq ha (Nat.dvd_add hp hc) (x := x) (y := y) (by omega) hxy
    omega
  · simp only [Store.take, get?_insert] at hq
    split_ifs at hq with hqp
    · cases hq
      exact ⟨hqp ▸ hp, hc⟩
    · exact h.live hq

theorem Aligned.trim (h : S.Aligned a) (hw : S.WellFormed M) (ha : 0 < a)
    (hp : S.live.get? p = some c) (hpq : p < q) (hqc : q < p + c) (hq : a ∣ q) :
    (S.trim p q c).Aligned a := by
  obtain ⟨hap, hac⟩ := h.live hp
  rw [hw.trim_eq hp hpq hqc]
  exact (h.give ha hap).take ha hq ((Nat.dvd_sub (Nat.dvd_add hap hac) hq))

theorem Aligned.resize (h : S.Aligned a) (ha : 0 < a) (hp : S.live.get? p = some c) (hd : a ∣ d) :
    (S.resize p c d).Aligned a :=
  (h.give ha (h.live hp).1).take ha (h.live hp).1 hd

end Aligned

end Store

end Intervals
