import Mathlib

/-! # Rings of flagged words

Words are written to positions `0, 1, 2, ...`, in any order, and a ring of `size` slots
holds the word of a position at its residue. Every word carries the flag of its lap
around the ring, so that a reader can tell a new word from the one it replaces, as long
as no writer is more than one lap ahead of the reader.
-/

namespace Ring

open Function Option Nat

variable {W F : Type*} {size head p q : ℕ} {flag : W → F} {lapFlag : ℕ → F}
  {written : ℕ → Option W} {buf : ℕ → W} {w : W}

theorem add_le_of_mod_eq (hmod : q % size = p % size) (hlt : q < p) : q + size ≤ p := by
  have hdvd : size ∣ p - q := (modEq_iff_dvd' hlt.le).mp hmod
  have hle := le_of_dvd (Nat.sub_pos_of_lt hlt) hdvd
  omega

/-- The words written so far, the slots of the ring, and the first position not yet released by
the reader. -/
structure Valid (size : ℕ) (flag : W → F) (lapFlag : ℕ → F) (head : ℕ) (written : ℕ → Option W)
    (buf : ℕ → W) : Prop where
  flag_eq : ∀ p w, written p = some w → flag w = lapFlag (p / size)
  released : ∀ p < head, written p ≠ none
  bounded : ∀ p, written p ≠ none → p < head + size
  latest : ∀ p w, written p = some w → written (p + size) = none → buf (p % size) = w
  blank : ∀ p < size, written p = none → flag (buf p) ≠ lapFlag 0

namespace Valid

theorem init (h : ∀ p < size, flag (buf p) ≠ lapFlag 0) :
    Valid size flag lapFlag 0 (fun _ => none) buf where
  flag_eq _ _ h := nomatch h
  released _ h := absurd h (Nat.not_lt_zero _)
  bounded _ h := absurd rfl h
  latest _ _ h := nomatch h
  blank p hp _ := h p hp

variable (h : Valid size flag lapFlag head written buf)
include h

theorem le_of_unwritten (hp : written p = none) : head ≤ p := by
  by_contra hlt
  exact h.released p (not_le.mp hlt) hp

theorem buf_eq (hp : head ≤ p) (hw : written p = some w) : buf (p % size) = w := by
  apply h.latest p w hw
  by_contra hnext
  exact (h.bounded _ hnext).not_ge (Nat.add_le_add_right hp size)

theorem written_of_flag (halt : ∀ n, lapFlag (n + 1) ≠ lapFlag n) (hlt : p < head + size)
    (hp : head ≤ p) (hflag : flag (buf (p % size)) = lapFlag (p / size)) :
    written p = some (buf (p % size)) := by
  cases hw : written p with
  | some w => rw [h.buf_eq hp hw]
  | none =>
    exfalso
    rcases Nat.lt_or_ge p size with hfirst | hlater
    · rw [mod_eq_of_lt hfirst, div_eq_of_lt hfirst] at hflag
      exact h.blank p hfirst hw hflag
    · obtain ⟨q, rfl⟩ := Nat.exists_eq_add_of_le' hlater
      have hpos : 0 < size := by omega
      obtain ⟨w, hq⟩ := ne_none_iff_exists'.mp (h.released q (by omega))
      rw [add_mod_right, h.latest q w hq hw, h.flag_eq q w hq,
        add_div_right q hpos] at hflag
      exact halt _ hflag.symm

theorem add_size_le (hp : written p = none) (hq : q < head + size)
    (hmod : q % size = p % size) (hne : q ≠ p) : q + size ≤ p := by
  rcases Nat.lt_or_gt_of_ne hne with hqp | hpq
  · exact add_le_of_mod_eq hmod hqp
  · have hle := add_le_of_mod_eq hmod.symm hpq
    have hhead := h.le_of_unwritten hp
    omega

theorem store (hp : written p = none) (hlt : p < head + size) (hw : flag w = lapFlag (p / size)) :
    Valid size flag lapFlag head (Function.update written p (some w))
      (Function.update buf (p % size) w) where
  flag_eq q v hq := by
    by_cases hqp : q = p
    · subst hqp
      rw [update_self] at hq
      exact some.inj hq ▸ hw
    · rw [update_of_ne hqp] at hq
      exact h.flag_eq q v hq
  released q hq := by
    by_cases hqp : q = p
    · rw [hqp, update_self]
      exact some_ne_none w
    · rw [update_of_ne hqp]
      exact h.released q hq
  bounded q hq := by
    by_cases hqp : q = p
    · exact hqp ▸ hlt
    · rw [update_of_ne hqp] at hq
      exact h.bounded q hq
  latest q v hq hnext := by
    by_cases hqp : q = p
    · subst hqp
      rw [update_self] at hq ⊢
      exact some.inj hq
    · have hnp : q + size ≠ p := by
        rintro rfl
        rw [update_self] at hnext
        exact some_ne_none w hnext
      rw [update_of_ne hqp] at hq
      rw [update_of_ne hnp] at hnext
      have hmod : q % size ≠ p % size := by
        intro hmod
        have hle := h.add_size_le hp (h.bounded q (hq ▸ some_ne_none v)) hmod hqp
        have hmod' : (q + size) % size = p % size := by rw [add_mod_right, hmod]
        have hle' := h.add_size_le hp (hle.trans_lt hlt) hmod' hnp
        exact h.released (q + size) (by omega) hnext
      rw [update_of_ne hmod]
      exact h.latest q v hq hnext
  blank q hq hnone := by
    have hqp : q ≠ p := by
      rintro rfl
      rw [update_self] at hnone
      exact some_ne_none w hnone
    rw [update_of_ne hqp] at hnone
    have hmod : q ≠ p % size := by
      intro hmod
      have hle := h.add_size_le hp (hq.trans_le (Nat.le_add_left ..))
        (by rw [mod_eq_of_lt hq, hmod]) hqp
      exact h.released q (by omega) hnone
    rw [update_of_ne hmod]
    exact h.blank q hq hnone

theorem advance {head' : ℕ} (hle : head ≤ head') (hw : ∀ p, p < head' → written p ≠ none) :
    Valid size flag lapFlag head' written buf where
  flag_eq := h.flag_eq
  released := hw
  bounded p hp := (h.bounded p hp).trans_le (Nat.add_le_add_right hle size)
  latest := h.latest
  blank := h.blank

end Valid

end Ring
