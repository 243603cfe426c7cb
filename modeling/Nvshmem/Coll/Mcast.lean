import Nvshmem.Loops.Strided

/-! # Accesses to a multicast buffer

The reductions over NVLS cut a buffer into accesses of 16, 8 and 4 bytes. A width is used while both
pointers are aligned to it and enough bytes are left; the rest goes to the next width.
-/

namespace Nvshmem.Mcast

open Loops List Nat

theorem warp_pos : 0 < 32 := by decide

/-- `rdxn_ops_t` -/
inductive RdxnOp
  | and
  | or
  | xor
  | min
  | max
  | sum
  | prod
  | maxloc
deriving DecidableEq, Repr

/-- One `multimem` access of `width` bytes, `offset` bytes after the start of the buffer. -/
structure Access where
  offset : ℕ
  width : ℕ
deriving DecidableEq, Repr

/-- The access holds the `len` bytes from `first` on. -/
def Access.Covers (a : Access) (first len : ℕ) : Prop :=
  a.offset ≤ first ∧ first + len ≤ a.offset + a.width

instance (a : Access) (first len : ℕ) : Decidable (a.Covers first len) :=
  inferInstanceAs (Decidable (_ ∧ _))

/-- The loop of the kernels `mcast16`, `mcast8` and `mcast4`, for all threads of the group. -/
def kernel (groupSize unroll width nelems offset : ℕ) : List Access :=
  (List.range groupSize).flatMap fun myIdx =>
    (strided (myIdx * unroll) nelems (groupSize * unroll)).flatMap fun j =>
      (List.range unroll).map fun u => ⟨offset + (j + u) * width, width⟩

def unroll (width len : ℕ) : ℕ := if width = 16 ∧ 192 ≤ len ∧ len % 192 = 0 then 12 else 1

/-- The accesses to the `len` bytes at `offset`, with the given widths tried in turn. -/
def stages (groupSize dest src : ℕ) : List ℕ → ℕ → ℕ → List Access
  | [], _, _ => []
  | width :: widths, offset, len =>
    if (dest + offset) % width = 0 ∧ (src + offset) % width = 0 ∧ width ≤ len then
      kernel groupSize (unroll width len) width (len / width) offset ++
        stages groupSize dest src widths (offset + len / width * width) (len - len / width * width)
    else stages groupSize dest src widths offset len

section Kernel

variable {groupSize u width nelems offset len : ℕ} {a : Access}

theorem unroll_pos : 0 < unroll width len := by
  unfold unroll
  split <;> omega

theorem unroll_dvd : unroll width len ∣ len / width := by
  unfold unroll
  split
  · next h =>
    obtain ⟨rfl, -, hlen⟩ := h
    exact ⟨len / 192, by omega⟩
  · exact one_dvd _

theorem mem_kernel (hg : 0 < groupSize) (hu : 0 < u) (hdvd : u ∣ nelems) :
    a ∈ kernel groupSize u width nelems offset ↔
      ∃ i < nelems, a = ⟨offset + i * width, width⟩ := by
  obtain ⟨n, rfl⟩ := hdvd
  simp only [kernel, mem_flatMap, mem_range, mem_map,
    mem_strided (Nat.mul_pos hg hu)]
  constructor
  · rintro ⟨t, -, j, ⟨hj, k, rfl⟩, v, hv, rfl⟩
    refine ⟨_, ?_, rfl⟩
    have hblock : t * u + groupSize * u * k = u * (t + groupSize * k) := by ring
    rw [hblock] at hj ⊢
    have hlt : t + groupSize * k + 1 ≤ n := Nat.lt_of_mul_lt_mul_left hj
    calc u * (t + groupSize * k) + v < u * (t + groupSize * k) + u := by omega
      _ = u * (t + groupSize * k + 1) := by ring
      _ ≤ u * n := Nat.mul_le_mul_left u hlt
  · rintro ⟨i, hi, rfl⟩
    have hdiv : i / u % groupSize * u + groupSize * u * (i / u / groupSize) = u * (i / u) := by
      conv_rhs => rw [← mod_add_div (i / u) groupSize]
      ring
    refine ⟨i / u % groupSize, mod_lt _ hg, u * (i / u), ⟨?_, i / u / groupSize, hdiv.symm⟩,
      i % u, mod_lt i hu, ?_⟩
    · exact lt_of_le_of_lt (mul_div_le i u) hi
    · rw [div_add_mod]

end Kernel

section Stages

variable {groupSize dest src offset len x : ℕ} {widths : List ℕ} {a : Access}

theorem bounds_of_mem_stages (hg : 0 < groupSize)
    (ha : a ∈ stages groupSize dest src widths offset len) :
    a.width ∈ widths ∧ (dest + a.offset) % a.width = 0 ∧ (src + a.offset) % a.width = 0 ∧
      offset ≤ a.offset ∧ a.offset + a.width ≤ offset + len := by
  induction widths generalizing offset len with
  | nil => simp [stages] at ha
  | cons w ws ih =>
    have hle := div_mul_le_self len w
    rw [stages] at ha
    split at ha
    · next h =>
      rw [mem_append, mem_kernel hg unroll_pos unroll_dvd] at ha
      obtain ⟨i, hi, rfl⟩ | ha := ha
      · have hend : (i + 1) * w ≤ len / w * w := Nat.mul_le_mul_right w hi
        rw [Nat.add_mul, Nat.one_mul] at hend
        dsimp only
        refine ⟨mem_cons_self, ?_, ?_, by omega, by omega⟩
        · rw [← Nat.add_assoc, add_mul_mod_self_right, h.1]
        · rw [← Nat.add_assoc, add_mul_mod_self_right, h.2.1]
      · obtain ⟨hw, hd, hs, hlo, hhi⟩ := ih ha
        exact ⟨mem_cons_of_mem w hw, hd, hs, by omega, by omega⟩
    · obtain ⟨hw, hd, hs, hlo, hhi⟩ := ih ha
      exact ⟨mem_cons_of_mem w hw, hd, hs, hlo, hhi⟩

theorem stages_of_not {w : ℕ} (h : ¬ ((dest + offset) % w = 0 ∧ (src + offset) % w = 0 ∧ w ≤ len)) :
    stages groupSize dest src (w :: widths) offset len =
      stages groupSize dest src widths offset len := by
  rw [stages, if_neg h]

theorem eq_of_offset_lt {w : ℕ} (hg : 0 < groupSize)
    (h : dest % w = 0 ∧ src % w = 0 ∧ w ≤ len)
    (ha : a ∈ stages groupSize dest src (w :: widths) 0 len) (hlt : a.offset < w) :
    a = ⟨0, w⟩ := by
  rw [stages, Nat.add_zero, Nat.add_zero, if_pos h, mem_append,
    mem_kernel hg unroll_pos unroll_dvd] at ha
  obtain ⟨i, -, rfl⟩ | ha := ha
  · dsimp only at hlt
    have hi : i = 0 := by
      by_contra hne
      have := Nat.le_mul_of_pos_left w (Nat.pos_of_ne_zero hne)
      omega
    rw [hi, Nat.zero_mul]
  · obtain ⟨-, -, -, hlo, -⟩ := bounds_of_mem_stages hg ha
    have hone : 1 ≤ len / w := (Nat.one_le_div_iff (zero_lt_of_lt hlt)).mpr h.2.2
    have := Nat.le_mul_of_pos_left w hone
    omega

theorem exists_covers_word (hg : 0 < groupSize) (h4 : 4 ∈ widths) (hw : ∀ w ∈ widths, 0 < w ∧ 4 ∣ w)
    (hd : 4 ∣ dest + offset) (hs : 4 ∣ src + offset) (hlen : 4 ∣ len) (hx : offset ≤ x)
    (hx' : x < offset + len) (hword : 4 ∣ x - offset) :
    ∃ a ∈ stages groupSize dest src widths offset len, a.Covers x 4 := by
  induction widths generalizing offset len with
  | nil => simp at h4
  | cons w ws ih =>
    obtain ⟨hwpos, hw4⟩ := hw w mem_cons_self
    rw [stages]
    split
    · next h =>
      by_cases hin : x < offset + len / w * w
      · -- the word is in one of the elements of this width
        have hi : (x - offset) / w < len / w := (Nat.div_lt_iff_lt_mul hwpos).mpr (by omega)
        refine ⟨⟨offset + (x - offset) / w * w, w⟩, mem_append.mpr (.inl ?_), ?_, ?_⟩
        · exact (mem_kernel hg unroll_pos unroll_dvd).mpr ⟨_, hi, rfl⟩
        · have := div_mul_le_self (x - offset) w
          change offset + (x - offset) / w * w ≤ x
          omega
        · have hmod : 4 ∣ (x - offset) % w := (dvd_mod_iff hw4).mpr hword
          have hlt := mod_lt (x - offset) hwpos
          have hsum := div_add_mod' (x - offset) w
          change x + 4 ≤ offset + (x - offset) / w * w + w
          omega
      · have hne : 4 ∈ ws := (mem_cons.mp h4).resolve_left fun h => by
          subst h
          omega
        have hmul : 4 ∣ len / w * w := Dvd.dvd.mul_left hw4 _
        obtain ⟨a, ha, hcov⟩ : ∃ a ∈ stages groupSize dest src ws (offset + len / w * w)
            (len - len / w * w), a.Covers x 4 :=
          ih hne (fun v hv => hw v (mem_cons_of_mem w hv)) (by omega) (by omega) (by omega)
            (by omega) (by omega) (by omega)
        exact ⟨a, mem_append.mpr (.inr ha), hcov⟩
    · next h =>
      have hne : 4 ∈ ws := (mem_cons.mp h4).resolve_left fun h4 => by
        subst h4
        omega
      exact ih hne (fun v hv => hw v (mem_cons_of_mem w hv)) hd hs hlen hx hx' hword

end Stages

end Nvshmem.Mcast
