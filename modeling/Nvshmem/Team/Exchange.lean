import Nvshmem.Team.RecExch

/-! # The recursive exchange reaches every PE once

The first step hands the value of every folded PE to one participant, and the
phases of the second step exchange along the digits of the participants' numbers.
The tables of all PEs agree with each other, and after the last phase every
participant has combined the value of each PE of the team once.
-/

namespace Nvshmem.RecExch

section Fold

open List

variable {k rem q r T b d j : ℕ}

/-- The number of PEs whose values participant `b` takes in the first step. -/
def senders (k q r b : ℕ) : ℕ := if b < q then k - 1 else if b = q then r else 0

/-- The folded PEs below `T` are `q` full sets of `k` PEs and `r` PEs more. -/
structure Fold (k rem q r T : ℕ) : Prop where
  two_le : 2 ≤ k
  rem_eq : rem = q * (k - 1) + r
  lt : r < k - 1
  bound_eq : T = q * k + r

theorem set_le (hb : b < q) : b * k + k ≤ q * k := by
  rw [← Nat.succ_mul]
  exact Nat.mul_le_mul_right k hb

theorem fold_of_two_le (hk : 2 ≤ k) (rem : ℕ) :
    Fold k rem (rem / (k - 1)) (rem % (k - 1)) (rem * k / (k - 1)) where
  two_le := hk
  rem_eq := (Nat.div_add_mod' rem (k - 1)).symm
  lt := Nat.mod_lt _ (by omega)
  bound_eq := by
    obtain ⟨c, rfl⟩ : ∃ c, k = c + 1 := ⟨k - 1, by omega⟩
    have hdm : rem / c * c + rem % c = rem := Nat.div_add_mod' rem c
    have hq : rem / c * (c + 1) = rem / c * c + rem / c := Nat.mul_succ _ _
    rw [Nat.add_sub_cancel, Nat.mul_succ, Nat.add_comm, Nat.add_mul_div_right _ _ (by omega), hq]
    omega

namespace Fold

variable (h : Fold k rem q r T)

include h

theorem bound_eq_add : T = q + rem := by
  have : q * (k - 1 + 1) = q * (k - 1) + q := Nat.mul_succ _ _
  rw [show k - 1 + 1 = k by have := h.two_le; omega] at this
  have := h.bound_eq
  have := h.rem_eq
  omega

theorem realPe_eq : realPe k rem b = if b < q then b * k + (k - 1) else b + rem := by
  have hq : rem / (k - 1) = q := by
    rw [h.rem_eq, Nat.mul_comm, Nat.mul_add_div (by have := h.lt; omega), Nat.div_eq_of_lt h.lt,
      Nat.add_zero]
  rw [realPe, hq]

theorem realPe_of_lt (hb : b < q) : realPe k rem b = b * k + (k - 1) := by
  rw [h.realPe_eq, if_pos hb]

theorem realPe_of_ge (hb : q ≤ b) : realPe k rem b = b + rem := by
  rw [h.realPe_eq, if_neg (by omega)]

theorem step1_realPe : step1 k rem T (realPe k rem b) =
    ⟨none, (range (senders k q r b)).map fun i => b * k + (senders k q r b - 1 - i),
      some b⟩ := by
  have hT := h.bound_eq
  have hr := h.lt
  rcases Nat.lt_or_ge b q with hb | hb
  · have hle := set_le (k := k) hb
    have hmod : (b * k + (k - 1)) % k = k - 1 := by
      rw [Nat.mul_add_mod', Nat.mod_eq_of_lt (by omega)]
    have hdiv : (b * k + (k - 1)) / k = b := by
      rw [Nat.mul_comm, Nat.mul_add_div (by omega), Nat.div_eq_of_lt (by omega), Nat.add_zero]
    rw [h.realPe_of_lt hb, step1, if_pos (by omega), if_neg (not_not.mpr hmod), hdiv, senders,
      if_pos hb]
    congr 1
    refine map_congr_left fun i hi => ?_
    have := mem_range.mp hi
    omega
  · have hadd := h.bound_eq_add
    rw [h.realPe_of_ge hb, step1, if_neg (by omega), Nat.add_sub_cancel, senders,
      if_neg (by omega)]
    dsimp only
    by_cases hbq : b = q
    · subst hbq
      rw [if_pos rfl]
      rcases Nat.eq_zero_or_pos r with rfl | hpos
      · rw [if_neg, range_zero, map_nil]
        rintro ⟨-, hne, hT1⟩
        apply hne
        obtain ⟨c, rfl⟩ : ∃ c, b = c + 1 := ⟨b - 1, by rcases b with _ | b <;> simp_all⟩
        rw [hT, Nat.succ_mul, Nat.add_zero, Nat.add_sub_assoc (by omega), Nat.mul_add_mod',
          Nat.mod_eq_of_lt (by omega)]
      · have hmod : (T - 1) % k = r - 1 := by
          rw [hT, Nat.add_sub_assoc (by omega), Nat.mul_add_mod', Nat.mod_eq_of_lt (by omega)]
        rw [hmod, if_pos (by omega), Nat.sub_add_cancel hpos, hT, Nat.add_sub_cancel]
    · rw [if_neg hbq, if_neg (by omega), range_zero, map_nil]

theorem step1_folded (hd : d < senders k q r b) :
    step1 k rem T (b * k + d) = ⟨some (realPe k rem b), [], none⟩ := by
  have hk := h.two_le
  have hT := h.bound_eq
  have hr := h.lt
  have hmod : ∀ d < k - 1, (b * k + d) % k = d := fun d hd => by
    rw [Nat.mul_add_mod', Nat.mod_eq_of_lt (by omega)]
  rw [senders] at hd
  by_cases hb : b < q
  · rw [if_pos hb] at hd
    have hle := set_le (k := k) hb
    rw [step1, if_pos (by omega), hmod d hd, if_pos (by omega), h.realPe_of_lt hb]
    dsimp only
    rw [if_neg (by omega)]
    congr 2
    omega
  · rw [if_neg hb] at hd
    by_cases hbq : b = q
    · subst hbq
      rw [if_pos rfl] at hd
      rw [step1, if_pos (by omega), hmod d (by omega), if_pos (by omega), h.realPe_of_ge le_rfl,
        h.bound_eq_add]
      dsimp only
      have hadd := h.bound_eq_add
      rw [if_pos (by omega)]
    · rw [if_neg hbq] at hd
      omega

theorem realPe_or_folded (j : ℕ) :
    (∃ b, j = realPe k rem b) ∨ ∃ b d, d < senders k q r b ∧ j = b * k + d := by
  have hT := h.bound_eq
  have hr := h.lt
  have hadd := h.bound_eq_add
  rcases Nat.lt_or_ge j T with hj | hj
  · have hdm := Nat.div_add_mod' j k
    have hlt : j % k < k := Nat.mod_lt _ (by omega)
    have hle : j / k ≤ q := by
      by_contra hgt
      have := set_le (k := k) (show q < j / k by omega)
      omega
    by_cases hlast : j % k = k - 1
    · left
      refine ⟨j / k, ?_⟩
      rcases hle.eq_or_lt with heq | hb
      · rw [heq] at hdm
        omega
      · rw [h.realPe_of_lt hb]
        omega
    · right
      refine ⟨j / k, j % k, ?_, hdm.symm⟩
      rw [senders]
      rcases hle.eq_or_lt with heq | hb
      · rw [if_neg (by omega), if_pos heq]
        rw [heq] at hdm
        omega
      · rw [if_pos hb]
        omega
  · exact .inl ⟨j - rem, by rw [h.realPe_of_ge (by omega)]; omega⟩

end Fold

end Fold

section Tables

open Finset Option Radix

variable {kval n K m b c d t i j : ℕ} {f : ℕ → ℕ}

/-- The radix and the number of phases of a team of `n` PEs. -/
structure Sized (kval n K m : ℕ) : Prop where
  radix : effectiveK n kval = K
  two_le : 2 ≤ K
  le : K ^ m ≤ n
  lt : n < K ^ (m + 1)

theorem sized_log (hk : 2 ≤ kval) (hn : 1 ≤ n) :
    Sized kval n (effectiveK n kval) (Nat.log (effectiveK n kval) n) := by
  have hK : 2 ≤ effectiveK n kval := by
    rw [effectiveK]
    split_ifs <;> omega
  exact ⟨rfl, hK, Nat.pow_log_le_self _ (by omega), Nat.lt_pow_succ_log_self (by omega) _⟩

namespace Sized

variable (h : Sized kval n K m)

include h

theorem rem_eq : rem K n = n - K ^ m := by
  rw [rem, pOfK_eq h.two_le h.le h.lt]

theorem fold : Fold K (rem K n) (rem K n / (K - 1)) (rem K n % (K - 1)) (foldBound K n) :=
  fold_of_two_le h.two_le _

theorem sets_lt : rem K n / (K - 1) < K ^ m := by
  have hk := h.two_le
  have hlt := h.lt
  have hle := h.le
  have hmul : K ^ m * (K - 1) + K ^ m = K ^ (m + 1) := by
    rw [← Nat.mul_succ]
    congr 1
    omega
  apply Nat.div_lt_of_lt_mul
  rw [h.rem_eq, Nat.mul_comm]
  omega

theorem realPe_lt : realPe K (rem K n) b < n ↔ b < K ^ m := by
  have hk := h.two_le
  have hle := h.le
  have hrem := h.rem_eq
  have hsets := h.sets_lt
  have hT := h.fold.bound_eq
  have hadd := h.fold.bound_eq_add
  rcases Nat.lt_or_ge b (rem K n / (K - 1)) with hb | hb
  · have := set_le (k := K) hb
    rw [h.fold.realPe_of_lt hb]
    omega
  · rw [h.fold.realPe_of_ge hb]
    omega

theorem folded_lt (hd : d < senders K (rem K n / (K - 1)) (rem K n % (K - 1)) b) :
    b < K ^ m ∧ d < K ∧ b * K + d < n := by
  have hle := h.le
  have hrem := h.rem_eq
  have hsets := h.sets_lt
  have hr := h.fold.lt
  have hT := h.fold.bound_eq
  have hadd := h.fold.bound_eq_add
  rw [senders] at hd
  split_ifs at hd with hb hbq
  · have := set_le (k := K) hb
    omega
  · subst hbq
    omega
  · omega

theorem realPe_injective : Function.Injective (realPe K (rem K n)) := by
  intro b c hbc
  have hb := h.fold.step1_realPe (b := b)
  rw [hbc, h.fold.step1_realPe] at hb
  injection hb with _ _ hnew
  exact (some.inj hnew).symm

theorem getNeighbors_realPe (hb : b < K ^ m) :
    getNeighbors f kval n (realPe K (rem K n) b) =
      { step1Sendto := none
        step1Recvfrom :=
          (step1 K (rem K n) (foldBound K n) (realPe K (rem K n) b)).recvfrom.map f
        step2Nbrs := (List.range m).map fun t =>
          ((List.range K).filter fun i => i ≠ digit K t b).map fun i =>
            f (realPe K (rem K n) (setDigit K t b i)) } := by
  have hdigit := digitLoop_eq h.two_le (b + 1) m b [] hb (by omega)
  rw [List.nil_append, List.nil_append, List.length_nil] at hdigit
  have hloop := phaseLoop_eq h.two_le (rem K n) (digits K m b) (m := m) (K ^ m) 0 (by omega)
    (by have := Nat.lt_pow_self (n := m) (show 1 < K by have := h.two_le; omega); omega)
  rw [pow_zero, Nat.sub_zero, ← List.range_eq_range'] at hloop
  simp only [getNeighbors, h.radix, h.fold.step1_realPe, logPOfK_eq h.two_le h.le h.lt,
    pOfK_eq h.two_le h.le h.lt, hdigit, hloop, map_none, List.map_map]
  congr 1
  refine List.map_congr_left fun t ht => ?_
  have ht := List.mem_range.mp ht
  simp only [Function.comp_apply, phaseNbrs, List.map_map, List.getD_eq_getElem?_getD,
    getElem?_digits ht, getD_some]
  refine List.map_congr_left fun i _ => ?_
  rw [Function.comp_apply, nbrValue_eq, ofDigits_set_digits hb ht]

theorem getNeighbors_folded
    (hd : d < senders K (rem K n / (K - 1)) (rem K n % (K - 1)) b) :
    getNeighbors f kval n (b * K + d) =
      { step1Sendto := some (f (realPe K (rem K n) b))
        step1Recvfrom := []
        step2Nbrs := List.replicate m [] } := by
  simp [getNeighbors, h.radix, h.fold.step1_folded hd, logPOfK_eq h.two_le h.le h.lt]

theorem cases_of_lt (hj : j < n) :
    (∃ b < K ^ m, j = realPe K (rem K n) b) ∨
      ∃ b < K ^ m, ∃ d, d < senders K (rem K n / (K - 1)) (rem K n % (K - 1)) b ∧
        j = b * K + d := by
  rcases h.fold.realPe_or_folded j with ⟨b, rfl⟩ | ⟨b, d, hd, rfl⟩
  · exact .inl ⟨b, h.realPe_lt.mp hj, rfl⟩
  · exact .inr ⟨b, (h.folded_lt hd).1, d, hd, rfl⟩

theorem mem_recvfrom_realPe :
    j ∈ (step1 K (rem K n) (foldBound K n) (realPe K (rem K n) b)).recvfrom ↔
      ∃ d < senders K (rem K n / (K - 1)) (rem K n % (K - 1)) b, j = b * K + d := by
  rw [h.fold.step1_realPe, List.mem_map]
  constructor
  · rintro ⟨i, hi, rfl⟩
    have := List.mem_range.mp hi
    exact ⟨_, by omega, rfl⟩
  · rintro ⟨d, hd, rfl⟩
    exact ⟨senders K (rem K n / (K - 1)) (rem K n % (K - 1)) b - 1 - d,
      List.mem_range.mpr (by omega), by omega⟩

theorem nodup_recvfrom_realPe :
    (step1 K (rem K n) (foldBound K n) (realPe K (rem K n) b)).recvfrom.Nodup := by
  rw [h.fold.step1_realPe]
  refine List.Nodup.map_on (fun i hi j hj hij => ?_) List.nodup_range
  have := List.mem_range.mp hi
  have := List.mem_range.mp hj
  omega

end Sized

def holder (k rem T j : ℕ) : ℕ := (step1 k rem T j).newpe.getD (j / k)

namespace Sized

variable {A : Type*} [AddCommMonoid A] (h : Sized kval n K m)

include h

theorem holder_realPe : holder K (rem K n) (foldBound K n) (realPe K (rem K n) b) = b := by
  rw [holder, h.fold.step1_realPe, getD_some]

theorem holder_folded (hd : d < senders K (rem K n / (K - 1)) (rem K n % (K - 1)) b) :
    holder K (rem K n) (foldBound K n) (b * K + d) = b := by
  have hk := h.two_le
  rw [holder, h.fold.step1_folded hd, getD_none, Nat.mul_comm, Nat.mul_add_div (by omega),
    Nat.div_eq_of_lt (h.folded_lt hd).2.1, Nat.add_zero]

theorem sum_step1 (x : ℕ → A) :
    ∑ b ∈ range (K ^ m), (x (realPe K (rem K n) b) +
      ((step1 K (rem K n) (foldBound K n) (realPe K (rem K n) b)).recvfrom.map x).sum) =
      ∑ j ∈ range n, x j := by
  have hmaps : ∀ j ∈ range n, holder K (rem K n) (foldBound K n) j ∈ range (K ^ m) := by
    intro j hj
    rcases h.cases_of_lt (mem_range.mp hj) with ⟨b, hb, rfl⟩ | ⟨b, hb, d, hd, rfl⟩
    · rwa [h.holder_realPe, mem_range]
    · rwa [h.holder_folded hd, mem_range]
  rw [← sum_fiberwise_of_maps_to hmaps]
  refine sum_congr rfl fun b hb => ?_
  have hnodup : (realPe K (rem K n) b ::
      (step1 K (rem K n) (foldBound K n) (realPe K (rem K n) b)).recvfrom).Nodup := by
    refine List.nodup_cons.mpr ⟨fun hmem => ?_, h.nodup_recvfrom_realPe⟩
    obtain ⟨d, hd, heq⟩ := h.mem_recvfrom_realPe.mp hmem
    have hstep := h.fold.step1_folded hd
    rw [← heq, h.fold.step1_realPe] at hstep
    cases hstep
  rw [← List.sum_cons, ← List.map_cons, ← List.sum_toFinset x hnodup]
  refine sum_congr ?_ fun _ _ => rfl
  ext j
  rw [List.mem_toFinset, List.mem_cons, h.mem_recvfrom_realPe, mem_filter, mem_range]
  constructor
  · rintro (rfl | ⟨d, hd, rfl⟩)
    · exact ⟨h.realPe_lt.mpr (mem_range.mp hb), h.holder_realPe⟩
    · exact ⟨(h.folded_lt hd).2.2, h.holder_folded hd⟩
  · rintro ⟨hj, rfl⟩
    rcases h.cases_of_lt hj with ⟨b, -, rfl⟩ | ⟨b, -, d, hd, rfl⟩
    · rw [h.holder_realPe]
      exact .inl rfl
    · rw [h.holder_folded hd]
      exact .inr ⟨d, hd, rfl⟩

end Sized

def nbrs (table : RecExch) (phase : ℕ) : List ℕ := table.step2Nbrs.getD phase []

def held {A : Type*} [AddCommMonoid A] (tables : ℕ → RecExch) (x : ℕ → A) : ℕ → ℕ → A
  | 0, pe => x pe + ((tables pe).step1Recvfrom.map x).sum
  | phase + 1, pe => held tables x phase pe +
      (((tables pe).nbrs phase).map (held tables x phase)).sum

def participants (f : ℕ → ℕ) (n : ℕ) (tables : ℕ → RecExch) : Set ℕ :=
  {i | i < n ∧ (tables (f i)).step1Sendto = none}

/-- The tables of the PEs `f 0, …, f (n - 1)` form a recursive exchange with radix `K` and
`m` phases, in which `number` gives the participants. -/
structure IsExchange (f : ℕ → ℕ) (n K m : ℕ) (number : ℕ → ℕ) (tables : ℕ → RecExch) : Prop where
  power_le : K ^ m ≤ n
  lt_power : n < K ^ (m + 1)
  phases : ∀ i < n, (tables (f i)).step2Nbrs.length = m
  sendto_mem : ∀ i < n, ∀ pe, (tables (f i)).step1Sendto = some pe → ∃ j < n, pe = f j
  recvfrom_mem : ∀ i < n, ∀ pe ∈ (tables (f i)).step1Recvfrom, ∃ j < n, pe = f j
  sendto_iff : ∀ i < n, ∀ j < n,
    (tables (f i)).step1Sendto = some (f j) ↔ f i ∈ (tables (f j)).step1Recvfrom
  bijOn : Set.BijOn number (Set.Iio (K ^ m)) (participants f n tables)
  nbrs_mem : ∀ i < n, ∀ t, ∀ pe ∈ (tables (f i)).nbrs t, ∃ j ∈ participants f n tables, pe = f j
  nbrs_symm : ∀ i < n, ∀ j < n, ∀ t,
    f j ∈ (tables (f i)).nbrs t → f i ∈ (tables (f j)).nbrs t
  nbrs_irrefl : ∀ i < n, ∀ t, f i ∉ (tables (f i)).nbrs t

namespace Sized

variable {A : Type*} [AddCommMonoid A] {tables : ℕ → RecExch} (h : Sized kval n K m)
  (htab : ∀ i < n, tables (f i) = getNeighbors f kval n i)

include h htab

theorem nbrs_realPe (hb : b < K ^ m) (ht : t < m) :
    (tables (f (realPe K (rem K n) b))).nbrs t =
      ((List.range K).filter fun i => i ≠ digit K t b).map fun i =>
        f (realPe K (rem K n) (setDigit K t b i)) := by
  rw [htab _ (h.realPe_lt.mpr hb), h.getNeighbors_realPe hb, nbrs, List.getD_eq_getElem?_getD,
    List.getElem?_map, List.getElem?_range ht, map_some, getD_some]

theorem length_step2Nbrs (hi : i < n) : (tables (f i)).step2Nbrs.length = m := by
  rw [htab i hi]
  rcases h.cases_of_lt hi with ⟨b, hb, rfl⟩ | ⟨b, hb, d, hd, rfl⟩
  · rw [h.getNeighbors_realPe hb, List.length_map, List.length_range]
  · rw [h.getNeighbors_folded hd, List.length_replicate]

theorem mem_nbrs (hi : i < n) {pe : ℕ} (hpe : pe ∈ (tables (f i)).nbrs t) :
    t < m ∧ ∃ b < K ^ m, i = realPe K (rem K n) b ∧ ∃ c < K, c ≠ digit K t b ∧
      pe = f (realPe K (rem K n) (setDigit K t b c)) := by
  have ht : t < m := by
    rw [← h.length_step2Nbrs htab hi]
    by_contra hlen
    rw [nbrs, List.getD_eq_getElem?_getD, List.getElem?_eq_none (by omega)] at hpe
    cases hpe
  refine ⟨ht, ?_⟩
  rcases h.cases_of_lt hi with ⟨b, hb, rfl⟩ | ⟨b, hb, d, hd, rfl⟩
  · rw [h.nbrs_realPe htab hb ht, List.mem_map] at hpe
    obtain ⟨c, hc, rfl⟩ := hpe
    rw [List.mem_filter, List.mem_range, decide_eq_true_iff] at hc
    exact ⟨b, hb, rfl, c, hc.1, hc.2, rfl⟩
  · rw [htab _ hi, h.getNeighbors_folded hd, nbrs, List.getD_eq_getElem?_getD,
      List.getElem?_replicate, if_pos ht] at hpe
    cases hpe

theorem mem_participants_iff :
    i ∈ participants f n tables ↔ ∃ b < K ^ m, i = realPe K (rem K n) b := by
  constructor
  · rintro ⟨hi, hnone⟩
    rcases h.cases_of_lt hi with hb | ⟨b, -, d, hd, rfl⟩
    · exact hb
    · rw [htab _ hi, h.getNeighbors_folded hd] at hnone
      cases hnone
  · rintro ⟨b, hb, rfl⟩
    have hlt := h.realPe_lt.mpr hb
    refine ⟨hlt, ?_⟩
    rw [htab _ hlt, h.getNeighbors_realPe hb]

theorem sendto_iff_mem_recvfrom (hf : Set.InjOn f (Set.Iio n)) (hi : i < n) (hj : j < n) :
    (tables (f i)).step1Sendto = some (f j) ↔ f i ∈ (tables (f j)).step1Recvfrom := by
  rw [htab i hi, htab j hj]
  constructor
  · intro hsend
    rcases h.cases_of_lt hi with ⟨b, hb, rfl⟩ | ⟨b, hb, d, hd, rfl⟩
    · rw [h.getNeighbors_realPe hb] at hsend
      cases hsend
    · rw [h.getNeighbors_folded hd, some_inj] at hsend
      obtain rfl := hf (h.realPe_lt.mpr hb) hj hsend
      rw [h.getNeighbors_realPe hb]
      exact List.mem_map_of_mem (h.mem_recvfrom_realPe.mpr ⟨d, hd, rfl⟩)
  · intro hrecv
    rcases h.cases_of_lt hj with ⟨b, hb, rfl⟩ | ⟨b, -, d, hd, rfl⟩
    · rw [h.getNeighbors_realPe hb] at hrecv
      obtain ⟨i', hi', heq⟩ := List.mem_map.mp hrecv
      obtain ⟨d, hd, rfl⟩ := h.mem_recvfrom_realPe.mp hi'
      obtain rfl := hf (h.folded_lt hd).2.2 hi heq
      rw [h.getNeighbors_folded hd]
    · rw [h.getNeighbors_folded hd] at hrecv
      cases hrecv

theorem isExchange (hf : Set.InjOn f (Set.Iio n)) :
    IsExchange f n K m (realPe K (rem K n)) tables where
  power_le := h.le
  lt_power := h.lt
  phases _ hi := h.length_step2Nbrs htab hi
  sendto_mem i hi pe hpe := by
    rw [htab i hi] at hpe
    rcases h.cases_of_lt hi with ⟨b, hb, rfl⟩ | ⟨b, hb, d, hd, rfl⟩
    · rw [h.getNeighbors_realPe hb] at hpe
      cases hpe
    · rw [h.getNeighbors_folded hd, some_inj] at hpe
      exact ⟨_, h.realPe_lt.mpr hb, hpe.symm⟩
  recvfrom_mem i hi pe hpe := by
    rw [htab i hi] at hpe
    rcases h.cases_of_lt hi with ⟨b, hb, rfl⟩ | ⟨b, -, d, hd, rfl⟩
    · rw [h.getNeighbors_realPe hb] at hpe
      obtain ⟨j, hj, rfl⟩ := List.mem_map.mp hpe
      obtain ⟨d, hd, rfl⟩ := h.mem_recvfrom_realPe.mp hj
      exact ⟨_, (h.folded_lt hd).2.2, rfl⟩
    · rw [h.getNeighbors_folded hd] at hpe
      cases hpe
  sendto_iff _ hi _ hj := h.sendto_iff_mem_recvfrom htab hf hi hj
  bijOn := by
    refine ⟨?_, h.realPe_injective.injOn, ?_⟩
    · intro b hb
      exact (h.mem_participants_iff htab).mpr ⟨b, hb, rfl⟩
    · intro i hi
      obtain ⟨b, hb, rfl⟩ := (h.mem_participants_iff htab).mp hi
      exact ⟨b, hb, rfl⟩
  nbrs_mem i hi t pe hpe := by
    obtain ⟨ht, b, hb, -, c, hc, -, rfl⟩ := h.mem_nbrs htab hi hpe
    exact ⟨_, (h.mem_participants_iff htab).mpr ⟨_, setDigit_lt hb ht hc, rfl⟩, rfl⟩
  nbrs_symm i hi j hj t hmem := by
    obtain ⟨ht, b, hb, rfl, c, hc, hne, heq⟩ := h.mem_nbrs htab hi hmem
    have hset := setDigit_lt hb ht hc
    obtain rfl := hf hj (h.realPe_lt.mpr hset) heq
    rw [h.nbrs_realPe htab hset ht, List.mem_map]
    refine ⟨digit K t b, ?_, ?_⟩
    · rw [List.mem_filter, List.mem_range, decide_eq_true_iff, digit_setDigit hc]
      exact ⟨Nat.mod_lt _ (by omega), hne.symm⟩
    · rw [setDigit_setDigit hc, setDigit_digit]
  nbrs_irrefl i hi t hmem := by
    obtain ⟨ht, b, hb, rfl, c, hc, hne, heq⟩ := h.mem_nbrs htab hi hmem
    have hset := setDigit_lt hb ht hc
    have hself := h.realPe_injective (hf hi (h.realPe_lt.mpr hset) heq)
    apply hne
    rw [hself, digit_setDigit hc]

theorem held_succ (x : ℕ → A) (hb : b < K ^ m) (ht : t < m) :
    held tables x (t + 1) (f (realPe K (rem K n) b)) =
      ∑ i ∈ range K, held tables x t (f (realPe K (rem K n) (setDigit K t b i))) := by
  have hdigit : digit K t b ∈ range K :=
    mem_range.mpr (Nat.mod_lt _ (by have := h.two_le; omega))
  have hnodup := (List.nodup_range (n := K)).filter fun i => decide (i ≠ digit K t b)
  have herase : ((List.range K).filter fun i => i ≠ digit K t b).toFinset =
      (range K).erase (digit K t b) := by
    ext i
    simp [and_comm]
  rw [held, h.nbrs_realPe htab hb ht, List.map_map, ← List.sum_toFinset _ hnodup, herase,
    ← add_sum_erase _ _ hdigit, setDigit_digit]
  rfl

theorem held_all (x : ℕ → A) (hb : b < K ^ m) :
    held tables x m (f (realPe K (rem K n) b)) = ∑ j ∈ range n, x (f j) := by
  have hW := exchange_all (W := fun t b => held tables x t (f (realPe K (rem K n) b)))
    (by have := h.two_le; omega) (fun t ht b hb => h.held_succ htab x hb ht) hb
  have hstart : ∀ b ∈ range (K ^ m), held tables x 0 (f (realPe K (rem K n) b)) =
      x (f (realPe K (rem K n) b)) +
        ((step1 K (rem K n) (foldBound K n) (realPe K (rem K n) b)).recvfrom.map
          fun j => x (f j)).sum := by
    intro b hb
    have hb := mem_range.mp hb
    rw [held, htab _ (h.realPe_lt.mpr hb), h.getNeighbors_realPe hb, List.map_map]
    rfl
  rw [hW, sum_congr rfl hstart, h.sum_step1 fun j => x (f j)]

end Sized

/-- The tables that the PEs of a team build form a recursive exchange with the reduced radix,
and after its last phase every participant has combined the value of each PE once. -/
theorem getNeighbors_exchange {A : Type*} [AddCommMonoid A] (kval n : ℕ) (hk : 2 ≤ kval)
    (hn : 1 ≤ n) (hf : Set.InjOn f (Set.Iio n)) (tables : ℕ → RecExch)
    (htab : ∀ i < n, tables (f i) = getNeighbors f kval n i) :
    ∃ m, IsExchange f n (effectiveK n kval) m
        (realPe (effectiveK n kval) (rem (effectiveK n kval) n)) tables ∧
      ∀ x : ℕ → A, ∀ i ∈ participants f n tables,
        held tables x m (f i) = ∑ j ∈ range n, x (f j) := by
  have h := sized_log hk hn
  refine ⟨_, h.isExchange htab hf, ?_⟩
  intro x i hi
  obtain ⟨b, hb, rfl⟩ := (h.mem_participants_iff htab).mp hi
  exact h.held_all htab x hb

/-- Six PEs in steps of three: one full set, one partial set and one phase. -/
theorem getNeighbors_exchange_six :
    ∃ m, IsExchange (fun i => 2 + 3 * i) 6 3 m (realPe 3 (rem 3 6))
        (fun pe => getNeighbors (fun i => 2 + 3 * i) 3 6 ((pe - 2) / 3)) ∧
      ∀ x : ℕ → Multiset ℕ, ∀ i ∈ participants (fun i => 2 + 3 * i) 6
          (fun pe => getNeighbors (fun i => 2 + 3 * i) 3 6 ((pe - 2) / 3)),
        held (fun pe => getNeighbors (fun i => 2 + 3 * i) 3 6 ((pe - 2) / 3)) x m (2 + 3 * i) =
          ∑ j ∈ range 6, x (2 + 3 * j) := by
  have hf : Set.InjOn (fun i => 2 + 3 * i) (Set.Iio 6) := by
    intro i _ j _ hij
    have : 2 + 3 * i = 2 + 3 * j := hij
    omega
  refine getNeighbors_exchange (A := Multiset ℕ) 3 6 (by decide) (by decide) hf _ ?_
  intro i _
  have hi : (2 + 3 * i - 2) / 3 = i := by omega
  rw [hi]

/-- With three PEs and radix four all PEs take part, although `4 ^ 0` is the largest power
of four that is not above three. -/
theorem radix_above_team_size :
    4 ^ 0 ≤ 3 ∧ 3 < 4 ^ 1 ∧
      ¬ ∃ number, Set.BijOn number (Set.Iio (4 ^ 0)) (participants id 3 (getNeighbors id 4 3)) := by
  refine ⟨by decide, by decide, ?_⟩
  rintro ⟨number, -, -, hsurj⟩
  have hall : ∀ i < 3, (getNeighbors id 4 3 (id i)).step1Sendto = none := by decide
  obtain ⟨a, ha, ha0⟩ := hsurj (show 0 ∈ _ from ⟨by decide, hall 0 (by decide)⟩)
  obtain ⟨b, hb, hb1⟩ := hsurj (show 1 ∈ _ from ⟨by decide, hall 1 (by decide)⟩)
  obtain rfl : a = 0 := Nat.lt_one_iff.mp ha
  obtain rfl : b = 0 := Nat.lt_one_iff.mp hb
  omega

end Tables

end Nvshmem.RecExch
