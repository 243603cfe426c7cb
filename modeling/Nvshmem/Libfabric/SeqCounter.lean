import Mathlib

/-! # The sequence numbers of put-signals

An endpoint numbers its put-signals with 28 bits. The top bit of a number is its category. The
numbers of a category are given out again when all of its earlier numbers have been acknowledged,
so a counter for each category is enough to keep the unacknowledged numbers apart.
-/

namespace Nvshmem.Libfabric

open Function Finset Nat

/-- `NVSHMEM_STAGED_AMO_PUT_SIGNAL_SEQ_CNTR_BIT_SHIFT` -/
def seqCntrBitShift : ℕ := 28

/-- `NVSHMEM_STAGED_AMO_PUT_SIGNAL_SEQ_CNTR_BIT_MASK` -/
def sequenceMask : ℕ := 2 ^ 28 - 1

/-- `NVSHMEM_STAGED_AMO_SEQ_NUM`, the number of atomics that are not part of a put-signal. -/
def stagedAmoSeqNum : ℕ := sequenceMask

def numIndexBits : ℕ := 27

def indexMask : ℕ := 2 ^ 27 - 1

def categoryMask : ℕ := 2 ^ 27

def getCategory (seqNum : ℕ) : ℕ := (seqNum &&& categoryMask) >>> numIndexBits

def getIndex (seqNum : ℕ) : ℕ := seqNum &&& indexMask

/-- `nvshmemt_libfabric_endpoint_seq_counter_t` -/
structure SeqCounter where
  sequenceCounter : ℕ
  pendingAcks : ℕ → ℕ

namespace SeqCounter

def reset : SeqCounter := ⟨0, fun _ => 0⟩

def skipReserved (c : SeqCounter) : SeqCounter :=
  if c.sequenceCounter = stagedAmoSeqNum then
    { c with sequenceCounter := (c.sequenceCounter + 1) &&& sequenceMask }
  else c

/-- The counter after the call, and the number unless none is available. -/
def nextSeqNum (c : SeqCounter) : SeqCounter × Option ℕ :=
  let c := c.skipReserved
  let seqNum := c.sequenceCounter
  let category := getCategory seqNum
  if getIndex seqNum = 0 ∧ c.pendingAcks category ≠ 0 then (c, none)
  else
    ({ sequenceCounter := (seqNum + 1) &&& sequenceMask,
       pendingAcks := update c.pendingAcks category (c.pendingAcks category + 1) },
      some seqNum)

def returnAckedSeqNum (c : SeqCounter) (seqNum : ℕ) : SeqCounter :=
  let category := getCategory seqNum
  { c with pendingAcks := update c.pendingAcks category (c.pendingAcks category - 1) }

end SeqCounter

theorem and_sequenceMask (n : ℕ) : n &&& sequenceMask = n % 2 ^ 28 :=
  and_two_pow_sub_one_eq_mod n 28

theorem getIndex_eq (n : ℕ) : getIndex n = n % 2 ^ 27 := and_two_pow_sub_one_eq_mod n 27

theorem getCategory_eq {n : ℕ} (hn : n < 2 ^ 28) : getCategory n = n / 2 ^ 27 := by
  have hlt : n / 2 ^ 27 < 2 := by omega
  rw [getCategory, numIndexBits, categoryMask, shiftRight_and_distrib,
    shiftRight_eq_div_pow, shiftRight_eq_div_pow]
  generalize n / 2 ^ 27 = q at hlt
  interval_cases q <;> decide

namespace SeqCounter

structure Fits (c : SeqCounter) (live : Finset ℕ) : Prop where
  counter_lt : c.sequenceCounter < 2 ^ 28
  live_lt : ∀ q ∈ live, q < stagedAmoSeqNum
  pendingAcks_eq : ∀ category,
    c.pendingAcks category = (live.filter fun q => getCategory q = category).card
  /-- The numbers of the current category are given out upwards. -/
  lt_counter : getIndex c.sequenceCounter ≠ 0 →
    ∀ q ∈ live, getCategory q = getCategory c.sequenceCounter → q < c.sequenceCounter

variable {c c' : SeqCounter} {live : Finset ℕ} {q : ℕ}

theorem fits_reset : reset.Fits ∅ where
  counter_lt := by decide
  live_lt := by simp
  pendingAcks_eq := by simp [reset]
  lt_counter := by simp

theorem Fits.skipReserved (h : c.Fits live) :
    c.skipReserved.Fits live ∧ c.skipReserved.sequenceCounter < stagedAmoSeqNum := by
  have hlt := h.counter_lt
  unfold SeqCounter.skipReserved
  split_ifs with hc
  · have hzero : (c.sequenceCounter + 1) &&& sequenceMask = 0 := by rw [hc]; decide
    refine ⟨⟨?_, h.live_lt, h.pendingAcks_eq, ?_⟩, ?_⟩
    · simp only [hzero]
      decide
    · simp only [hzero]
      exact fun hne => absurd (by decide) hne
    · simp only [hzero]
      decide
  · refine ⟨h, ?_⟩
    have : stagedAmoSeqNum = 2 ^ 28 - 1 := rfl
    omega

theorem Fits.notMem (h : c.Fits live)
    (hindex : getIndex c.sequenceCounter = 0 → c.pendingAcks (getCategory c.sequenceCounter) = 0) :
    c.sequenceCounter ∉ live := by
  intro hmem
  by_cases hzero : getIndex c.sequenceCounter = 0
  · have hcard := h.pendingAcks_eq (getCategory c.sequenceCounter)
    rw [hindex hzero, eq_comm, Finset.card_eq_zero, Finset.filter_eq_empty_iff] at hcard
    exact hcard hmem rfl
  · exact absurd (h.lt_counter hzero _ hmem rfl) (lt_irrefl _)

theorem Fits.advance (h : c.Fits live) (hlt : c.sequenceCounter < stagedAmoSeqNum)
    (hindex : getIndex c.sequenceCounter = 0 → c.pendingAcks (getCategory c.sequenceCounter) = 0) :
    Fits ⟨(c.sequenceCounter + 1) &&& sequenceMask,
      update c.pendingAcks (getCategory c.sequenceCounter)
        (c.pendingAcks (getCategory c.sequenceCounter) + 1)⟩ (insert c.sequenceCounter live) := by
  have hnew := h.notMem hindex
  have hmask : stagedAmoSeqNum = 2 ^ 28 - 1 := rfl
  have hsucc : (c.sequenceCounter + 1) &&& sequenceMask = c.sequenceCounter + 1 := by
    rw [and_sequenceMask, Nat.mod_eq_of_lt (by omega)]
  rw [hsucc]
  refine ⟨by dsimp only; omega, ?_, ?_, ?_⟩
  · intro q hq
    rcases Finset.mem_insert.mp hq with rfl | hq
    · exact hlt
    · exact h.live_lt q hq
  · intro category
    dsimp only
    rw [Finset.filter_insert]
    by_cases hc : getCategory c.sequenceCounter = category
    · subst hc
      rw [if_pos rfl, Finset.card_insert_of_notMem (fun hm => hnew (Finset.mem_filter.mp hm).1),
        update_self, h.pendingAcks_eq]
    · rw [if_neg hc, update_of_ne (Ne.symm hc), h.pendingAcks_eq]
  · intro hne q hq hcat
    dsimp only at hne hcat ⊢
    rcases Finset.mem_insert.mp hq with rfl | hq
    · omega
    · -- The next number is of the same category, unless it is the first of its own.
      rw [getCategory_eq (by omega : c.sequenceCounter + 1 < 2 ^ 28)] at hcat
      rw [getIndex_eq] at hne
      have hsame : getCategory q = getCategory c.sequenceCounter := by
        rw [getCategory_eq (by omega : c.sequenceCounter < 2 ^ 28), hcat]
        omega
      by_cases hzero : getIndex c.sequenceCounter = 0
      · have hcard := h.pendingAcks_eq (getCategory c.sequenceCounter)
        rw [hindex hzero, eq_comm, Finset.card_eq_zero, Finset.filter_eq_empty_iff] at hcard
        exact absurd hsame (hcard hq)
      · exact (h.lt_counter hzero q hq hsame).trans (Nat.lt_succ_self _)

theorem Fits.nextSeqNum_some (h : c.Fits live) (hnext : c.nextSeqNum = (c', some q)) :
    q ∉ live ∧ q < stagedAmoSeqNum ∧ c'.Fits (insert q live) := by
  obtain ⟨hskip, hlt⟩ := h.skipReserved
  unfold nextSeqNum at hnext
  dsimp only at hnext
  split_ifs at hnext with hnone
  · cases hnext
  cases hnext
  have hindex : getIndex c.skipReserved.sequenceCounter = 0 →
      c.skipReserved.pendingAcks (getCategory c.skipReserved.sequenceCounter) = 0 := by
    intro hzero
    by_contra hpending
    exact hnone ⟨hzero, hpending⟩
  exact ⟨hskip.notMem hindex, hlt, hskip.advance hlt hindex⟩

theorem Fits.nextSeqNum_none (h : c.Fits live) (hnext : c.nextSeqNum = (c', none)) :
    c'.Fits live := by
  unfold nextSeqNum at hnext
  dsimp only at hnext
  split_ifs at hnext
  · cases hnext
    exact h.skipReserved.1
  · cases hnext

theorem Fits.returnAckedSeqNum (h : c.Fits live) (hq : q ∈ live) :
    (c.returnAckedSeqNum q).Fits (live.erase q) where
  counter_lt := h.counter_lt
  live_lt p hp := h.live_lt p (mem_of_mem_erase hp)
  pendingAcks_eq category := by
    show update c.pendingAcks (getCategory q) _ category = _
    rw [filter_erase]
    by_cases hc : category = getCategory q
    · subst hc
      have hmem : q ∈ live.filter fun p => getCategory p = getCategory q :=
        mem_filter.mpr ⟨hq, rfl⟩
      rw [card_erase_of_mem hmem, update_self, h.pendingAcks_eq]
    · have hnot : q ∉ live.filter fun p => getCategory p = category :=
        fun hmem => hc (mem_filter.mp hmem).2.symm
      rw [erase_eq_of_notMem hnot, update_of_ne hc, h.pendingAcks_eq]
  lt_counter hne p hp := h.lt_counter hne p (mem_of_mem_erase hp)

end SeqCounter

end Nvshmem.Libfabric
