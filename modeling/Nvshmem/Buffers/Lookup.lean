import Nvshmem.Buffers.Cache
import Nvshmem.Lists.Bracket

/-! # The lookup of a registered buffer

The search keeps a range of indices, both of which it includes, although it starts with the length
of the array as the larger one. Entries before the range end at or before the address, and entries
after it start behind the address.
-/

namespace Nvshmem.Buffers

open Intervals Lists Option List

variable {H : Type} {buffers : List (LocalBufHandle H)} {e e' : LocalBufHandle H}
  {addr len i j : ℕ}

/-- Buffers that lie in the address space, in the order of their addresses and without overlap. -/
structure Ordered (buffers : List (LocalBufHandle H)) : Prop where
  valid : ∀ e ∈ buffers, 0 < e.length ∧ e.ptr + e.length < 2 ^ 64
  sorted : buffers.Pairwise fun e e' => e.ptr < e'.ptr
  disjoint : buffers.Pairwise fun e e' => Apart e.range e'.range

namespace Ordered

variable (h : Ordered buffers)
include h

theorem maxAddr_eq (he : e ∈ buffers) : e.maxAddr = e.ptr + e.length :=
  Nat.mod_eq_of_lt (h.valid e he).2

theorem pairwise_le : buffers.Pairwise fun e e' => e.ptr + e.length ≤ e'.ptr := by
  refine (h.sorted.and h.disjoint).imp_of_mem fun {e e'} he he' hee' => ?_
  rcases hee'.2 with hapart | hapart
  · exact hapart
  · simp only [LocalBufHandle.range] at hapart
    omega

theorem add_length_le (hi : buffers[i]? = some e) (hj : buffers[j]? = some e') (hij : i < j) :
    e.ptr + e.length ≤ e'.ptr := by
  obtain ⟨hilt, rfl⟩ := List.getElem?_eq_some_iff.mp hi
  obtain ⟨hjlt, rfl⟩ := List.getElem?_eq_some_iff.mp hj
  exact pairwise_iff_getElem.mp h.pairwise_le i j hilt hjlt hij

theorem eq_of_contains (he : e ∈ buffers) (he' : e' ∈ buffers) (hc : e.Contains addr)
    (hc' : e'.Contains addr) : e = e' := by
  obtain ⟨i, hi⟩ := getElem?_of_mem he
  obtain ⟨j, hj⟩ := getElem?_of_mem he'
  obtain ⟨hle, hlt⟩ := hc
  obtain ⟨hle', hlt'⟩ := hc'
  rcases Nat.lt_trichotomy i j with hij | rfl | hji
  · have := h.add_length_le hi hj hij
    omega
  · exact some.inj (hi.symm.trans hj)
  · have := h.add_length_le hj hi hji
    omega

theorem below_of_le (hj : buffers[j]? = some e) (hend : e.ptr + e.length ≤ addr) :
    ∀ i e', buffers[i]? = some e' → i ≤ j → e'.ptr + e'.length ≤ addr := by
  intro i e' hi hij
  rcases hij.lt_or_eq with hlt | rfl
  · have := h.add_length_le hi hj hlt
    omega
  · exact some.inj (hi.symm.trans hj) ▸ hend

theorem above_of_le (hj : buffers[j]? = some e) (hstart : addr < e.ptr) :
    ∀ i e', buffers[i]? = some e' → j ≤ i → addr < e'.ptr := by
  intro i e' hi hij
  rcases hij.lt_or_eq with hlt | rfl
  · have := h.add_length_le hj hi hlt
    omega
  · exact some.inj (hi.symm.trans hj) ▸ hstart

end Ordered

/-- The result is the handle of the buffer that contains the address, with the bytes up to its end,
or there is no such buffer. -/
def Found (buffers : List (LocalBufHandle H)) (addr len : ℕ) (r : Option H × ℕ) : Prop :=
  (∃ e ∈ buffers, e.Contains addr ∧ r = (some e.handle, min len (e.ptr + e.length - addr))) ∨
    (∀ e ∈ buffers, ¬ e.Contains addr) ∧ r = (none, len)

abbrev Unseen (buffers : List (LocalBufHandle H)) (addr lo hi : ℕ) : Prop :=
  Bracket buffers (fun e => e.ptr + e.length ≤ addr) (fun e => addr < e.ptr) lo hi

theorem Unseen.not_contains {lo hi : ℕ} (h : Unseen buffers addr lo hi) (hlt : hi < lo) :
    ∀ e ∈ buffers, ¬ e.Contains addr := by
  rintro e he ⟨hle, hlt'⟩
  rcases h.of_lt hlt he with hbelow | habove
  · omega
  · omega

theorem searchBuffers_found (h : Ordered buffers) {fuel lo hi : ℕ}
    (hunseen : Unseen buffers addr lo hi) (hle : lo ≤ hi) (hhi : hi ≤ buffers.length)
    (hfuel : hi < fuel + lo) :
    ∃ r, searchBuffers buffers addr len fuel lo hi = .ok r ∧ Found buffers addr len r := by
  induction fuel generalizing lo hi with
  | zero => omega
  | succ fuel ih =>
    rw [searchBuffers, if_neg hle.not_gt]
    have hmid : lo ≤ (hi - lo) / 2 + lo ∧ (hi - lo) / 2 + lo ≤ hi := by omega
    generalize hm : (hi - lo) / 2 + lo = mid at hmid
    by_cases hend : buffers.length ≤ mid
    · -- the range is the index after the last buffer
      rw [if_pos hend]
      refine ⟨_, rfl, .inr ⟨?_, rfl⟩⟩
      rintro e he ⟨-, hlt⟩
      obtain ⟨i, hi'⟩ := getElem?_of_mem he
      have hilt := (List.getElem?_eq_some_iff.mp hi').1
      have := hunseen.before i e hi' (by omega)
      omega
    · rw [if_neg hend]
      obtain ⟨e, he⟩ : ∃ e, buffers[mid]? = some e :=
        ⟨_, getElem?_eq_getElem (not_le.mp hend)⟩
      have hmem := mem_of_getElem? he
      simp only [he, h.maxAddr_eq hmem]
      have hpos := (h.valid e hmem).1
      by_cases hptr : e.ptr < addr
      · rw [if_pos hptr]
        by_cases hin : addr < e.ptr + e.length
        · rw [if_pos hin]
          exact ⟨_, rfl, .inl ⟨e, hmem, ⟨hptr.le, hin⟩, rfl⟩⟩
        · rw [if_neg hin]
          have hright := hunseen.right (h.below_of_le he (not_lt.mp hin))
          by_cases hgo : mid + 1 ≤ hi
          · rw [if_pos hgo]
            exact ih hright hgo hhi (by omega)
          · rw [if_neg hgo]
            exact ⟨_, rfl, .inr ⟨Unseen.not_contains hright (not_le.mp hgo), rfl⟩⟩
      · rw [if_neg hptr]
        by_cases heq : addr = e.ptr
        · rw [if_pos heq]
          refine ⟨_, rfl, .inl ⟨e, hmem, ⟨heq.ge, by omega⟩, ?_⟩⟩
          rw [heq, Nat.add_sub_cancel_left]
        · rw [if_neg heq]
          have hstart : addr < e.ptr := by omega
          have habove := h.above_of_le he hstart
          by_cases hzero : mid = 0
          · rw [if_pos hzero]
            refine ⟨_, rfl, .inr ⟨?_, rfl⟩⟩
            rintro e' he' ⟨hle', -⟩
            obtain ⟨i, hi'⟩ := getElem?_of_mem he'
            have := habove i e' hi' (by omega)
            omega
          · rw [if_neg hzero]
            have hleft := hunseen.left habove
            by_cases hgo : lo ≤ mid - 1
            · rw [if_pos hgo]
              exact ih hleft hgo (by omega) (by omega)
            · rw [if_neg hgo]
              exact ⟨_, rfl, .inr ⟨Unseen.not_contains hleft (not_le.mp hgo), rfl⟩⟩

theorem getRegisteredBufferHandle_found (h : Ordered buffers) (addr len : ℕ) :
    ∃ r, getRegisteredBufferHandle buffers addr len = .ok r ∧ Found buffers addr len r := by
  rw [getRegisteredBufferHandle]
  by_cases hempty : buffers.length = 0
  · obtain rfl := length_eq_zero_iff.mp hempty
    exact ⟨_, rfl, .inr ⟨fun _ he => absurd he not_mem_nil, rfl⟩⟩
  · rw [if_neg hempty]
    exact searchBuffers_found h .init (Nat.zero_le _) le_rfl (by omega)

/-- The search ends without leaving the array or the range of its indices. It returns a handle
exactly if the address is in a buffer, namely the handle of this buffer, and the length up to the
end of the buffer if that is less than the one asked for. -/
theorem getRegisteredBufferHandle_correct (buffers : List (LocalBufHandle H)) (h : Ordered buffers)
    (addr len : ℕ) : ∃ r, getRegisteredBufferHandle buffers addr len = .ok r ∧
      (r.1.isSome ↔ ∃ e ∈ buffers, e.Contains addr) ∧
      (∀ e ∈ buffers, e.Contains addr →
        r = (some e.handle, min len (e.ptr + e.length - addr))) ∧
      ((∀ e ∈ buffers, ¬ e.Contains addr) → r = (none, len)) := by
  obtain ⟨r, hr, hfound⟩ := getRegisteredBufferHandle_found h addr len
  refine ⟨r, hr, ?_⟩
  rcases hfound with ⟨e, he, hc, rfl⟩ | ⟨hnone, rfl⟩
  · refine ⟨⟨fun _ => ⟨e, he, hc⟩, fun _ => rfl⟩, ?_, fun hnone => absurd hc (hnone e he)⟩
    intro e' he' hc'
    rw [h.eq_of_contains he he' hc hc']
  · refine ⟨⟨fun hsome => absurd hsome Bool.false_ne_true, ?_⟩, ?_, fun _ => rfl⟩
    · rintro ⟨e, he, hc⟩
      exact absurd hc (hnone e he)
    · exact fun e he hc => absurd hc (hnone e he)

def twoBuffers : List (LocalBufHandle ℕ) :=
  [⟨4096, 512, 7, false, false, false⟩, ⟨8192, 1024, 8, false, false, false⟩]

theorem ordered_twoBuffers : Ordered twoBuffers :=
  ⟨by decide, by decide, by decide⟩

theorem getRegisteredBufferHandle_twoBuffers : Ordered twoBuffers ∧
    ∃ r, getRegisteredBufferHandle twoBuffers 8200 4096 = .ok r ∧ r = (some 8, 1016) := by
  refine ⟨ordered_twoBuffers, ?_⟩
  obtain ⟨r, hr, -, hin, -⟩ :=
    getRegisteredBufferHandle_correct twoBuffers ordered_twoBuffers 8200 4096
  exact ⟨r, hr, hin _ (mem_cons_of_mem _ mem_cons_self) (by decide)⟩

end Nvshmem.Buffers
