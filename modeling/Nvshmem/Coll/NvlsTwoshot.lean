import Nvshmem.Bits.Wrap
import Nvshmem.Coll.Mcast

/-! # NVLS two-shot allreduce

Each PE of the team reduces one slice of the elements and stores it to all PEs through multicast
addresses. We settle for which calls every element is in exactly one PE's accesses.
-/

namespace Nvshmem.NvlsTwoshot

open Mcast Wrap Nat

inductive DType
  | float
  | half
  | bfloat16
deriving DecidableEq, Repr

def DType.sizeof : DType → ℕ
  | .float => 4
  | .half => 2
  | .bfloat16 => 2

def DType.isHalfPrec : DType → Bool
  | .float => false
  | .half => true
  | .bfloat16 => true

/-- A call of `nvshmemi_reduce_threadgroup`. The heap and its multicast mapping start at multiples
of the allocation granularity, of which 16 bytes is what matters here. -/
structure Call where
  dtype : DType
  op : RdxnOp
  reduceAlgo : ℕ
  reduceNvlsThreshold : ℕ
  hasNvlsRsc : Bool
  size : ℕ
  groupSize : ℕ
  nreduce : ℕ
  heapBase : ℕ
  mcBase : ℕ
  dest : ℕ
  source : ℕ
  size_pos : 0 < size
  size_lt : size < 2 ^ 31
  groupSize_pos : 0 < groupSize
  heapBase_aligned : 16 ∣ heapBase
  mcBase_aligned : 16 ∣ mcBase
  heapBase_le_dest : heapBase ≤ dest
  heapBase_le_source : heapBase ≤ source

namespace Call

variable (c : Call)

def isNvlsAlgoSupported : Bool :=
  c.op = .sum && c.hasNvlsRsc && c.nreduce * c.dtype.sizeof % 4 = 0

def isInplaceOp : Bool := c.source = c.dest

def isOneShotSupported : Bool :=
  c.isNvlsAlgoSupported && !(c.dtype.isHalfPrec && c.nreduce = 1) && !c.isInplaceOp

def isTwoShotSupported : Bool :=
  c.isNvlsAlgoSupported &&
    !(c.dtype.isHalfPrec && (c.nreduce ≤ c.size || 0 < c.nreduce % c.size))

/-- The algorithm that `nvshmemi_reduce_threadgroup` takes: 3 is two-shot, 4 is one-shot. -/
def algo : ℕ :=
  match c.reduceAlgo with
  | 0 | 1 | 2 =>
    if c.nreduce ≤ c.reduceNvlsThreshold && c.isOneShotSupported then 4
    else if c.isTwoShotSupported then 3
    else 0
  | 3 => if c.isTwoShotSupported then 3 else 0
  | 4 => if c.isOneShotSupported then 4 else 0
  | algo => algo

def elemsPerPe : ℤ := toInt (c.nreduce / c.size : ℕ)

def elemsRemain : ℤ := toInt (c.nreduce % c.size : ℕ)

def myNelems (pe : ℕ) : ℤ :=
  if pe = c.size - 1 then toInt (c.elemsPerPe + c.elemsRemain) else c.elemsPerPe

def sliceStart (pe : ℕ) : ℤ := toInt (c.elemsPerPe * pe)

/-- `nvshmemi_mc_ptr` for an address in the heap. -/
def mcPtr (ptr : ℤ) : ℕ := (c.mcBase + (ptr - c.heapBase)).toNat

/-- `nvshmemi_add_reduce_mcast_threadroup` on the slice that starts at an element. -/
def addReduceMcast (start : ℤ) (nreduce : ℕ) : List Access :=
  stages c.groupSize (c.mcPtr (c.dest + start * c.dtype.sizeof))
    (c.mcPtr (c.source + start * c.dtype.sizeof)) [16, 8, 4] 0 (nreduce * c.dtype.sizeof)

/-- `nvshmemi_add_reduce_nvls_twoshot_threadgroup`: the accesses of one PE, relative to the start of
its slice. -/
def twoshot (pe : ℕ) : List Access :=
  if 0 < c.myNelems pe then c.addReduceMcast (c.sliceStart pe) (c.myNelems pe).toNat else []

def Stores (pe e : ℕ) : Prop :=
  ∃ a ∈ c.twoshot pe, c.sliceStart pe * c.dtype.sizeof + a.offset ≤ e * c.dtype.sizeof ∧
    ((e + 1 : ℕ) : ℤ) * c.dtype.sizeof ≤ c.sliceStart pe * c.dtype.sizeof + a.offset + a.width

def Covered : Prop := ∀ e < c.nreduce, ∃! pe, pe < c.size ∧ c.Stores pe e

/-- No `int` of the division among the PEs overflows, and the slices are whole words. -/
def Divided : Prop :=
  c.nreduce / c.size * (c.size - 1) < 2 ^ 31 ∧
    c.nreduce / c.size + c.nreduce % c.size < 2 ^ 31 ∧
    4 ∣ c.nreduce / c.size * c.dtype.sizeof

end Call

namespace Call

variable {c : Call} {pe e : ℕ}

theorem sizeof_cases : c.dtype.sizeof = 4 ∨ c.dtype.sizeof = 2 := by
  cases c.dtype <;> simp [DType.sizeof]

theorem isTwoShotSupported_of_algo (h : c.algo = 3) : c.isTwoShotSupported = true := by
  rw [algo] at h
  split at h <;> first | (split at h <;> simp_all) | simp_all

theorem half_of_algo (h : c.algo = 3) (hhalf : c.dtype.sizeof = 2) :
    c.size < c.nreduce ∧ c.nreduce % c.size = 0 := by
  have htwo := isTwoShotSupported_of_algo h
  have hprec : c.dtype.isHalfPrec = true := by
    cases hd : c.dtype <;> simp_all [DType.sizeof, DType.isHalfPrec]
  simp only [isTwoShotSupported, hprec, Bool.and_eq_true, Bool.true_and, Bool.not_eq_true',
    Bool.or_eq_false_iff, decide_eq_false_iff_not] at htwo
  omega

theorem elemsRemain_eq : c.elemsRemain = (c.nreduce % c.size : ℕ) := by
  have hlt := mod_lt c.nreduce c.size_pos
  have hsize := c.size_lt
  exact toInt_natCast (by omega)

theorem quotient_mul_size : c.nreduce / c.size * c.size =
    c.nreduce / c.size * (c.size - 1) + c.nreduce / c.size := by
  rw [← mul_succ, succ_eq_add_one, Nat.sub_add_cancel c.size_pos]

theorem slice_of_stores (h : c.Stores pe e) :
    0 < c.myNelems pe ∧ c.sliceStart pe ≤ e ∧ (e : ℤ) + 1 ≤ c.sliceStart pe + c.myNelems pe := by
  obtain ⟨a, ha, hlo, hhi⟩ := h
  rw [twoshot] at ha
  split at ha
  · next hpos =>
    obtain ⟨-, -, -, -, hend⟩ := bounds_of_mem_stages c.groupSize_pos ha
    refine ⟨hpos, ?_, ?_⟩
    · obtain hs | hs := c.sizeof_cases <;> simp only [hs] at hlo <;> push_cast at hlo <;> omega
    · obtain hs | hs := c.sizeof_cases <;> simp only [hs] at hhi hend <;>
        push_cast at hhi <;> omega
  · simp at ha

theorem divided_of_stores_last (hn : 0 < c.nreduce) (hpe : pe < c.size)
    (h : c.Stores pe (c.nreduce - 1)) :
    c.nreduce / c.size * (c.size - 1) < 2 ^ 31 ∧
      c.nreduce / c.size + c.nreduce % c.size < 2 ^ 31 := by
  obtain ⟨hpos, -, hend⟩ := slice_of_stores h
  have hdiv := div_add_mod' c.nreduce c.size
  have hr := mod_lt c.nreduce c.size_pos
  have hsize := c.size_lt
  rw [myNelems] at hpos hend
  rw [sliceStart] at hend
  set q := c.nreduce / c.size
  set r := c.nreduce % c.size with hr'
  have hv : c.elemsPerPe ≤ q := toInt_le (Int.natCast_nonneg _)
  split at hpos
  · next hlast =>
    rw [elemsRemain_eq] at hend
    rw [elemsRemain_eq] at hpos
    rw [← hr'] at hend hpos
    subst hlast
    have hqsize : q * c.size = q * (c.size - 1) + q := quotient_mul_size
    have hstart : toInt (c.elemsPerPe * ((c.size - 1 : ℕ) : ℤ)) < 2 ^ 31 := toInt_lt
    have hlen : toInt (c.elemsPerPe + r) < 2 ^ 31 := toInt_lt
    have hqlt : q < 2 ^ 31 := by
      by_contra hge
      push Not at hge
      -- two slices would be needed for the elements that one slice cannot address
      obtain hone | htwo : c.size = 1 ∨ 2 ≤ c.size := by
        omega
      · rw [hone, cast_zero, mul_zero] at hend
        have hzero : toInt 0 = 0 := toInt_natCast (n := 0) (by norm_num)
        omega
      · have hbig : 2 ^ 31 * 2 ≤ q * c.size := Nat.mul_le_mul hge htwo
        omega
    rw [show c.elemsPerPe = q from toInt_natCast hqlt, ← cast_add] at hend hpos hlen
    rw [← cast_mul] at hend
    have hlen' : q + r < 2 ^ 31 := by
      by_contra hge
      push Not at hge
      have := toInt_natCast_le_sub hge
      omega
    refine ⟨?_, hlen'⟩
    by_contra hge
    push Not at hge
    have hsub := toInt_natCast_le_sub hge
    rw [toInt_natCast hlen'] at hend
    omega
  · -- another PE's slice ends before the last element
    next hlast =>
    rw [if_neg hlast] at hend
    have hle : toInt (c.elemsPerPe * pe) ≤ c.elemsPerPe * pe :=
      toInt_le (mul_nonneg hpos.le (Int.natCast_nonneg pe))
    have hmul : c.elemsPerPe * pe + c.elemsPerPe ≤ q * c.size - q := by
      have hpe' : (pe : ℤ) + 1 ≤ c.size - 1 := by omega
      nlinarith
    omega

variable (hroute : c.algo = 3) (hd : 16 ∣ c.dest) (hs : 16 ∣ c.source)

theorem mcPtr_aligned (c : Call) {ptr : ℕ} {x : ℤ} (hp : 16 ∣ ptr) (h4 : 4 ∣ x) :
    4 ∣ c.mcPtr (ptr + x) := by
  have hheap := c.heapBase_aligned
  have hmc := c.mcBase_aligned
  rw [mcPtr]
  omega

section Exact

variable (hq : c.nreduce / c.size * (c.size - 1) < 2 ^ 31)
  (hlen : c.nreduce / c.size + c.nreduce % c.size < 2 ^ 31)

include hlen

theorem elemsPerPe_eq : c.elemsPerPe = (c.nreduce / c.size : ℕ) := toInt_natCast (by omega)

theorem myNelems_eq : c.myNelems pe =
    (c.nreduce / c.size + if pe = c.size - 1 then c.nreduce % c.size else 0 : ℕ) := by
  rw [myNelems, elemsPerPe_eq hlen, elemsRemain_eq]
  split
  · rw [← cast_add, toInt_natCast hlen]
  · simp

theorem exists_slice (he : e < c.nreduce) : ∃ pe < c.size, c.nreduce / c.size * pe ≤ e ∧
    e < c.nreduce / c.size * pe + (c.myNelems pe).toNat := by
  have hdiv := div_add_mod' c.nreduce c.size
  rw [quotient_mul_size] at hdiv
  have hpos := c.size_pos
  by_cases hlast : c.nreduce / c.size * (c.size - 1) ≤ e
  · refine ⟨c.size - 1, by omega, hlast, ?_⟩
    rw [myNelems_eq hlen, if_pos rfl, Int.toNat_natCast]
    omega
  · push Not at hlast
    have hqpos : 0 < c.nreduce / c.size := Nat.pos_of_ne_zero fun h => by simp [h] at hlast
    have hlt : e / (c.nreduce / c.size) < c.size - 1 := by
      rw [Nat.div_lt_iff_lt_mul hqpos, Nat.mul_comm]
      exact hlast
    refine ⟨e / (c.nreduce / c.size), by omega, mul_div_le e _, ?_⟩
    rw [myNelems_eq hlen, if_neg (by omega), Int.toNat_natCast, Nat.add_zero]
    exact lt_mul_div_succ e hqpos

include hq

theorem sliceStart_eq (hpe : pe < c.size) : c.sliceStart pe = (c.nreduce / c.size * pe : ℕ) := by
  rw [sliceStart, elemsPerPe_eq hlen]
  have hle : c.nreduce / c.size * pe ≤ c.nreduce / c.size * (c.size - 1) :=
    Nat.mul_le_mul_left _ (by omega)
  exact toInt_natCast (by omega)

theorem pe_unique {pe' : ℕ} (hpe : pe < c.size) (hpe' : pe' < c.size) (h : c.Stores pe e)
    (h' : c.Stores pe' e) : pe = pe' := by
  have key : ∀ {x y : ℕ}, x < c.size → y < c.size → c.Stores x e → c.Stores y e → ¬ x < y := by
    intro x y hx hy hsx hsy hxy
    obtain ⟨-, -, hend⟩ := slice_of_stores hsx
    obtain ⟨-, hstart, -⟩ := slice_of_stores hsy
    rw [sliceStart_eq hq hlen hx, myNelems_eq hlen, if_neg (by omega)] at hend
    rw [sliceStart_eq hq hlen hy] at hstart
    have hle : c.nreduce / c.size * (x + 1) ≤ c.nreduce / c.size * y := Nat.mul_le_mul_left _ hxy
    rw [Nat.mul_add, Nat.mul_one] at hle
    omega
  rcases lt_trichotomy pe pe' with hlt | rfl | hlt
  · exact absurd hlt (key hpe hpe' h h')
  · rfl
  · exact absurd hlt (key hpe' hpe h' h)

include hd hs

theorem stores_of_slice (h4 : 4 ∣ c.nreduce / c.size * c.dtype.sizeof)
    (hn4 : 4 ∣ c.nreduce * c.dtype.sizeof) (hpe : pe < c.size)
    (hlo : c.nreduce / c.size * pe ≤ e)
    (hhi : e < c.nreduce / c.size * pe + (c.myNelems pe).toNat) : c.Stores pe e := by
  set start := c.nreduce / c.size * pe with hstart
  set n := (c.myNelems pe).toNat with hn
  have hpos : 0 < c.myNelems pe := by omega
  have hstart4 : 4 ∣ start * c.dtype.sizeof := by
    rw [Nat.mul_right_comm]
    exact Dvd.dvd.mul_right h4 pe
  have hlen4 : 4 ∣ n * c.dtype.sizeof := by
    have hrem : 4 ∣ c.nreduce % c.size * c.dtype.sizeof := by
      have hdiv := congrArg (· * c.dtype.sizeof) (div_add_mod' c.nreduce c.size)
      simp only [Nat.add_mul, Nat.mul_right_comm _ c.size] at hdiv
      exact (Nat.dvd_add_right (Dvd.dvd.mul_right h4 c.size)).mp (hdiv ▸ hn4)
    rw [hn, myNelems_eq hlen, Int.toNat_natCast, Nat.add_mul]
    refine dvd_add h4 ?_
    split
    · exact hrem
    · simp
  have hcast : (start : ℤ) * c.dtype.sizeof = ((start * c.dtype.sizeof : ℕ) : ℤ) :=
    (cast_mul _ _).symm
  have hdest := mcPtr_aligned c (x := start * c.dtype.sizeof) hd
    (by rw [hcast]; exact_mod_cast hstart4)
  have hsrc := mcPtr_aligned c (x := start * c.dtype.sizeof) hs
    (by rw [hcast]; exact_mod_cast hstart4)
  -- the word that holds the element
  have hbyte : (e - start) * c.dtype.sizeof + c.dtype.sizeof ≤ n * c.dtype.sizeof := by
    rw [← succ_mul]
    exact Nat.mul_le_mul_right _ (by omega)
  have hsize := c.sizeof_cases
  obtain ⟨a, ha, hcov⟩ : ∃ a ∈ c.addReduceMcast start n,
      a.Covers ((e - start) * c.dtype.sizeof / 4 * 4) 4 :=
    exists_covers_word c.groupSize_pos (by simp) (by simp) hdest hsrc hlen4 (Nat.zero_le _)
      (by omega) ⟨(e - start) * c.dtype.sizeof / 4, by omega⟩
  refine ⟨a, ?_, ?_⟩
  · rw [twoshot, if_pos hpos, sliceStart_eq hq hlen hpe]
    exact ha
  · rw [sliceStart_eq hq hlen hpe, ← hstart]
    obtain ⟨hcov₁, hcov₂⟩ := hcov
    obtain hsz | hsz := hsize <;> simp only [hsz] at hcov₁ hcov₂ ⊢ <;> push_cast <;> omega

end Exact

include hroute hd in
theorem dvd_of_covered (h : c.Covered)
    (hq : c.nreduce / c.size * (c.size - 1) < 2 ^ 31)
    (hlen : c.nreduce / c.size + c.nreduce % c.size < 2 ^ 31) :
    4 ∣ c.nreduce / c.size * c.dtype.sizeof := by
  obtain hs4 | hs2 := c.sizeof_cases
  · rw [hs4]
    exact dvd_mul_left 4 _
  · obtain ⟨hlt, hmod⟩ := half_of_algo hroute hs2
    have hqpos : 0 < c.nreduce / c.size := Nat.div_pos hlt.le c.size_pos
    obtain ⟨pe, ⟨hpe, hst⟩, -⟩ := h (c.nreduce / c.size - 1)
      (lt_of_lt_of_le (sub_lt hqpos Nat.one_pos) (Nat.div_le_self _ _))
    obtain ⟨hpos, hstart, -⟩ := slice_of_stores hst
    rw [sliceStart_eq hq hlen hpe] at hstart
    have hzero : pe = 0 := by
      by_contra hne
      have := Nat.mul_le_mul_left (c.nreduce / c.size) (one_le_iff_ne_zero.mpr hne)
      omega
    subst hzero
    obtain ⟨a, ha, -, hhi⟩ := hst
    rw [twoshot, if_pos hpos, sliceStart_eq hq hlen hpe] at ha
    obtain ⟨hw, hal, -, -, hend⟩ := bounds_of_mem_stages c.groupSize_pos ha
    rw [sliceStart_eq hq hlen hpe] at hhi
    have hn : (c.myNelems 0).toNat = c.nreduce / c.size := by
      rw [myNelems_eq hlen, hmod, ite_self, Nat.add_zero, Int.toNat_natCast]
    have hdest := mcPtr_aligned c (x := ((c.nreduce / c.size * 0 : ℕ) : ℤ) * c.dtype.sizeof) hd
      (by simp)
    simp only [List.mem_cons, List.not_mem_nil, or_false] at hw
    simp only [hs2, hn, Nat.mul_zero] at hend hhi hdest hal ⊢
    obtain hw | hw | hw := hw <;> rw [hw] at hal hhi hend <;> omega

end Call

/-- Two-shot reduces every element once exactly for the calls that divide well. -/
theorem covered_iff (c : Call) (hroute : c.algo = 3) (hd : 16 ∣ c.dest) (hs : 16 ∣ c.source) :
    c.Covered ↔ c.Divided := by
  constructor
  · intro h
    obtain hzero | hpos := Nat.eq_zero_or_pos c.nreduce
    · simp [Call.Divided, hzero]
    · obtain ⟨pe, ⟨hpe, hst⟩, -⟩ := h (c.nreduce - 1) (by omega)
      obtain ⟨hq, hlen⟩ := Call.divided_of_stores_last hpos hpe hst
      exact ⟨hq, hlen, Call.dvd_of_covered hroute hd h hq hlen⟩
  · rintro ⟨hq, hlen, h4⟩ e he
    have hn4 : 4 ∣ c.nreduce * c.dtype.sizeof := by
      have htwo := Call.isTwoShotSupported_of_algo hroute
      simp only [Call.isTwoShotSupported, Call.isNvlsAlgoSupported, Bool.and_eq_true,
        decide_eq_true_eq] at htwo
      exact dvd_of_mod_eq_zero htwo.1.2
    obtain ⟨pe, hpe, hlo, hhi⟩ := Call.exists_slice hlen he
    have hst := Call.stores_of_slice hd hs hq hlen h4 hn4 hpe hlo hhi
    exact ⟨pe, ⟨hpe, hst⟩, fun pe' hpe' => Call.pe_unique hq hlen hpe'.1 hpe hpe'.2 hst⟩

def sixHalves : Call where
  dtype := .half
  op := .sum
  reduceAlgo := 0
  reduceNvlsThreshold := 0
  hasNvlsRsc := true
  size := 2
  groupSize := 32
  nreduce := 6
  heapBase := 4096
  mcBase := 65536
  dest := 4096
  source := 8192
  size_pos := Nat.two_pos
  size_lt := by decide
  groupSize_pos := Mcast.warp_pos
  heapBase_aligned := by decide
  mcBase_aligned := by decide
  heapBase_le_dest := by decide
  heapBase_le_source := by decide

theorem covered_iff_sixHalves :
    (sixHalves.algo = 3 ∧ 16 ∣ sixHalves.dest ∧ 16 ∣ sixHalves.source) ∧
      (sixHalves.Covered ↔ sixHalves.Divided) :=
  ⟨by decide, covered_iff sixHalves (by decide) (by decide) (by decide)⟩

/-- The third element of six is stored by neither of the two PEs. -/
theorem not_covered_sixHalves :
    sixHalves.algo = 3 ∧ 16 ∣ sixHalves.dest ∧ 16 ∣ sixHalves.source ∧ ¬ sixHalves.Covered := by
  refine ⟨by decide, by decide, by decide, fun h => ?_⟩
  have hdvd := Call.dvd_of_covered (c := sixHalves) (by decide) (by decide) h (by decide)
    (by decide)
  revert hdvd
  decide

end Nvshmem.NvlsTwoshot
