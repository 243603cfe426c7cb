import Nvshmem.Bits.Binary32
import Nvshmem.Coll.Mcast
import Nvshmem.Combine.Basic
import Nvshmem.Memory.Stores

/-! # NVLS reduce-scatter of integers

`nvshmemi_local_reduce_mcast_threadgroup` reduces a buffer with `multimem.ld_reduce` accesses whose
type is chosen by the width of the access. We settle for which calls this is the reduction in the
type of the elements.
-/

namespace Nvshmem.NvlsReducescatter

open Combine Mcast Memory List

structure IntType where
  isSigned : Bool
  isWide : Bool
deriving DecidableEq, Repr

def IntType.sizeof (t : IntType) : ℕ := if t.isWide then 8 else 4

def umin {w : ℕ} (x y : BitVec w) : BitVec w := if x.ult y then x else y

def umax {w : ℕ} (x y : BitVec w) : BitVec w := if x.ult y then y else x

def smin {w : ℕ} (x y : BitVec w) : BitVec w := if x.slt y then x else y

def smax {w : ℕ} (x y : BitVec w) : BitVec w := if x.slt y then y else x

/-- The operations that `nvshmemi_reducescatter_threadgroup` routes to NVLS for integers. -/
inductive McastOp
  | sum
  | min
  | max
  | and
  | or
  | xor
deriving DecidableEq, Repr

/-- `is_mcast_red_op` -/
def McastOp.ofRdxnOp : RdxnOp → Option McastOp
  | .sum => some .sum
  | .min => some .min
  | .max => some .max
  | .and => some .and
  | .or => some .or
  | .xor => some .xor
  | .prod | .maxloc => none

def McastOp.apply {w : ℕ} (op : McastOp) (isSigned : Bool) : BitVec w → BitVec w → BitVec w :=
  match op with
  | .sum => (· + ·)
  | .min => if isSigned then smin else umin
  | .max => if isSigned then smax else umax
  | .and => (· &&& ·)
  | .or => (· ||| ·)
  | .xor => (· ^^^ ·)

/-- A call of `nvshmemi_local_reduce_mcast_threadgroup`; `src` is the multicast address. -/
structure Call where
  type : IntType
  rdxnOp : RdxnOp
  op : McastOp
  npes : ℕ
  groupSize : ℕ
  nreduce : ℕ
  dest : ℕ
  src : ℕ
  routed : McastOp.ofRdxnOp rdxnOp = some op
  npes_pos : 0 < npes
  groupSize_pos : 0 < groupSize
  dest_aligned : type.sizeof ∣ dest
  src_aligned : type.sizeof ∣ src

/-- Memory is seen as little-endian words of four bytes, from the start of the buffer on. -/
abbrev Words := ℕ → BitVec 32

def Words.wide (m : Words) (i : ℕ) : BitVec 64 := m (i + 1) ++ m i

def lowWord (x : BitVec 64) : BitVec 32 := x.extractLsb' 0 32

def highWord (x : BitVec 64) : BitVec 32 := x.extractLsb' 32 32

/-- The word of a value that is stored `k` words after its start. -/
def wordAt (x : BitVec 64) (k : ℕ) : BitVec 32 := if k = 0 then lowWord x else highWord x

namespace Call

variable (c : Call)

def widths : List ℕ := if c.op = .sum then [16, 8, 4] else [8, 4]

/-- `multimem.ld_reduce` of one access and the store of its result. The 16-byte stage adds four
single-precision numbers for every type. -/
def store (sources : ℕ → Words) (a : Access) : Store (BitVec 32) :=
  let first := a.offset / 4
  if a.width = 16 then
    ⟨first, 4, fun k => combine Binary32.add (fun pe => sources pe (first + k)) c.npes⟩
  else if a.width = 8 then
    ⟨first, 2, wordAt (combine (c.op.apply c.type.isSigned) (fun pe => (sources pe).wide first)
      c.npes)⟩
  else
    ⟨first, 1, fun k => combine (c.op.apply c.type.isSigned) (fun pe => sources pe (first + k))
      c.npes⟩

def accesses : List Access :=
  stages c.groupSize c.dest c.src c.widths 0 (c.nreduce * c.type.sizeof)

/-- `nvshmemi_local_reduce_mcast_threadgroup`: the words of `dest` afterwards. -/
def localReduceMcast (sources : ℕ → Words) (dest : Words) : Words :=
  applyAll dest (c.accesses.map (c.store sources))

/-- Element `e` is the combination of that element of all PEs, in the type of the elements. -/
def IsCombination (sources : ℕ → Words) (dest : Words) (e : ℕ) : Prop :=
  if c.type.isWide then
    dest.wide (2 * e) = combine (c.op.apply c.type.isSigned) (fun pe => (sources pe).wide (2 * e))
      c.npes
  else dest e = combine (c.op.apply c.type.isSigned) (fun pe => sources pe e) c.npes

/-- Every element of `dest` is right, for all values in the buffers. -/
def Reduces : Prop :=
  ∀ sources dest, ∀ e < c.nreduce, c.IsCombination sources (c.localReduceMcast sources dest) e

def IsBitwise : Prop := c.op = .and ∨ c.op = .or ∨ c.op = .xor

/-- No access is wider than the elements, unless that makes no difference. -/
def Narrow : Prop :=
  c.npes = 1 ∨
    if c.type.isWide then ¬ (c.op = .sum ∧ 16 ∣ c.dest ∧ 16 ∣ c.src ∧ 2 ≤ c.nreduce)
    else c.IsBitwise ∨ ¬ (8 ∣ c.dest ∧ 8 ∣ c.src ∧ 2 ≤ c.nreduce)

end Call

section Words

variable {m : Words} {i k : ℕ} {x y : BitVec 64}

@[simp] theorem lowWord_wide : lowWord (m.wide i) = m i := by
  rw [lowWord, Words.wide, BitVec.extractLsb'_append_eq_right]

@[simp] theorem highWord_wide : highWord (m.wide i) = m (i + 1) := by
  rw [highWord, Words.wide, BitVec.extractLsb'_append_eq_left]

theorem wide_words (h₀ : m i = lowWord x) (h₁ : m (i + 1) = highWord x) : m.wide i = x := by
  rw [Words.wide, h₀, h₁, lowWord, highWord]
  ext j hj
  simp only [BitVec.getElem_append, BitVec.getElem_extractLsb']
  split
  · simp [BitVec.getLsbD_eq_getElem hj]
  · rw [show 32 + (j - 32) = j by omega, BitVec.getLsbD_eq_getElem hj]

end Words

namespace Call

variable {c : Call} {sources : ℕ → Words} {dest : Words} {a : Access} {e i : ℕ}

theorem sizeof_cases : c.type.isWide = true ∧ c.type.sizeof = 8 ∨
    c.type.isWide = false ∧ c.type.sizeof = 4 := by
  cases h : c.type.isWide <;> simp [IntType.sizeof, h]

theorem widths_cases : c.op = .sum ∧ c.widths = [16, 8, 4] ∨
    c.op ≠ .sum ∧ c.widths = [8, 4] := by
  by_cases h : c.op = .sum <;> simp [widths, h]

theorem four_dvd_sizeof : 4 ∣ c.type.sizeof := by
  obtain ⟨-, h⟩ | ⟨-, h⟩ := c.sizeof_cases <;> omega

theorem width_of_mem (ha : a ∈ c.accesses) : a.width = 16 ∨ a.width = 8 ∨ a.width = 4 := by
  obtain ⟨hw, -⟩ := bounds_of_mem_stages c.groupSize_pos ha
  obtain ⟨-, h⟩ | ⟨-, h⟩ := c.widths_cases <;> simp [h] at hw <;> omega

theorem offset_aligned (ha : a ∈ c.accesses) : 4 ∣ a.offset := by
  obtain ⟨-, hd, -⟩ := bounds_of_mem_stages c.groupSize_pos ha
  have h4 : 4 ∣ c.dest := c.four_dvd_sizeof.trans c.dest_aligned
  obtain hw | hw | hw := width_of_mem ha <;> rw [hw] at hd <;> omega

theorem store_addr : (c.store sources a).addr = a.offset / 4 := by
  unfold store
  split
  · rfl
  · split <;> rfl

theorem store_len (ha : a ∈ c.accesses) : (c.store sources a).len = a.width / 4 := by
  obtain hw | hw | hw := width_of_mem ha <;> simp [store, hw]

theorem exists_store (hi : i < c.nreduce * c.type.sizeof / 4) :
    ∃ st ∈ c.accesses.map (c.store sources), st.Covers i := by
  have h4 := c.four_dvd_sizeof
  obtain ⟨a, ha, hlo, hhi⟩ : ∃ a ∈ c.accesses, a.Covers (4 * i) 4 := by
    refine exists_covers_word c.groupSize_pos ?_ ?_ (h4.trans c.dest_aligned)
      (h4.trans c.src_aligned) (Dvd.dvd.mul_left h4 _) (Nat.zero_le _) (by omega) ⟨i, by omega⟩ <;>
      obtain ⟨-, h⟩ | ⟨-, h⟩ := c.widths_cases <;> simp [h]
  refine ⟨_, mem_map_of_mem ha, ?_⟩
  have hoff := offset_aligned ha
  rw [Store.Covers, store_addr, store_len ha]
  omega

theorem word_of_stores {g : Words} (hi : i < c.nreduce * c.type.sizeof / 4)
    (h : ∀ a ∈ c.accesses, ∀ k < a.width / 4,
      (c.store sources a).value k = g (a.offset / 4 + k)) :
    c.localReduceMcast sources dest i = g i := by
  refine applyAll_of_agree ?_ (exists_store hi)
  intro st hst j hj
  obtain ⟨a, ha, rfl⟩ := mem_map.mp hst
  rw [store_len ha] at hj
  rw [store_addr]
  exact h a ha j hj

section Right

variable (h16 : ¬ (c.op = .sum ∧ 16 ∣ c.dest ∧ 16 ∣ c.src ∧ 16 ≤ c.nreduce * c.type.sizeof))

include h16 in
theorem accesses_of_not_16 : c.accesses =
    stages c.groupSize c.dest c.src [8, 4] 0 (c.nreduce * c.type.sizeof) := by
  obtain ⟨hop, h⟩ | ⟨-, h⟩ := c.widths_cases
  · rw [accesses, h, stages_of_not]
    rintro ⟨hd, hs, hlen⟩
    exact h16 ⟨hop, Nat.dvd_of_mod_eq_zero hd, Nat.dvd_of_mod_eq_zero hs, hlen⟩
  · rw [accesses, h]

include h16 in
theorem width_of_wide (hwide : c.type.sizeof = 8) (ha : a ∈ c.accesses) : a.width = 8 := by
  have hd := c.dest_aligned
  have hs := c.src_aligned
  rw [hwide] at hd hs
  rw [accesses_of_not_16 h16, hwide] at ha
  have hnone : ∀ offset, stages c.groupSize c.dest c.src [4] offset 0 = [] := by
    intro offset
    rw [stages_of_not (by omega), stages]
  by_cases hzero : c.nreduce = 0
  · rw [stages_of_not (by omega), hzero, Nat.zero_mul, hnone] at ha
    simp at ha
  · rw [stages, if_pos (by omega), Nat.mul_div_cancel _ (by omega), Nat.sub_self, hnone,
      append_nil, mem_kernel c.groupSize_pos unroll_pos] at ha
    · obtain ⟨i, -, rfl⟩ := ha
      rfl
    · exact one_dvd _

theorem width_of_narrow (hnarrow : c.type.sizeof = 4)
    (h8 : ¬ (8 ∣ c.dest ∧ 8 ∣ c.src ∧ 2 ≤ c.nreduce)) (ha : a ∈ c.accesses) : a.width = 4 := by
  rw [accesses_of_not_16 (by rw [hnarrow]; omega), stages_of_not (by rw [hnarrow]; omega)] at ha
  obtain ⟨hw, -⟩ := bounds_of_mem_stages c.groupSize_pos ha
  simpa using hw

theorem value_16 (hw : a.width = 16) {k : ℕ} : (c.store sources a).value k =
    combine Binary32.add (fun pe => sources pe (a.offset / 4 + k)) c.npes := by
  simp [store, hw]

theorem value_8 (hw : a.width = 8) {k : ℕ} : (c.store sources a).value k =
    wordAt (combine (c.op.apply c.type.isSigned) (fun pe => (sources pe).wide (a.offset / 4))
      c.npes) k := by
  simp [store, hw]

theorem value_4 (hw : a.width = 4) {k : ℕ} : (c.store sources a).value k =
    combine (c.op.apply c.type.isSigned) (fun pe => sources pe (a.offset / 4 + k)) c.npes := by
  simp [store, hw]

theorem wordAt_wide {m : Words} {k : ℕ} (hk : k < 2) : wordAt (m.wide i) k = m (i + k) := by
  obtain rfl | rfl : k = 0 ∨ k = 1 := by omega
  · exact lowWord_wide
  · exact highWord_wide

theorem reduces_of_one (h : c.npes = 1) : c.Reduces := by
  intro sources dest e he
  have hword : ∀ i < c.nreduce * c.type.sizeof / 4,
      c.localReduceMcast sources dest i = sources 0 i := by
    intro i hi
    refine word_of_stores hi fun a ha k hk => ?_
    obtain hw | hw | hw := width_of_mem ha
    · rw [value_16 hw, h, combine_one]
    · rw [value_8 hw, h, combine_one, wordAt_wide (by omega)]
    · rw [value_4 hw, h, combine_one]
  rw [IsCombination, h]
  obtain ⟨hwide, hsize⟩ | ⟨hwide, hsize⟩ := c.sizeof_cases <;> rw [hsize] at hword
  · rw [if_pos hwide, combine_one, Words.wide, hword _ (by omega), hword _ (by omega)]
    rfl
  · rw [if_neg (by simp [hwide]), combine_one, hword _ (by omega)]

theorem reduces_of_wide (hwide : c.type.isWide = true) (hsize : c.type.sizeof = 8)
    (h16 : ¬ (c.op = .sum ∧ 16 ∣ c.dest ∧ 16 ∣ c.src ∧ 16 ≤ c.nreduce * c.type.sizeof)) :
    c.Reduces := by
  intro sources dest e he
  have hword : ∀ i < c.nreduce * c.type.sizeof / 4, c.localReduceMcast sources dest i =
      wordAt (combine (c.op.apply c.type.isSigned) (fun pe => (sources pe).wide (i / 2 * 2))
        c.npes) (i % 2) := by
    intro i hi
    refine word_of_stores (g := fun i => wordAt (combine (c.op.apply c.type.isSigned)
      (fun pe => (sources pe).wide (i / 2 * 2)) c.npes) (i % 2)) hi fun a ha k hk => ?_
    have hw := width_of_wide h16 hsize ha
    have hoff : 8 ∣ a.offset := by
      obtain ⟨-, hd, -⟩ := bounds_of_mem_stages c.groupSize_pos ha
      have hdest := c.dest_aligned
      rw [hsize] at hdest
      rw [hw] at hd
      omega
    rw [value_8 hw, show (a.offset / 4 + k) / 2 * 2 = a.offset / 4 by omega,
      show (a.offset / 4 + k) % 2 = k by omega]
  rw [hsize] at hword
  rw [IsCombination, if_pos hwide]
  apply wide_words
  · rw [hword _ (by omega), show 2 * e / 2 * 2 = 2 * e by omega, Nat.mul_mod_right]
    rfl
  · rw [hword _ (by omega), show (2 * e + 1) / 2 * 2 = 2 * e by omega,
      show (2 * e + 1) % 2 = 1 by omega]
    rfl

theorem wordAt_apply_of_isBitwise (h : c.IsBitwise) (x y : BitVec 64) (k : ℕ) :
    wordAt (c.op.apply c.type.isSigned x y) k =
      c.op.apply c.type.isSigned (wordAt x k) (wordAt y k) := by
  obtain h | h | h := h <;> rw [h] <;> simp only [McastOp.apply, wordAt, lowWord, highWord] <;>
    split <;> ext j hj <;> simp

theorem reduces_of_narrow (hwide : c.type.isWide = false) (hsize : c.type.sizeof = 4)
    (h : c.IsBitwise ∨ ¬ (8 ∣ c.dest ∧ 8 ∣ c.src ∧ 2 ≤ c.nreduce)) : c.Reduces := by
  intro sources dest e he
  rw [IsCombination, if_neg (by simp [hwide])]
  refine word_of_stores (g := fun i => combine (c.op.apply c.type.isSigned)
    (fun pe => sources pe i) c.npes) (by rw [hsize]; omega) fun a ha k hk => ?_
  obtain hbit | h8 := h
  · have hsum : c.op ≠ .sum := by
      obtain h | h | h := hbit <;> simp [h]
    obtain hw | hw | hw := width_of_mem ha
    · rw [accesses_of_not_16 (by simp [hsum])] at ha
      obtain ⟨hw', -⟩ := bounds_of_mem_stages c.groupSize_pos ha
      simp [hw] at hw'
    · rw [value_8 hw, map_combine (φ := fun x => wordAt x k)
        fun x y => wordAt_apply_of_isBitwise hbit x y k]
      exact combine_congr c.npes_pos fun pe _ => wordAt_wide (by omega)
    · exact value_4 hw
  · exact value_4 (width_of_narrow hsize h8 ha)

end Right

section Wrong

variable {w : ℕ} {ws : List ℕ}

theorem word_of_first (hsize : 2 ≤ c.nreduce * c.type.sizeof / 4)
    (hacc : c.accesses =
      stages c.groupSize c.dest c.src (w :: ws) 0 (c.nreduce * c.type.sizeof))
    (hfirst : c.dest % w = 0 ∧ c.src % w = 0 ∧ w ≤ c.nreduce * c.type.sizeof) (hw : 8 ≤ w)
    (hi : i < 2) :
    c.localReduceMcast sources dest i = (c.store sources ⟨0, w⟩).value i := by
  refine applyAll_eq_of_covers (exists_store (by omega)) fun st hst hcov => ?_
  obtain ⟨a, ha, rfl⟩ := mem_map.mp hst
  obtain ⟨hlo, -⟩ := hcov
  rw [store_addr] at hlo
  rw [hacc] at ha
  rw [eq_of_offset_lt c.groupSize_pos hfirst ha (by omega), store_addr, Nat.zero_div, Nat.sub_zero]

def pairs (first second rest : BitVec 32 × BitVec 32) : ℕ → Words := fun pe i =>
  let words := if pe = 0 then first else if pe = 1 then second else rest
  if i = 0 then words.1 else if i = 1 then words.2 else 0

theorem pairs_rest {first second rest : BitVec 32 × BitVec 32} (hi : 2 ≤ i) :
    pairs first second rest i = fun k => if k = 0 then rest.1 else if k = 1 then rest.2 else 0 := by
  funext k
  simp only [pairs, if_neg (show i ≠ 0 by omega), if_neg (show i ≠ 1 by omega)]

section Pairs

variable {first second rest : BitVec 32 × BitVec 32} {npes : ℕ} (hn : 2 ≤ npes)

include hn

theorem combine_pairs {α : Type} {f : α → α → α} {y : α} (g : Words → α)
    (h : f (g (pairs first second rest 0)) (g (pairs first second rest 1)) = y)
    (hrest : f y (g (pairs first second rest 2)) = y) :
    combine f (fun pe => g (pairs first second rest pe)) npes = y :=
  combine_two hn h fun i hi => by rwa [pairs_rest hi, ← pairs_rest le_rfl]

end Pairs

variable (hn : 2 ≤ c.npes)

include hn

theorem not_reduces_of_16 (hop : c.op = .sum)
    (h16 : c.dest % 16 = 0 ∧ c.src % 16 = 0 ∧ 16 ≤ c.nreduce * c.type.sizeof) :
    ¬ c.Reduces := by
  intro h
  have hpos : 0 < c.nreduce := Nat.pos_of_ne_zero fun h0 => by simp [h0] at h16
  have hsum := h (pairs (0x3f800000, 0) (0x3f800000, 0) (0, 0)) 0 0 hpos
  have hword : c.localReduceMcast (pairs (0x3f800000, 0) (0x3f800000, 0) (0, 0)) 0 0 =
      0x40000000 := by
    rw [word_of_first (by omega) (by rw [accesses, widths, if_pos hop]) h16 (by omega) (by omega),
      value_16 rfl, Nat.zero_div, Nat.add_zero]
    refine combine_pairs (f := Binary32.add) hn (· 0) ?_ ?_
    · exact Binary32.one_add_one
    · exact Binary32.two_add_zero
  rw [IsCombination, hop] at hsum
  obtain ⟨hwide, -⟩ | ⟨hwide, -⟩ := c.sizeof_cases
  · rw [if_pos hwide] at hsum
    have hright : combine (McastOp.sum.apply c.type.isSigned)
        (fun pe => (pairs (0x3f800000, 0) (0x3f800000, 0) (0, 0) pe).wide 0) c.npes =
        0x7f000000 := by
      refine combine_pairs hn (·.wide 0) ?_ ?_ <;> simp only [McastOp.apply] <;> decide
    have hlow := congrArg lowWord hsum
    rw [lowWord_wide, hword, hright] at hlow
    revert hlow
    decide
  · have hright : combine (McastOp.sum.apply c.type.isSigned)
        (fun pe => pairs (0x3f800000, 0) (0x3f800000, 0) (0, 0) pe 0) c.npes = 0x7f000000 := by
      refine combine_pairs hn (· 0) ?_ ?_ <;> simp only [McastOp.apply] <;> decide
    rw [if_neg (by simp [hwide]), hword, hright] at hsum
    revert hsum
    decide

/-- Pairs of elements are not reduced as numbers of eight bytes: a sum carries into the second
element, and the smaller or larger number is that of the larger second element. -/
theorem not_reduces_of_8 (hwide : c.type.isWide = false)
    (hbit : ¬ c.IsBitwise) (hcount : 2 ≤ c.nreduce)
    (hacc : c.accesses = stages c.groupSize c.dest c.src [8, 4] 0 (c.nreduce * c.type.sizeof))
    (h8 : c.dest % 8 = 0 ∧ c.src % 8 = 0 ∧ 8 ≤ c.nreduce * c.type.sizeof) : ¬ c.Reduces := by
  intro h
  have hword : ∀ sources, ∀ i < 2, c.localReduceMcast sources 0 i =
      wordAt (combine (c.op.apply c.type.isSigned) (fun pe => (sources pe).wide 0) c.npes) i := by
    intro sources i hi
    rw [word_of_first (by omega) hacc h8 le_rfl hi, value_8 rfl, Nat.zero_div]
  have hright : ∀ sources, ∀ i < 2, c.localReduceMcast sources 0 i =
      combine (c.op.apply c.type.isSigned) (fun pe => sources pe i) c.npes := by
    intro sources i hi
    have := h sources 0 i (by omega)
    rwa [IsCombination, if_neg (by simp [hwide])] at this
  generalize hs : c.type.isSigned = isSigned at hword hright
  cases hop : c.op with
  | sum =>
    have hcarry := hword (pairs (0xffffffff, 0) (1, 0) (0, 0)) 1 (by omega)
    rw [hright _ 1 (by omega), hop, combine_pairs (y := 0) hn (· 1) rfl rfl,
      combine_pairs (y := 0x100000000) hn (·.wide 0) rfl rfl] at hcarry
    revert hcarry
    decide
  | min =>
    have hless := hword (pairs (1, 0) (0, 1) (1, 1)) 0 (by omega)
    rw [hright _ 0 (by omega), hop,
      combine_pairs (y := 0) hn (· 0) (by cases isSigned <;> rfl) (by cases isSigned <;> rfl),
      combine_pairs (y := 1) hn (·.wide 0) (by cases isSigned <;> rfl)
        (by cases isSigned <;> rfl)] at hless
    revert hless
    decide
  | max =>
    have hless := hword (pairs (0, 1) (1, 0) (0, 0)) 0 (by omega)
    rw [hright _ 0 (by omega), hop,
      combine_pairs (y := 1) hn (· 0) (by cases isSigned <;> rfl) (by cases isSigned <;> rfl),
      combine_pairs (y := 0x100000000) hn (·.wide 0) (by cases isSigned <;> rfl)
        (by cases isSigned <;> rfl)] at hless
    revert hless
    decide
  | and => exact hbit (.inl hop)
  | or => exact hbit (.inr (.inl hop))
  | xor => exact hbit (.inr (.inr hop))

end Wrong

end Call

/-- The reduction is right for all values exactly if no access is wider than the elements, apart
from bitwise operations and a team of one PE. -/
theorem reduces_iff_narrow (c : Call) : c.Reduces ↔ c.Narrow := by
  constructor
  · intro h
    by_contra hnot
    rw [Call.Narrow, not_or] at hnot
    obtain ⟨hone, hnot⟩ := hnot
    have hn : 2 ≤ c.npes := by
      have := c.npes_pos
      omega
    obtain ⟨hwide, hsize⟩ | ⟨hwide, hsize⟩ := c.sizeof_cases
    · rw [if_pos hwide, not_not] at hnot
      obtain ⟨hop, hd, hs, hcount⟩ := hnot
      exact Call.not_reduces_of_16 hn hop (by rw [hsize]; omega) h
    · rw [if_neg (by simp [hwide]), not_or, not_not] at hnot
      obtain ⟨hbit, hd, hs, hcount⟩ := hnot
      by_cases h16 : c.op = .sum ∧ 16 ∣ c.dest ∧ 16 ∣ c.src ∧ 16 ≤ c.nreduce * c.type.sizeof
      · exact Call.not_reduces_of_16 hn h16.1 (by omega) h
      · exact Call.not_reduces_of_8 hn hwide hbit hcount (Call.accesses_of_not_16 h16)
          (by rw [hsize]; omega) h
  · rintro (hone | hnarrow)
    · exact Call.reduces_of_one hone
    · obtain ⟨hwide, hsize⟩ | ⟨hwide, hsize⟩ := c.sizeof_cases
      · rw [if_pos hwide] at hnarrow
        refine Call.reduces_of_wide hwide hsize ?_
        rintro ⟨hop, hd, hs, hlen⟩
        rw [hsize] at hlen
        exact hnarrow ⟨hop, hd, hs, by omega⟩
      · rw [if_neg (by simp [hwide])] at hnarrow
        exact Call.reduces_of_narrow hwide hsize hnarrow

def fourInts : Call where
  type := ⟨true, false⟩
  rdxnOp := .sum
  op := .sum
  npes := 2
  groupSize := 1
  nreduce := 4
  dest := 16
  src := 64
  routed := rfl
  npes_pos := Nat.two_pos
  groupSize_pos := Nat.one_pos
  dest_aligned := by decide
  src_aligned := by decide

/-- The integers `0x3f800000` of the two PEs are added as single-precision numbers. -/
theorem not_reduces_fourInts :
    fourInts.localReduceMcast (fun _ _ => 0x3f800000) 0 0 = 0x40000000 ∧ ¬ fourInts.Reduces :=
  ⟨by decide +kernel, Call.not_reduces_of_16 (by decide) rfl (by decide)⟩

end Nvshmem.NvlsReducescatter
