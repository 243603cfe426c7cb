import Nvshmem.Coll.Mcast
import Nvshmem.Combine.Basic

/-! # Hierarchical allreduce

The PEs of a node collect their sources and reduce them; then the PEs with the same place collect
the results of the nodes and reduce those. One of the two last loops takes one node per thread of
the block.
-/

namespace Nvshmem.RdxnHierarchical

open Combine Loops Mcast Function List Multiplicative

/-- A call on the world team with threadgroup scope block. `hasReduceUpdate` says whether the code
is compiled with `cg::reduce_update_async`. -/
structure Call where
  nodes : ℕ
  npesNode : ℕ
  groupSize : ℕ
  op : RdxnOp
  sizeofT : ℕ
  nreduce : ℕ
  hasReduceUpdate : Bool
  reduceScratchSize : ℕ
  fcollectLlThreshold : ℕ
  nodes_pos : 0 < nodes
  npesNode_pos : 0 < npesNode
  groupSize_pos : 0 < groupSize

namespace Call

variable (c : Call)

def size : ℕ := c.nodes * c.npesNode

/-- The test of `nvshmemi_gpu_rdxn_threadgroup` for this algorithm. -/
def Selected : Prop :=
  4 ≤ c.sizeofT ∧ c.nreduce % 2 = 0 ∧
    c.size * c.nreduce * c.sizeofT ≤ c.reduceScratchSize / 2 ∧
    c.nreduce * c.sizeofT ≤ c.fcollectLlThreshold

instance : Decidable c.Selected := inferInstanceAs (Decidable (_ ∧ _))

def usesReduceUpdate : Bool :=
  c.hasReduceUpdate && c.op = .sum && 4 ≤ c.sizeofT && c.sizeofT ≤ 8

section Data

variable {M : Type*} [Mul M] (zero : M)

/-- What `nvshmemi_fcollect_threadgroup` leaves in `pWrk`: the elements of member after member. -/
def fcollect (sources : ℕ → ℕ → M) : ℕ → M := fun x => sources (x / c.nreduce) (x % c.nreduce)

/-- The loop that reduces what `n` members sent. -/
def reduceMembers (n : ℕ) (pWrk dest : ℕ → M) : ℕ → M :=
  sweep c.groupSize c.nreduce (fun j _ =>
    (List.range' 2 (n - 2)).foldl (fun acc i => pWrk (i * c.nreduce + j) * acc)
      (pWrk j * pWrk (c.nreduce + j))) dest

/-- The value of a thread for `cg::reduce_update_async`. -/
def lane (pWrk : ℕ → M) (j myIdx : ℕ) : M :=
  if myIdx < c.groupSize ∧ myIdx < c.nodes then pWrk (myIdx * c.nreduce + j) else zero

/-- The reduction over a tile of 32 threads. Threads that a tile at the end of the block lacks count
as zeros. -/
def tileReduce (pWrk : ℕ → M) (j tile : ℕ) : M :=
  combine (· * ·) (fun k => c.lane zero pWrk j (tile * 32 + k)) 32

def reduceUpdate (pWrk dest : ℕ → M) : ℕ → M :=
  (List.range c.nreduce).foldl (fun dest j =>
    (List.range ((c.groupSize + 31) / 32)).foldl (fun dest tile =>
      update dest j (dest j * c.tileReduce zero pWrk j tile)) dest)
    (sweep c.groupSize c.nreduce (fun _ _ => zero) dest)

/-- `dest` of the PE at a place of a node after the part inside the node. -/
def nodePart (source dest : ℕ → ℕ → ℕ → M) (node place : ℕ) : ℕ → M :=
  if 2 ≤ c.npesNode then
    c.reduceMembers c.npesNode (c.fcollect (source node)) (dest node place)
  else fun j => if j < c.nreduce then source node place j else dest node place j

/-- `nvshmemi_gpu_rdxn_hierarchical_fcollect_threadgroup` -/
def hierarchical (source dest : ℕ → ℕ → ℕ → M) (node place : ℕ) : ℕ → M :=
  let inner := c.nodePart source dest
  if 2 ≤ c.nodes then
    let pWrk := c.fcollect fun other => inner other place
    if c.usesReduceUpdate then c.reduceUpdate zero pWrk (inner node place)
    else c.reduceMembers c.nodes pWrk (inner node place)
  else inner node place

end Data

/-- Every element of every PE is the combination of that element of all PEs, each taken once. The
sum has the neutral element zero. -/
def Reduces : Prop :=
  ∀ (M : Type) [CommSemigroup M] (zero : M), (c.usesReduceUpdate → ∀ x, zero * x = x) →
    ∀ source dest : ℕ → ℕ → ℕ → M, ∀ node < c.nodes, ∀ place < c.npesNode, ∀ j < c.nreduce,
      c.hierarchical zero source dest node place j =
        combine (· * ·) (fun pe => source (pe / c.npesNode) (pe % c.npesNode) j) c.size

def EnoughThreads : Prop := c.usesReduceUpdate → 0 < c.nreduce → c.nodes ≤ c.groupSize

end Call

namespace Call

variable {c : Call} {M : Type*} {j : ℕ}

theorem fcollect_apply (sources : ℕ → ℕ → M) (i : ℕ) (hj : j < c.nreduce) :
    c.fcollect sources (i * c.nreduce + j) = sources i j := by
  rw [fcollect, Nat.mul_comm, Nat.mul_add_div (Nat.zero_lt_of_lt hj), Nat.div_eq_of_lt hj,
    Nat.add_zero, Nat.mul_add_mod, Nat.mod_eq_of_lt hj]

section Semigroup

variable [CommSemigroup M]

theorem reduceMembers_apply {sources : ℕ → ℕ → M} {dest : ℕ → M} {n : ℕ} (hn : 2 ≤ n)
    (hj : j < c.nreduce) :
    c.reduceMembers n (c.fcollect sources) dest j = combine (· * ·) (fun i => sources i j) n := by
  rw [reduceMembers, sweep_apply c.groupSize_pos, if_pos hj]
  have hfirst : c.fcollect sources j = sources 0 j := by
    simpa using fcollect_apply sources 0 hj
  have hsecond : c.fcollect sources (c.nreduce + j) = sources 1 j := by
    simpa using fcollect_apply sources 1 hj
  rw [hfirst, hsecond]
  induction n, hn using Nat.le_induction with
  | base => rfl
  | succ n hn ih =>
    rw [show n + 1 - 2 = n - 2 + 1 by omega, range'_1_concat, foldl_append, ih,
      combine_succ (by omega), foldl_cons, foldl_nil, Nat.add_sub_cancel' hn,
      fcollect_apply sources n hj, mul_comm]

theorem nodePart_apply {source dest : ℕ → ℕ → ℕ → M} {node place : ℕ} (hplace : place < c.npesNode)
    (hj : j < c.nreduce) :
    c.nodePart source dest node place j =
      combine (· * ·) (fun other => source node other j) c.npesNode := by
  rw [nodePart]
  split
  · next h => exact reduceMembers_apply h hj
  · obtain hone : c.npesNode = 1 := by omega
    rw [hone, show place = 0 by omega]
    exact if_pos hj

theorem combine_nodePart {source dest : ℕ → ℕ → ℕ → M} {place : ℕ} (hplace : place < c.npesNode)
    (hj : j < c.nreduce) :
    combine (· * ·) (fun node => c.nodePart source dest node place j) c.nodes =
      combine (· * ·) (fun pe => source (pe / c.npesNode) (pe % c.npesNode) j) c.size := by
  rw [size, ← combine_combine _ c.nodes_pos c.npesNode_pos]
  refine combine_congr c.nodes_pos fun node _ => ?_
  rw [nodePart_apply hplace hj]
  refine combine_congr c.npesNode_pos fun other hother => ?_
  rw [Nat.mul_comm, Nat.mul_add_div c.npesNode_pos, Nat.div_eq_of_lt hother, Nat.add_zero,
    Nat.mul_add_mod, Nat.mod_eq_of_lt hother]

end Semigroup

section Monoid

variable [CommMonoid M]

theorem prod_tileReduce {sources : ℕ → ℕ → M} (hj : j < c.nreduce) :
    ∏ tile ∈ Finset.range ((c.groupSize + 31) / 32), c.tileReduce 1 (c.fcollect sources) j tile =
      ∏ i ∈ Finset.range (min c.groupSize c.nodes), sources i j := by
  have htile : ∀ tile, c.tileReduce 1 (c.fcollect sources) j tile =
      ∏ k ∈ Finset.range 32, c.lane 1 (c.fcollect sources) j (tile * 32 + k) :=
    fun _ => combine_eq_prod (by norm_num)
  simp only [htile]
  rw [← prod_range_mul fun i => c.lane 1 (c.fcollect sources) j i]
  -- the threads without a node, and those that do not exist, contribute ones
  have hsub : Finset.range (min c.groupSize c.nodes) ⊆
      Finset.range ((c.groupSize + 31) / 32 * 32) := by
    rw [Finset.range_subset_range]
    omega
  rw [← Finset.prod_subset hsub]
  · refine Finset.prod_congr rfl fun i hi => ?_
    rw [Finset.mem_range] at hi
    rw [lane, if_pos (by omega), fcollect_apply sources i hj]
  · intro i _ hi
    rw [Finset.mem_range] at hi
    rw [lane, if_neg (by omega)]

theorem reduceUpdate_apply {sources : ℕ → ℕ → M} {dest : ℕ → M} (hj : j < c.nreduce) :
    c.reduceUpdate 1 (c.fcollect sources) dest j =
      ∏ i ∈ Finset.range (min c.groupSize c.nodes), sources i j := by
  have htiles : ∀ (n : ℕ) (dest : ℕ → M) (j : ℕ),
      (range n).foldl (fun dest tile => update dest j
        (dest j * c.tileReduce 1 (c.fcollect sources) j tile)) dest =
      update dest j
        (dest j * ∏ tile ∈ Finset.range n, c.tileReduce 1 (c.fcollect sources) j tile) := by
    intro n dest j
    induction n with
    | zero => simp
    | succ n ih => simp [range_succ, ih, Finset.prod_range_succ, mul_assoc]
  simp only [reduceUpdate, htiles]
  refine (foldl_update_of_mem (φ := id) (f := fun j (x : M) =>
    x * ∏ tile ∈ Finset.range ((c.groupSize + 31) / 32),
      c.tileReduce 1 (c.fcollect sources) j tile)
    (by simpa using nodup_range) (mem_range.mpr hj)).trans ?_
  dsimp only [id]
  rw [sweep_apply c.groupSize_pos, if_pos hj, one_mul, prod_tileReduce hj]

end Monoid

theorem reduces_of_not_usesReduceUpdate (h : c.usesReduceUpdate = false) : c.Reduces := by
  intro M _ zero _ source dest node hnode place hplace j hj
  simp only [hierarchical, h, Bool.false_eq_true, if_false]
  rw [← combine_nodePart hplace hj]
  split
  · next hnodes => exact reduceMembers_apply hnodes hj
  · have hone : c.nodes = 1 := by
      omega
    rw [hone, combine_one, show node = 0 by omega]

theorem reduces_of_enoughThreads (h : c.usesReduceUpdate = true) (hle : c.nodes ≤ c.groupSize) :
    c.Reduces := by
  intro M _ zero hzero source dest node hnode place hplace j hj
  -- the neutral element of the sum makes the elements a monoid
  let _ : CommMonoid M :=
    { one := zero, one_mul := hzero h, mul_one := fun x => (mul_comm x zero).trans (hzero h x) }
  simp only [hierarchical, h, if_true]
  rw [← combine_nodePart hplace hj]
  split
  · refine (reduceUpdate_apply hj).trans ?_
    rw [Nat.min_eq_right hle]
    exact (combine_eq_prod c.nodes_pos).symm
  · have hone : c.nodes = 1 := by
      have := c.nodes_pos
      omega
    rw [hone, combine_one, show node = 0 by omega]

theorem not_reduces_of_lt (h : c.usesReduceUpdate = true) (hpos : 0 < c.nreduce)
    (hlt : c.groupSize < c.nodes) : ¬ c.Reduces := by
  intro hred
  have hone : ∀ n, 0 < n → combine (· * ·) (fun _ => ofAdd 1) n =
      ofAdd n := by
    intro n hn
    rw [combine_eq_prod hn, Finset.prod_const, Finset.card_range, ← ofAdd_nsmul, nsmul_one]
    rfl
  have hcount := hred (Multiplicative ℕ) 1 (fun _ => one_mul)
    (fun _ _ _ => ofAdd 1) (fun _ _ _ => 1) 0 c.nodes_pos 0 c.npesNode_pos 0 hpos
  have hnodes : 2 ≤ c.nodes := by
    have := c.groupSize_pos
    omega
  simp only [hierarchical, h, if_true, if_pos hnodes] at hcount
  rw [reduceUpdate_apply hpos, size, hone _ (Nat.mul_pos c.nodes_pos c.npesNode_pos)] at hcount
  simp only [nodePart_apply c.npesNode_pos hpos, hone _ c.npesNode_pos] at hcount
  rw [Finset.prod_const, Finset.card_range, ← ofAdd_nsmul, smul_eq_mul,
    Nat.min_eq_left hlt.le] at hcount
  have hmul : c.groupSize * c.npesNode = c.nodes * c.npesNode :=
    ofAdd.injective hcount
  exact absurd (Nat.eq_of_mul_eq_mul_right c.npesNode_pos hmul) hlt.ne

end Call

def sixtyFourNodes : Call where
  nodes := 64
  npesNode := 1
  groupSize := 32
  op := .sum
  sizeofT := 4
  nreduce := 2
  hasReduceUpdate := true
  reduceScratchSize := 524288
  fcollectLlThreshold := 2048
  nodes_pos := by decide
  npesNode_pos := Nat.one_pos
  groupSize_pos := Mcast.warp_pos

end Nvshmem.RdxnHierarchical
