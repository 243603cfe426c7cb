import Nvshmem.Ib.Endpoints

/-! # Each endpoint is connected to the one of its peer

A call creates the endpoints of new queue pairs after those that there are and leaves these as they
are. The exchange takes the handle that a PE has put in its peer's block to the place at which the
peer looks for it. So in every sequence of calls the endpoints stay connected in pairs.
-/

namespace Nvshmem.Ib

open List Nat State

open Ibgda (intMax qpDefault qpAny)

open Loops

variable {job : Job}

namespace State

variable {s : State} {total qps : ℕ} {x : ℕ}

theorem createEndpoints_ep_eq : (s.createEndpoints job qps).ep =
    fill (rowMajor job.nPes) (fun _ qpn => qpn) (s.newEps job qps) s.nextQpn s.ep := rfl

section Create

variable (hs : s.nextQpIndex = total * job.nPes)

include hs

theorem firstEpIdx_eq : s.firstEpIdx job = total := by
  rw [firstEpIdx, hs, Nat.mul_div_cancel _ job.nPes_pos]

theorem mem_newEps {i j : ℕ} :
    (i, j) ∈ s.newEps job qps ↔ (total ≤ i ∧ i < total + qps) ∧ j < job.nPes := by
  rw [newEps, firstEpIdx_eq hs, mem_grid]

theorem newEps_ne (hx : x < total * job.nPes) :
    ∀ p ∈ s.newEps job qps, rowMajor job.nPes p ≠ x := by
  rintro ⟨i, j⟩ hp rfl
  have hi : total * job.nPes ≤ i * job.nPes := Nat.mul_le_mul_right _ ((mem_newEps hs).mp hp).1.1
  simp only [rowMajor] at hx
  omega

theorem createEndpoints_ep_of_lt (hx : x < total * job.nPes) :
    (s.createEndpoints job qps).ep x = s.ep x := by
  rw [createEndpoints_ep_eq]
  exact fill_of_forall_ne (newEps_ne hs hx)

end Create

theorem createEndpoints_ep {k : ℕ} {p : ℕ × ℕ} (hp : (s.newEps job qps)[k]? = some p) :
    (s.createEndpoints job qps).ep (rowMajor job.nPes p) = s.nextQpn + k := by
  rw [createEndpoints_ep_eq]
  exact fill_of_getElem? nodup_map_rowMajor hp

theorem localEpHandles_columnMajor {me : ℕ} {p : ℕ × ℕ} (hp : p ∈ s.newEps job qps) :
    s.localEpHandles job me qps (columnMajor (s.firstEpIdx job) qps p) =
      ⟨me, (s.createEndpoints job qps).ep (rowMajor job.nPes p)⟩ := by
  obtain ⟨k, hk⟩ := getElem?_of_mem hp
  rw [createEndpoints_ep hk]
  exact fill_of_getElem? nodup_map_columnMajor hk

theorem takeQpIndices_eq (nPes qps next : ℕ) : takeQpIndices nPes qps next =
    ((range qps).map fun k => next + k * nPes, next + qps * nPes) := by
  induction qps generalizing next with
  | zero => simp [takeQpIndices]
  | succ qps ih =>
    rw [takeQpIndices, ih, range_succ_eq_map]
    simp only [map_cons, map_map, Prod.mk.injEq, cons.injEq]
    refine ⟨⟨by ring, map_congr_left fun k _ => ?_⟩, by ring⟩
    simp only [Function.comp_apply, succ_mul]
    ring

section Return

variable (job : Job) (s : State) (b : Bool) (qps : ℕ)

theorem returnQpIndices_nextQpIndex :
    (s.returnQpIndices job b qps).nextQpIndex = s.nextQpIndex + qps * job.nPes := by
  cases b
  · simp only [returnQpIndices, Bool.false_eq_true, if_false, takeQpIndices_eq]
  · rfl

theorem returnQpIndices_handles : (s.returnQpIndices job false qps).handles =
    s.handles ++ (range qps).map fun k => s.nextQpIndex + k * job.nPes := by
  simp only [returnQpIndices, Bool.false_eq_true, if_false, takeQpIndices_eq]

theorem returnQpIndices_ep : (s.returnQpIndices job b qps).ep = s.ep := by
  cases b <;> rfl

theorem returnQpIndices_epCount : (s.returnQpIndices job b qps).epCount = s.epCount := by
  cases b <;> rfl

theorem returnQpIndices_nextQpn : (s.returnQpIndices job b qps).nextQpn = s.nextQpn := by
  cases b <;> rfl

theorem returnQpIndices_remote : (s.returnQpIndices job b qps).remote = s.remote := by
  cases b <;> rfl

end Return

end State

/-- The PEs have the endpoints of a number of queue pairs, connected in pairs. -/
structure Paired (job : Job) (w : ℕ → State) (total : ℕ) : Prop where
  nextQpIndex_eq : ∀ pe, (w pe).nextQpIndex = total * job.nPes
  nextQpn_pos : ∀ pe, 0 < (w pe).nextQpn
  ep_pos : ∀ pe x, x < total * job.nPes → 0 < (w pe).ep x
  ep_lt : ∀ pe x, x < total * job.nPes → (w pe).ep x < (w pe).nextQpn
  ep_inj : ∀ pe x y, x < total * job.nPes → y < total * job.nPes →
    (w pe).ep x = (w pe).ep y → x = y
  remote_eq : ∀ m < job.nPes, ∀ j < job.nPes, ∀ i < total,
    (w m).remote ((w m).ep (i * job.nPes + j)) = some ⟨j, (w j).ep (i * job.nPes + m)⟩

namespace Paired

variable {w : ℕ → State} {total : ℕ} {x i : ℕ}

section Create

variable (h : Paired job w total) (pe qps : ℕ)

include h

theorem createEndpoints_cases (hx : x < (total + qps) * job.nPes) :
    x < total * job.nPes ∧ ((w pe).createEndpoints job qps).ep x = (w pe).ep x ∨
      ∃ k p, ((w pe).newEps job qps)[k]? = some p ∧ x = rowMajor job.nPes p ∧
        ((w pe).createEndpoints job qps).ep x = (w pe).nextQpn + k := by
  by_cases hold : x < total * job.nPes
  · exact Or.inl ⟨hold, createEndpoints_ep_of_lt (h.nextQpIndex_eq pe) hold⟩
  · obtain ⟨i, hi, j, hj, rfl⟩ := exists_mul_add job.nPes_pos hx
    have hti : total ≤ i := by
      by_contra hlt
      exact hold (mul_add_lt (Nat.lt_of_not_le hlt) hj)
    have hmem : (i, j) ∈ (w pe).newEps job qps :=
      (mem_newEps (h.nextQpIndex_eq pe)).mpr ⟨⟨hti, hi⟩, hj⟩
    obtain ⟨k, hk⟩ := getElem?_of_mem hmem
    exact Or.inr ⟨k, (i, j), hk, rfl, createEndpoints_ep hk⟩

theorem createEndpoints_pos (hx : x < (total + qps) * job.nPes) :
    0 < ((w pe).createEndpoints job qps).ep x := by
  rcases h.createEndpoints_cases pe qps hx with ⟨hold, heq⟩ | ⟨k, p, -, -, heq⟩
  · exact heq ▸ h.ep_pos pe x hold
  · exact heq ▸ Nat.add_pos_left (h.nextQpn_pos pe) k

theorem createEndpoints_lt (hx : x < (total + qps) * job.nPes) :
    ((w pe).createEndpoints job qps).ep x < ((w pe).createEndpoints job qps).nextQpn := by
  rcases h.createEndpoints_cases pe qps hx with ⟨hold, heq⟩ | ⟨k, p, hk, -, heq⟩
  · exact heq ▸ Nat.lt_add_right _ (h.ep_lt pe x hold)
  · exact heq ▸ Nat.add_lt_add_left (List.getElem?_eq_some_iff.mp hk).1 _

theorem createEndpoints_inj {y : ℕ} (hx : x < (total + qps) * job.nPes)
    (hy : y < (total + qps) * job.nPes)
    (heq : ((w pe).createEndpoints job qps).ep x = ((w pe).createEndpoints job qps).ep y) :
    x = y := by
  -- the numbers of the old endpoints are below those of the new ones
  rcases h.createEndpoints_cases pe qps hx with ⟨hold, hx⟩ | ⟨k, p, hk, rfl, hx⟩ <;>
    rcases h.createEndpoints_cases pe qps hy with ⟨hold', hy⟩ | ⟨k', p', hk', rfl, hy⟩ <;>
    rw [hx, hy] at heq
  · exact h.ep_inj pe x y hold hold' heq
  · have := h.ep_lt pe x hold
    omega
  · have := h.ep_lt pe y hold'
    omega
  · rw [Nat.add_left_cancel heq, hk'] at hk
    rw [Option.some.inj hk]

theorem nodup_map_newEps : (((w pe).newEps job qps).map fun p =>
    ((w pe).createEndpoints job qps).ep (rowMajor job.nPes p)).Nodup := by
  apply nodup_grid.map_on
  rintro ⟨i, j⟩ hp ⟨i', j'⟩ hp' heq
  obtain ⟨⟨-, hi⟩, hj⟩ := (mem_newEps (h.nextQpIndex_eq pe)).mp hp
  obtain ⟨⟨-, hi'⟩, hj'⟩ := (mem_newEps (h.nextQpIndex_eq pe)).mp hp'
  exact rowMajor_inj hj hj' (h.createEndpoints_inj pe qps (mul_add_lt hi hj) (mul_add_lt hi' hj')
    heq)

theorem alltoall_columnMajor {me : ℕ} (j : ℕ) (hme : me < job.nPes) (hti : total ≤ i)
    (hi : i < total + qps) :
    alltoall qps (fun pe => (w pe).localEpHandles job pe qps) me (columnMajor total qps (i, j)) =
      ⟨j, ((w j).createEndpoints job qps).ep (i * job.nPes + me)⟩ := by
  have hlt : i - total < qps := by omega
  have hdiv : (j * qps + (i - total)) / qps = j := by
    rw [Nat.mul_comm, mul_add_div (zero_lt_of_lt hlt), div_eq_of_lt hlt, Nat.add_zero]
  have hmod : (j * qps + (i - total)) % qps = i - total := by
    rw [Nat.mul_comm, mul_add_mod, mod_eq_of_lt hlt]
  have hmem : (i, me) ∈ (w j).newEps job qps :=
    (mem_newEps (h.nextQpIndex_eq j)).mpr ⟨⟨hti, hi⟩, hme⟩
  have hsend : (w j).localEpHandles job j qps
      (columnMajor ((w j).firstEpIdx job) qps (i, me)) = _ :=
    localEpHandles_columnMajor hmem
  rw [firstEpIdx_eq (h.nextQpIndex_eq j)] at hsend
  simp only [alltoall, columnMajor, hdiv, hmod]
  exact hsend

end Create

section Connect

def connected (job : Job) (w : ℕ → State) (qps me : ℕ) : State :=
  ((w me).createEndpoints job qps).connect job qps
    (alltoall qps (fun pe => (w pe).localEpHandles job pe qps) me)

theorem connected_ep (qps pe : ℕ) :
    (connected job w qps pe).ep = ((w pe).createEndpoints job qps).ep := rfl

variable (h : Paired job w total) (qps : ℕ)

include h

theorem connected_remote {m j : ℕ} (hm : m < job.nPes) (hj : j < job.nPes) (hi : i < total + qps) :
    (connected job w qps m).remote ((connected job w qps m).ep (i * job.nPes + j)) =
      some ⟨j, (connected job w qps j).ep (i * job.nPes + m)⟩ := by
  have hfirst : ((w m).createEndpoints job qps).firstEpIdx job = total :=
    firstEpIdx_eq (h.nextQpIndex_eq m)
  rcases Nat.lt_or_ge i total with hlt | hge
  · have hold : ∀ pe < job.nPes, ∀ pe', ((w pe').createEndpoints job qps).ep (i * job.nPes + pe) =
        (w pe').ep (i * job.nPes + pe) := fun pe hpe pe' =>
      createEndpoints_ep_of_lt (h.nextQpIndex_eq pe') (mul_add_lt hlt hpe)
    have hsame : (connected job w qps m).remote ((w m).ep (i * job.nPes + j)) =
        (w m).remote ((w m).ep (i * job.nPes + j)) := by
      refine foldl_update_of_forall_ne (f := fun p _ => some _) ?_
      rintro ⟨i', j'⟩ hp heq
      obtain ⟨⟨hi', hi''⟩, hj'⟩ := (mem_newEps (h.nextQpIndex_eq m)).mp hp
      rw [← hold j hj m] at heq
      have := h.createEndpoints_inj m qps (mul_add_lt hi'' hj') (mul_add_lt hi hj) heq
      have := (eq_and_eq_of_mul_add_eq hj' hj this).1
      omega
    rw [connected_ep, connected_ep, hold j hj m, hold m hm j, hsame]
    exact h.remote_eq m hm j hj i hlt
  · have hmem : (i, j) ∈ (w m).newEps job qps :=
      (mem_newEps (h.nextQpIndex_eq m)).mpr ⟨⟨hge, hi⟩, hj⟩
    have hnew := foldl_update_of_mem (a := (w m).remote)
      (f := fun p _ => some (alltoall qps (fun pe => (w pe).localEpHandles job pe qps) m
        (columnMajor (((w m).createEndpoints job qps).firstEpIdx job) qps p)))
      (h.nodup_map_newEps m qps) hmem
    refine hnew.trans ?_
    rw [hfirst, h.alltoall_columnMajor qps j hm hge hi]
    rfl

theorem returnQpIndices (b : Bool) :
    Paired job (fun me => (connected job w qps me).returnQpIndices job b qps) (total + qps) := by
  have hnext : ∀ pe, ((connected job w qps pe).returnQpIndices job b qps).nextQpIndex =
      (total + qps) * job.nPes := fun pe => by
    rw [returnQpIndices_nextQpIndex, Nat.add_mul, ← h.nextQpIndex_eq pe]
    rfl
  refine ⟨hnext, ?_, ?_, ?_, ?_, ?_⟩
  · intro pe
    rw [returnQpIndices_nextQpn]
    exact Nat.add_pos_left (h.nextQpn_pos pe) _
  · intro pe x hx
    rw [returnQpIndices_ep]
    exact h.createEndpoints_pos pe qps hx
  · intro pe x hx
    rw [returnQpIndices_ep, returnQpIndices_nextQpn]
    exact h.createEndpoints_lt pe qps hx
  · intro pe x y hx hy heq
    rw [returnQpIndices_ep] at heq
    exact h.createEndpoints_inj pe qps hx hy heq
  · intro m hm j hj i hi
    rw [returnQpIndices_ep, returnQpIndices_ep, returnQpIndices_remote]
    exact h.connected_remote qps hm hj hi

end Connect

end Paired

def Job.initialQps (job : Job) (numQps : ℕ) : ℕ :=
  (if 0 < numQps then numQps else job.ibNumRcPerDevice) + 1

structure Connected (job : Job) (w : ℕ → State) (initial count : ℕ) : Prop
    extends Paired job w (initial + count) where
  allocated : ∀ pe, (w pe).allocated = true
  epCount_eq : ∀ pe, (w pe).epCount = (initial + count) * job.nPes
  hostEpIndex_eq : ∀ pe, (w pe).hostEpIndex = qpHost
  handles_eq : ∀ pe, (w pe).handles = (List.range count).map fun k => (initial + k) * job.nPes

theorem connected_initial (job : Job) (numQps : ℕ) :
    Connected job (connectEndpoints job (fun _ => .init) numQps) (job.initialQps numQps) 0 := by
  have hready : Paired job (fun _ => (init.allocate job numQps).1) 0 := by
    refine ⟨fun _ => (Nat.zero_mul _).symm, fun _ => Nat.one_pos, ?_, ?_, ?_, ?_⟩ <;>
      simp only [Nat.zero_mul, Nat.not_lt_zero, false_implies, implies_true]
  have hpaired := hready.returnQpIndices (init.allocate job numQps).2 true
  rw [Nat.zero_add] at hpaired
  exact
    { hpaired with
      allocated := fun _ => rfl
      epCount_eq := fun _ => Nat.mul_comm _ _
      hostEpIndex_eq := fun _ => rfl
      handles_eq := fun _ => rfl }

namespace Connected

variable {w : ℕ → State} {initial count : ℕ}

section Facts

variable (h : Connected job w initial count)
include h

theorem connectEndpoints_eq (numQps : ℕ) :
    Ib.connectEndpoints job w numQps = fun me =>
      (Paired.connected job (fun pe => (w pe).enlarge job numQps) numQps me).returnQpIndices job
        false numQps := by
  have hready : ∀ pe, (w pe).allocate job numQps = ((w pe).enlarge job numQps, numQps) :=
    fun pe => if_pos (h.allocated pe)
  funext me
  simp only [Ib.connectEndpoints, hready, h.allocated me, Paired.connected, Bool.not_true]

theorem connectEndpoints (numQps : ℕ) :
    Connected job (Ib.connectEndpoints job w numQps) initial (count + numQps) := by
  have hpaired : Paired job (fun pe => (w pe).enlarge job numQps) (initial + count) :=
    ⟨h.nextQpIndex_eq, h.nextQpn_pos, h.ep_pos, h.ep_lt, h.ep_inj, h.remote_eq⟩
  have hnew := hpaired.returnQpIndices numQps false
  rw [Nat.add_assoc] at hnew
  rw [h.connectEndpoints_eq]
  refine { hnew with
    allocated := h.allocated, epCount_eq := ?_, hostEpIndex_eq := h.hostEpIndex_eq,
    handles_eq := ?_ }
  · intro pe
    calc (returnQpIndices job (Paired.connected job _ numQps pe) false numQps).epCount
        = (w pe).epCount + job.nPes * numQps := returnQpIndices_epCount _ _ _ _
      _ = (initial + (count + numQps)) * job.nPes := by rw [h.epCount_eq]; ring
  · intro pe
    calc (returnQpIndices job (Paired.connected job _ numQps pe) false numQps).handles
        = (w pe).handles ++ (range numQps).map fun k => (w pe).nextQpIndex + k * job.nPes :=
          returnQpIndices_handles _ _ _
      _ = (range (count + numQps)).map fun k => (initial + k) * job.nPes := by
        rw [h.handles_eq, h.nextQpIndex_eq, range_add, map_append, map_map]
        congr 1
        apply map_congr_left
        intro k _
        simp only [Function.comp_apply]
        ring

theorem connectEndpoints_ep_of_lt (numQps pe : ℕ) {x : ℕ} (hx : x < (initial + count) * job.nPes) :
    (Ib.connectEndpoints job w numQps pe).ep x = (w pe).ep x := by
  rw [h.connectEndpoints_eq, returnQpIndices_ep, Paired.connected_ep]
  exact createEndpoints_ep_of_lt (h.nextQpIndex_eq pe) hx

theorem connectEndpoints_curDefaultQpIndex (numQps pe : ℕ) :
    (Ib.connectEndpoints job w numQps pe).curDefaultQpIndex = (w pe).curDefaultQpIndex := by
  rw [h.connectEndpoints_eq]
  rfl

theorem foldl (more : List ℕ) :
    Connected job (more.foldl (Ib.connectEndpoints job) w) initial (count + more.sum) := by
  induction more generalizing w count with
  | nil => exact h
  | cons numQps more ih =>
    rw [foldl_cons, sum_cons, ← Nat.add_assoc]
    exact ih (h.connectEndpoints numQps)

end Facts

end Connected

def connectAll (job : Job) (first : ℕ) (more : List ℕ) : ℕ → State :=
  more.foldl (connectEndpoints job) (connectEndpoints job (fun _ => .init) first)

theorem connected_connectAll (job : Job) (first : ℕ) (more : List ℕ) :
    Connected job (connectAll job first more) (job.initialQps first) more.sum := by
  have h := (connected_initial job first).foldl more
  rwa [Nat.zero_add] at h

/-- After the calls, the endpoints of the PEs are connected in pairs, the entries of the array are
all different, and the handles returned, in their order, stand for the queue pairs that the later
calls have created. -/
structure EndpointsCorrect (job : Job) (first : ℕ) (more : List ℕ) : Prop where
  paired : ∀ m < job.nPes, ∀ j < job.nPes, ∀ i < job.initialQps first + more.sum,
    (connectAll job first more m).remote ((connectAll job first more m).ep (i * job.nPes + j)) =
      some ⟨j, (connectAll job first more j).ep (i * job.nPes + m)⟩
  inside : ∀ m < job.nPes, ∀ i < job.initialQps first + more.sum, ∀ j < job.nPes,
    i * job.nPes + j < (connectAll job first more m).epCount
  distinct : ∀ m < job.nPes, ∀ i < job.initialQps first + more.sum, ∀ j < job.nPes,
    ∀ i' < job.initialQps first + more.sum, ∀ j' < job.nPes,
    (connectAll job first more m).ep (i * job.nPes + j) =
      (connectAll job first more m).ep (i' * job.nPes + j') → i = i' ∧ j = j'
  handles_length : ∀ m < job.nPes, (connectAll job first more m).handles.length = more.sum
  handles_nodup : ∀ m < job.nPes, (connectAll job first more m).handles.Nodup
  addressed : ∀ m < job.nPes, ∀ k h, (connectAll job first more m).handles[k]? = some h →
    ∀ pe < job.nPes, ((connectAll job first more m).getEpFromQpIndex job h pe).1 =
      some ((job.initialQps first + k) * job.nPes + pe)

namespace State

variable {s : State} {h pe : ℕ}

theorem getEpFromQpIndex_of_lt (h1 : qpDefault < h) (hlt : h < s.nextQpIndex) (hany : h ≠ qpAny) :
    s.getEpFromQpIndex job h pe = (some (h + pe), s) := by
  have hhost : h ≠ qpHost := Nat.ne_zero_of_lt h1
  rw [getEpFromQpIndex, if_neg hhost, if_neg h1.ne', if_neg hany, if_pos ⟨h1, hlt⟩]

theorem getEpFromQpIndex_qpDefault_of_eq_zero (hjob : job.ibNumRcPerDevice = 0) :
    (s.getEpFromQpIndex job qpDefault pe).1 = some pe := by
  have hne : qpDefault ≠ qpHost := Nat.one_ne_zero
  simp only [getEpFromQpIndex, if_neg hne, if_pos, hjob, Nat.zero_add, mod_one, Nat.zero_mul]

end State

theorem Job.initialQps_pos {numQps : ℕ} : 0 < job.initialQps numQps := succ_pos _

theorem Job.ibNumRcPerDevice_eq_zero {numQps : ℕ} (h : job.initialQps numQps = 1) :
    job.ibNumRcPerDevice = 0 := by
  rw [initialQps, Nat.add_eq_right] at h
  split at h
  · next hpos => exact absurd h hpos.ne'
  · exact h

namespace Connected

variable {w : ℕ → State} {initial count : ℕ} (h : Connected job w initial count)

include h

theorem handles_getElem? {pe k x : ℕ} (hk : (w pe).handles[k]? = some x) :
    k < count ∧ x = (initial + k) * job.nPes := by
  rw [h.handles_eq, getElem?_map, Option.map_eq_some_iff] at hk
  obtain ⟨k', hk, rfl⟩ := hk
  obtain ⟨hlt, rfl⟩ := List.getElem?_eq_some_iff.mp hk
  rw [length_range] at hlt
  rw [getElem_range]
  exact ⟨hlt, rfl⟩

theorem handles_nodup (pe : ℕ) : (w pe).handles.Nodup := by
  rw [h.handles_eq]
  apply nodup_range.map
  intro k k' heq
  exact Nat.add_left_cancel (eq_of_mul_eq_mul_right job.nPes_pos heq)

theorem getEpFromQpIndex_handle {m k x pe : ℕ} (hfit : (initial + count) * job.nPes ≤ intMax)
    (hk : (w m).handles[k]? = some x) (hx : qpDefault < x) :
    (w m).getEpFromQpIndex job x pe = (some ((initial + k) * job.nPes + pe), w m) := by
  obtain ⟨hlt, rfl⟩ := h.handles_getElem? hk
  have hnext : (initial + k) * job.nPes < (w m).nextQpIndex := by
    rw [h.nextQpIndex_eq]
    exact Nat.mul_lt_mul_of_pos_right (Nat.add_lt_add_left hlt _) job.nPes_pos
  refine getEpFromQpIndex_of_lt hx hnext ?_
  rw [h.nextQpIndex_eq] at hnext
  exact (hnext.trans_le hfit).ne

end Connected

/-- The endpoints are connected in pairs and the handles stand for the new queue pairs, unless there
was only one endpoint when the first handle was returned: it is then that of the default queue
pairs. -/
theorem endpointsCorrect_iff (job : Job) (first : ℕ) (more : List ℕ)
    (hfit : (job.initialQps first + more.sum) * job.nPes ≤ intMax) :
    EndpointsCorrect job first more ↔ (0 < more.sum → 1 < job.initialQps first * job.nPes) := by
  have h := connected_connectAll job first more
  constructor
  · intro hcorrect hpos
    by_contra hle
    have hone : job.initialQps first * job.nPes = 1 :=
      le_antisymm (Nat.le_of_not_lt hle) (Nat.mul_pos Job.initialQps_pos job.nPes_pos)
    obtain ⟨hinitial, hn⟩ := mul_eq_one.mp hone
    have hhandle : (connectAll job first more 0).handles[0]? = some qpDefault := by
      rw [h.handles_eq, getElem?_map, getElem?_range hpos, Option.map_some, Nat.add_zero,
        hone]
      rfl
    have haddr := hcorrect.addressed 0 job.nPes_pos 0 qpDefault hhandle 0 job.nPes_pos
    rw [getEpFromQpIndex_qpDefault_of_eq_zero (Job.ibNumRcPerDevice_eq_zero hinitial),
      Nat.add_zero, Nat.add_zero, hone] at haddr
    exact absurd (Option.some.inj haddr) (by decide)
  · intro hone
    refine ⟨h.remote_eq, ?_, ?_, ?_, fun m _ => h.handles_nodup m, ?_⟩
    · intro m _ i hi j hj
      rw [h.epCount_eq]
      exact mul_add_lt hi hj
    · intro m _ i hi j hj i' hi' j' hj' heq
      exact eq_and_eq_of_mul_add_eq hj hj'
        (h.ep_inj m _ _ (mul_add_lt hi hj) (mul_add_lt hi' hj') heq)
    · intro m _
      rw [h.handles_eq, length_map, length_range]
    · intro m _ k x hk pe _
      obtain ⟨hlt, hx⟩ := h.handles_getElem? hk
      have hgt : qpDefault < x :=
        calc qpDefault < job.initialQps first * job.nPes := hone (zero_lt_of_lt hlt)
          _ ≤ (job.initialQps first + k) * job.nPes := Nat.mul_le_mul_right _ (Nat.le_add_right _ k)
          _ = x := hx.symm
      rw [h.getEpFromQpIndex_handle hfit hk hgt]

/-- Two PEs with one default queue pair that add one queue pair and then two. -/
theorem endpointsCorrect_two :
    EndpointsCorrect ⟨2, 1, Nat.two_pos⟩ 0 [1, 2] :=
  (endpointsCorrect_iff ⟨2, 1, Nat.two_pos⟩ 0 [1, 2] (by decide)).mpr (by decide)

/-- One PE without default queue pairs that adds a queue pair: its handle is the default one, which
selects the host's endpoint. -/
theorem not_endpointsCorrect_one : ¬ EndpointsCorrect ⟨1, 0, Nat.one_pos⟩ 0 [1] := by
  intro h
  have haddr := h.addressed 0 Nat.one_pos 0 1 (by decide) 0 Nat.one_pos
  exact absurd haddr (by decide)

end Nvshmem.Ib
