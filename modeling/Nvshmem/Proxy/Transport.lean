import Nvshmem.Proxy.Codec

/-! # Calls to the transports

The proxy turns a request into calls to the transport of a PE. With rail optimisation
the transport of the PE with the caller's own rank on the target node stands in for
the target, except that atomics still go to the target itself.
-/

namespace Nvshmem.Proxy

open List

/-- The PEs of a job, and the rank and number of the PEs on the caller's node. -/
structure Job where
  npes : ℕ
  mype : ℕ
  railOpt : Bool
  npesNode : ℕ
  mypeNode : ℕ
  mypeNode_lt : mypeNode < npesNode
  npesNode_dvd : railOpt = true → npesNode ∣ npes

def Job.twoByTwo : Job := ⟨4, 0, true, 2, 0, Nat.two_pos, by decide⟩

inductive Call where
  | post (pe : ℕ) (qp : BitVec 32)
  | fence (pe : ℕ) (qp : BitVec 32) (isMulti : Bool)
  | quiet (pe : ℕ) (qp : BitVec 32)
deriving DecidableEq

namespace Job

variable (job : Job)

/-- `NVSHMEMU_PE_TRANSLATE`. -/
def translate (pe : ℕ) : ℕ :=
  if job.railOpt then pe / job.npesNode * job.npesNode + job.mypeNode else pe

def named (pe : BitVec 16) : List ℕ := if pe = peAll then List.range job.npes else [pe.toNat]

def fenceCalls (pairs : List (BitVec 16 × BitVec 32)) : List Call :=
  pairs.flatMap fun pair =>
    (job.named pair.1).map fun pe => .fence (job.translate pe) pair.2 (1 < pairs.length)

def quietCalls (pairs : List (BitVec 16 × BitVec 32)) : List Call :=
  pairs.flatMap fun pair =>
    (job.named pair.1).map fun pe => .quiet (job.translate (pe % job.npes)) pair.2

def calls : Posted → List Call
  | .rma _ _ _ size pe qp => if size = 0 then [] else [.post (job.translate pe.toNat) qp]
  | .inline _ _ _ pe qp => [.post (job.translate pe.toNat) qp]
  | .amo _ _ _ _ _ _ pe qp => [.post pe.toNat qp]
  | .putSignal _ _ _ pe _ _ _ qp => [.post (job.translate pe.toNat) qp]
  | .fence => ((List.range job.npes).filter (· ≠ job.mype)).map (.fence · qpDefault false)
  | .qpFence pairs => job.fenceCalls pairs
  | .qpQuiet pairs => job.quietCalls pairs

/-- The calls of `progress_quiet` once the channel has caught up. -/
def quietAll : List Call := (List.range job.npes).map (.quiet · qpAll)

theorem translate_lt {pe : ℕ} (h : pe < job.npes) : job.translate pe < job.npes := by
  rw [translate]
  split_ifs with hrail
  · obtain ⟨nodes, hnodes⟩ := job.npesNode_dvd hrail
    have hnode : pe / job.npesNode < nodes := Nat.div_lt_of_lt_mul (hnodes ▸ h)
    calc pe / job.npesNode * job.npesNode + job.mypeNode
        < pe / job.npesNode * job.npesNode + job.npesNode := Nat.add_lt_add_left job.mypeNode_lt _
      _ = (pe / job.npesNode + 1) * job.npesNode := (Nat.succ_mul ..).symm
      _ ≤ nodes * job.npesNode := Nat.mul_le_mul_right _ hnode
      _ = job.npes := by rw [hnodes, Nat.mul_comm]
  · exact h

end Job

def Request.InJob (job : Job) : Request → Prop
  | .dma _ _ _ _ pe _ | .inline _ _ _ pe _ | .amo _ _ pe _ | .putSignal _ _ _ pe _ _ _ _ =>
    pe.toNat < job.npes
  | .fence => True
  | .fenceQp pe _ | .quietQp pe _ => pe = peAll ∨ pe.toNat < job.npes

instance (job : Job) (r : Request) : Decidable (r.InJob job) := by
  cases r <;> unfold Request.InJob <;> infer_instance

def Call.Covers : Call → ℕ → BitVec 32 → Prop
  | .quiet pe qp, pe', qp' => pe = pe' ∧ (qp = qpAll ∨ qp = qp')
  | _, _, _ => False

def Request.target : Request → Option (BitVec 16 × BitVec 32)
  | .dma _ _ _ _ pe qp | .inline _ _ _ pe qp | .amo _ _ pe qp | .putSignal _ _ _ pe _ _ _ qp =>
    some (pe, qp)
  | .fence | .fenceQp _ _ | .quietQp _ _ => none

def Request.NamedBy (job : Job) (pe : BitVec 16) (qps : QpList) (r : Request) : Prop :=
  ∃ pe' qp', r.target = some (pe', qp') ∧ pe'.toNat ∈ job.named pe ∧
    (qp' ∈ qps.handles ∨ qpAll ∈ qps.handles)

def Request.OnRail (job : Job) : Request → Prop
  | .amo _ _ pe _ => job.translate pe.toNat = pe.toNat
  | _ => True

instance (job : Job) : (r : Request) → Decidable (r.OnRail job)
  | .amo _ _ pe _ => inferInstanceAs (Decidable (job.translate pe.toNat = pe.toNat))
  | .dma .. | .inline .. | .putSignal .. | .fence | .fenceQp .. | .quietQp .. => isTrue trivial

section Posts

variable {job : Job} {r : Request} {pe : ℕ} {pe' : BitVec 16} {qp : BitVec 32}

theorem lt_npes_of_target (h : r.InJob job) (ht : r.target = some (pe', qp)) :
    pe'.toNat < job.npes := by
  cases r <;> simp only [Request.target, Option.some.injEq, Prod.mk.injEq, reduceCtorEq] at ht
  all_goals exact ht.1 ▸ h

theorem target_of_post (h : .post pe qp ∈ job.calls r.decoded) : ∃ pe', r.target = some (pe', qp) ∧
    (pe = job.translate pe'.toNat ∨ pe = pe'.toNat ∧ ¬ r.OnRail job) := by
  cases r with
  | dma op offset laddr bytes target qp' =>
    change _ ∈ ite _ _ _ at h
    split_ifs at h
    · exact nomatch h
    · obtain ⟨rfl, rfl⟩ := Call.post.inj (mem_singleton.mp h)
      exact ⟨target, rfl, .inl rfl⟩
  | inline offset size value target qp'
  | putSignal offset laddr bytes target rsigoffset sigVal sigOp qp' =>
    obtain ⟨rfl, rfl⟩ := Call.post.inj (mem_singleton.mp h)
    exact ⟨target, rfl, .inl rfl⟩
  | amo offset args target qp' =>
    obtain ⟨rfl, rfl⟩ := Call.post.inj (mem_singleton.mp h)
    refine ⟨target, rfl, ?_⟩
    by_cases hrail : job.translate target.toNat = target.toNat
    · exact .inl hrail.symm
    · exact .inr ⟨rfl, hrail⟩
  | fence =>
    obtain ⟨i, -, hi⟩ := mem_map.mp h
    exact nomatch hi
  | fenceQp target qps | quietQp target qps =>
    obtain ⟨pair, -, hpair⟩ := mem_flatMap.mp h
    obtain ⟨i, -, hi⟩ := mem_map.mp hpair
    exact nomatch hi

theorem exists_covers_quietAll (hjob : r.InJob job) (h : .post pe qp ∈ job.calls r.decoded) :
    ∃ call ∈ job.quietAll, call.Covers pe qp := by
  obtain ⟨pe', htarget, hpe⟩ := target_of_post h
  have hlt := lt_npes_of_target hjob htarget
  have hpelt : pe < job.npes := by
    rcases hpe with rfl | ⟨rfl, -⟩
    · exact job.translate_lt hlt
    · exact hlt
  exact ⟨_, mem_map_of_mem (mem_range.mpr hpelt), rfl, .inl rfl⟩

theorem quiet_mem_calls {target : BitVec 16} {qps : QpList} (hlt : pe'.toNat < job.npes)
    (hpe : pe'.toNat ∈ job.named target) (hqp : qp ∈ qps.handles) :
    .quiet (job.translate pe'.toNat) qp ∈ job.calls (Request.quietQp target qps).decoded := by
  refine mem_flatMap.mpr ⟨(target, qp), mem_map_of_mem hqp, ?_⟩
  refine mem_map.mpr ⟨pe'.toNat, hpe, ?_⟩
  rw [Nat.mod_eq_of_lt hlt]

theorem exists_covers_quietQp {target : BitVec 16} {qps : QpList} (hjob : r.InJob job)
    (hrail : r.OnRail job) (hnamed : r.NamedBy job target qps)
    (h : .post pe qp ∈ job.calls r.decoded) :
    ∃ call ∈ job.calls (Request.quietQp target qps).decoded, call.Covers pe qp := by
  obtain ⟨pe', htarget, hpe⟩ := target_of_post h
  obtain rfl := hpe.resolve_right fun hoff => hoff.2 hrail
  obtain ⟨pe'', qp'', htarget', hpe'', hqp⟩ := hnamed
  obtain ⟨rfl, rfl⟩ := Prod.mk.inj (Option.some.inj (htarget.symm.trans htarget'))
  have hlt := lt_npes_of_target hjob htarget
  rcases hqp with hqp | hall
  · exact ⟨_, quiet_mem_calls hlt hpe'' hqp, rfl, .inr rfl⟩
  · exact ⟨_, quiet_mem_calls hlt hpe'' hall, rfl, .inl rfl⟩

end Posts

section QpFence

variable {logSize entry : ℕ} {buf : ℕ → BitVec 64} {pe : BitVec 16} {qps : QpList}

theorem fenceQpPe_eq_self_iff : fenceQpPe pe = pe ↔ pe = 106 := by
  constructor
  · intro h
    have hnat : 106 ||| pe.toNat >>> 8 = pe.toNat := congrArg BitVec.toNat h
    have hhigh : pe.toNat >>> 8 < 2 ^ 8 := by
      rw [Nat.shiftRight_eq_div_pow]
      exact Nat.div_lt_of_lt_mul pe.isLt
    have hlt : pe.toNat < 2 ^ 8 := hnat ▸ Nat.or_lt_two_pow (by decide) hhigh
    rw [Nat.shiftRight_eq_zero _ _ hlt] at hnat
    exact BitVec.eq_of_toNat_eq hnat.symm
  · rintro rfl
    decide

theorem map_fenceQpPe_iff {handles : List (BitVec 32)} :
    handles.map (fun qp => (fenceQpPe pe, qp)) = handles.map (fun qp => (pe, qp)) ↔
      handles = [] ∨ pe = 106 := by
  rw [map_inj_left]
  constructor
  · intro h
    cases handles with
    | nil => exact Or.inl rfl
    | cons qp handles =>
      exact Or.inr (fenceQpPe_eq_self_iff.mp (Prod.mk.inj (h qp mem_cons_self)).1)
  · rintro (rfl | hpe) qp hqp
    · cases hqp
    · rw [fenceQpPe_eq_self_iff.mpr hpe]

/-- Of a QP fence, the proxy finds the number and the handles of the QPs. It finds the PE, and
fences it or all PEs, exactly if no QP is named or the PE is the number of the operation. -/
theorem qpFence_stored_iff (job : Job) (logSize entry : ℕ) (buf : ℕ → BitVec 64) (pe : BitVec 16)
    (qps : QpList) (hsize : (Request.fenceQp pe qps).bytes ≤ 2 ^ logSize) :
    (qpCount (stored logSize buf entry (.fenceQp pe qps) 0) = qps.handles.length ∧
      (process (stored logSize buf entry (.fenceQp pe qps)) .qpFence).posted =
        .qpFence (qps.handles.map fun qp => (pe, qp)) ∧
      job.calls (process (stored logSize buf entry (.fenceQp pe qps)) .qpFence).posted =
        qps.handles.flatMap fun qp =>
          (job.named pe).map fun i => .fence (job.translate i) qp (1 < qps.handles.length)) ↔
    qps.handles = [] ∨ pe = 106 := by
  have hreads : Reads (stored logSize buf entry (.fenceQp pe qps)) (.fenceQp pe qps) _ :=
    reads_stored hsize
  have hcount : qpCount (stored logSize buf entry (.fenceQp pe qps) 0) = qps.handles.length := by
    rw [hreads 0 _ rfl, qpCount_qpSyncBase]
  have hposted : (process (stored logSize buf entry (.fenceQp pe qps)) .qpFence).posted =
      .qpFence (qps.handles.map fun qp => (fenceQpPe pe, qp)) :=
    congrArg Handled.posted (process_eq hreads).2.2
  rw [hposted, ← map_fenceQpPe_iff]
  constructor
  · rintro ⟨-, h, -⟩
    exact Posted.qpFence.inj h
  · intro h
    rw [h]
    refine ⟨hcount, rfl, ?_⟩
    rw [Job.calls, Job.fenceCalls, flatMap_map, length_map]

theorem qpFence_stored_iff_operation :
    (process (stored 6 (fun _ => 0) 7 (.fenceQp 106 ⟨[5, 9], by decide⟩)) .qpFence).posted =
      .qpFence [(106, 5), (106, 9)] :=
  ((qpFence_stored_iff ⟨128, 0, false, 8, 0, by decide, by decide⟩ 6 7 (fun _ => 0) 106
    ⟨[5, 9], by decide⟩ (by decide)).mpr (Or.inr rfl)).2.1

/-- The fence of PE 1 on one QP, in a job of two PEs, becomes a fence of PE 106. -/
theorem qpFence_of_pe_one :
    (process (stored 6 (fun _ => 0) 0 (.fenceQp 1 ⟨[5], by decide⟩)) .qpFence).posted ≠
      .qpFence [(1, 5)] ∧
    Job.calls ⟨2, 0, false, 2, 0, by decide, by decide⟩
      (process (stored 6 (fun _ => 0) 0 (.fenceQp 1 ⟨[5], by decide⟩)) .qpFence).posted =
        [.fence 106 5 false] := by
  decide +kernel

end QpFence

end Nvshmem.Proxy
