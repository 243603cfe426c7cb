import Nvshmem.Ibgda.Rc
import Nvshmem.Queues.Basic

/-! # Put with signal from the GPU

A put with a signal writes the data in as many chunks as the registrations of both buffers cut it
into. If they are few enough for the group of threads, the writes and the update of the signal are
posted together. Otherwise a single thread first writes the data as an ordinary put, which selects a
queue pair of its own.
-/

namespace Nvshmem.Ibgda

open Queues Transition List Option List Option List Nat Device

inductive Scope where
  | thread | warp | block
deriving DecidableEq

inductive Qp where
  | dci (idx : ℕ)
  | rc (idx : ℕ)
deriving DecidableEq

/-- The work queue elements of a call. Threads of a warp that call together have one call each. -/
inductive Wqe where
  | data (lane chunk : ℕ)
  | signal (lane : ℕ)
deriving DecidableEq

/-- `IBGDA_MAX_TRANSFER_SIZE` -/
def maxTransferSize : ℕ := 2147483648

/-- `ibgda_cal_transfer_size`, from what is left of the registrations at the addresses. -/
def calTransferSize (lchunkSize rchunkSize : ℕ → ℕ) (reqSize laddr raddr : ℕ) : ℕ :=
  min maxTransferSize (min reqSize (min (rchunkSize raddr) (lchunkSize laddr)))

/-- A call of `nvshmemi_ibgda_put_signal` towards a PE. `lanes` threads of a warp call together with
the scope of a thread, and agree on whether their data is one chunk: the code shuffles among them
otherwise while some are elsewhere. -/
structure PutSignal where
  dev : Device
  pe : ℕ
  rcEnabled : Bool
  /-- The number from which `ibgda_get_dci` derives the queue pair of a thread. -/
  dciId : ℕ
  numQpGroups : ℕ
  numExclusiveDcis : ℕ
  numSharedDcis : ℕ
  qpIndex : ℕ
  scope : Scope
  isNbi : Bool
  lanes : ℕ
  lptr : ℕ → ℕ
  rptr : ℕ → ℕ
  bytes : ℕ → ℕ
  /-- What is left of the registration at a local address. -/
  lchunkSize : ℕ → ℕ
  /-- What is left of the registration at a remote address. -/
  rchunkSize : ℕ → ℕ
  pe_lt : pe < dev.npes
  qpIndex_valid : dev.Valid qpIndex
  lchunkSize_pos : ∀ addr, 0 < lchunkSize addr
  rchunkSize_pos : ∀ addr, 0 < rchunkSize addr
  lanes_pos : 0 < lanes
  lanes_eq : scope ≠ .thread → lanes = 1
  uniform : ∀ lane < lanes,
    calTransferSize lchunkSize rchunkSize (bytes lane) (lptr lane) (rptr lane) = bytes lane ↔
      calTransferSize lchunkSize rchunkSize (bytes 0) (lptr 0) (rptr 0) = bytes 0

namespace PutSignal

variable (c : PutSignal)

def transferSize (reqSize laddr raddr : ℕ) : ℕ :=
  calTransferSize c.lchunkSize c.rchunkSize reqSize laddr raddr

def chunkSizes : ℕ → ℕ → ℕ → ℕ → List ℕ
  | 0, _, _, _ => []
  | fuel + 1, laddr, raddr, remaining =>
    if 0 < remaining then
      let size := c.transferSize remaining laddr raddr
      size :: chunkSizes fuel (laddr + size) (raddr + size) (remaining - size)
    else []

def numChunks (lane : ℕ) : ℕ :=
  (c.chunkSizes (c.bytes lane) (c.lptr lane) (c.rptr lane) (c.bytes lane)).length

def Single (lane : ℕ) : Prop :=
  c.transferSize (c.bytes lane) (c.lptr lane) (c.rptr lane) = c.bytes lane

instance (lane : ℕ) : Decidable (c.Single lane) := inferInstanceAs (Decidable (_ = _))

def Fallback : Prop :=
  match c.scope with
  | .thread => ¬ c.Single 0
  | _ => 32 - 1 < c.numChunks 0

instance : Decidable c.Fallback := by
  unfold Fallback
  split <;> infer_instance

/-- `ibgda_get_dci` for a position of the switch. -/
def dci (devOffset : UInt8) : Qp :=
  let ndevices := c.dev.numDevicesInitialized
  let id := c.dciId / ndevices * ndevices + devOffset.toNat % ndevices
  .dci (if id < c.numExclusiveDcis then id else c.numExclusiveDcis + id % c.numSharedDcis)

def UsesRc : Prop := c.rcEnabled ∧ c.pe ≠ c.dev.mype

instance : Decidable c.UsesRc := inferInstanceAs (Decidable (_ ∧ _))

/-- `ibgda_get_qp` -/
def getQp (switches : Switches) (qpIndex : ℕ) : Qp × Switches :=
  if c.UsesRc then
    let next := c.dev.getRc switches c.pe qpIndex
    (.rc next.1, next.2)
  else
    let group := c.dciId % c.numQpGroups
    let next := switches group + 1
    (c.dci next, Function.update switches group next)

/-- The handles with which the call selects queue pairs, in order. A warp or block selects one
before it counts the chunks, and its first thread starts anew if they are too many. -/
def selections : List ℕ :=
  if c.Fallback then
    match c.scope with
    | .thread => [c.qpIndex, qpDefault]
    | _ => [c.qpIndex, qpDefault, qpDefault]
  else [c.qpIndex]

def signalChoice : ℕ := if c.Fallback then c.selections.length - 2 else 0

def dataChoice : ℕ := c.selections.length - 1

def choice : Wqe → ℕ
  | .data _ _ => c.dataChoice
  | .signal _ => c.signalChoice

def program : List Wqe :=
  if c.Fallback then
    (List.range ((List.range c.lanes).map c.numChunks).sum).flatMap (fun chunk =>
      ((List.range c.lanes).filter (chunk < c.numChunks ·)).map (.data · chunk)) ++
    (List.range c.lanes).map .signal
  else
    match c.scope with
    | .thread => (List.range c.lanes).flatMap fun lane => [.data lane 0, .signal lane]
    | _ => (List.range (c.numChunks 0)).map (.data 0) ++ [.signal 0]

structure State where
  switches : Switches
  /-- The queue pairs that were selected. -/
  chosen : List Qp
  net : Net Qp
  /-- The positions of the work queue elements. -/
  places : List ℕ
  /-- The number of elements on the signal's queue pair for which `ibgda_quiet` waits. -/
  target : Option ℕ
  returned : Bool

inductive Action where
  | others (switches : Switches)
  | select
  | post
  | quiet
  | ret
  | net (e : Event Qp)

namespace State

def start (switches : Switches) (net : Net Qp) : State := ⟨switches, [], net, [], none, false⟩

variable (s : State)

def qpOf (w : Wqe) : Option Qp := s.chosen[c.choice w]?

def signalQp : Option Qp := s.chosen[c.signalChoice]?

/-- The steps of the call. Meanwhile, other threads turn the switches and post on the queue pairs,
and the NIC works. -/
def step : Action → Option State
  | .others switches => some { s with switches }
  | .select =>
    c.selections[s.chosen.length]?.map fun qpIndex =>
      let next := c.getQp s.switches qpIndex
      { s with chosen := s.chosen ++ [next.1], switches := next.2 }
  | .post =>
    if s.chosen.length = c.selections.length then
      (c.program[s.places.length]?.bind (s.qpOf c)).map fun qp =>
        { s with
          net := { s.net with posted := s.net.posted ++ [qp] }
          places := s.places ++ [s.net.posted.length] }
    else none
  | .quiet =>
    if s.places.length = c.program.length ∧ s.target = none then
      (s.signalQp c).map fun qp => { s with target := some (s.net.posted.count qp) }
    else none
  | .ret =>
    if s.places.length = c.program.length ∧
        (c.isNbi ∨ ∃ n ∈ s.target, ∃ qp ∈ s.signalQp c, n ≤ s.net.completed qp) then
      some { s with returned := true }
    else none
  | .net e => (s.net.step e).map fun net => { s with net }

def At (w : Wqe) (k : ℕ) : Prop := ∃ i : ℕ, c.program[i]? = some w ∧ s.places[i]? = some k

/-- A signal takes effect after the data of its call, and a blocking call returns after the data has
completed. -/
def InOrder : Prop :=
  (∀ lane < c.lanes, ∀ k, s.At c (.signal lane) k → s.net.Applied k →
    ∀ chunk < c.numChunks lane, ∃ k', s.At c (.data lane chunk) k' ∧ s.net.Applied k') ∧
  (s.returned → ¬ c.isNbi → ∀ lane < c.lanes, ∀ chunk < c.numChunks lane,
    ∃ k, s.At c (.data lane chunk) k ∧ s.net.Completed k)

end State

/-- The signal's and the data's selection cannot but take the same queue pair. -/
def OneQp : Prop :=
  if c.UsesRc then
    c.dev.numDefault = 1 ∧
      (c.scope ≠ .thread ∨ c.qpIndex = qpDefault ∨
        c.qpIndex = qpAny ∧ c.dev.numRcPerPe * c.dev.numDevicesInitialized = 1)
  else ∀ v w, c.dci v = c.dci w

end PutSignal

namespace PutSignal

variable {c : PutSignal} {laddr raddr size fuel lane chunk : ℕ}

theorem transferSize_le : c.transferSize size laddr raddr ≤ size :=
  (min_le_right _ _).trans (min_le_left _ _)

theorem numChunks_le_one (h : c.Single lane) : c.numChunks lane ≤ 1 := by
  rw [numChunks]
  cases hb : c.bytes lane with
  | zero => exact Nat.zero_le 1
  | succ n =>
    rw [chunkSizes, if_pos n.succ_pos, ← hb]
    simp only [show c.transferSize (c.bytes lane) _ _ = c.bytes lane from h, Nat.sub_self,
      length_cons]
    cases n <;> simp [chunkSizes]

theorem numChunks_pos (h : 0 < c.bytes lane) : 0 < c.numChunks lane := by
  obtain ⟨n, hn⟩ := exists_eq_succ_of_ne_zero h.ne'
  rw [numChunks, hn]
  exact succ_pos _

theorem Fallback.numChunks_pos (h : c.Fallback) : 0 < c.numChunks 0 := by
  rw [Fallback] at h
  split at h
  · refine PutSignal.numChunks_pos (Nat.pos_of_ne_zero fun h0 => h ?_)
    rw [Single, h0]
    exact le_zero.mp transferSize_le
  · omega

theorem exists_before_of_append {l l' : List Wqe} {w w' : Wqe} {i : ℕ}
    (hi : (l ++ l')[i]? = some w) (hw : w ∉ l) (hw' : w' ∈ l) :
    ∃ i' < i, (l ++ l')[i']? = some w' := by
  have hge : l.length ≤ i := by
    by_contra hlt
    rw [getElem?_append_left (by omega)] at hi
    exact hw (mem_of_getElem? hi)
  obtain ⟨i', hi', rfl⟩ := getElem_of_mem hw'
  exact ⟨i', by omega, by rw [getElem?_append_left hi', getElem?_eq_getElem hi']⟩

theorem exists_before_of_pairs {l : List ℕ} {i : ℕ}
    (hi : (l.flatMap fun lane => [Wqe.data lane 0, .signal lane])[i]? = some (.signal lane)) :
    ∃ i' < i, (l.flatMap fun lane => [Wqe.data lane 0, .signal lane])[i']? =
      some (.data lane 0) := by
  induction l generalizing i with
  | nil => simp at hi
  | cons first l ih =>
    simp only [flatMap_cons, cons_append, nil_append] at hi ⊢
    match i with
    | 0 => simp at hi
    | 1 =>
      simp only [getElem?_cons_succ, getElem?_cons_zero, some.injEq,
        Wqe.signal.injEq] at hi
      exact ⟨0, Nat.zero_lt_one, by rw [hi]; rfl⟩
    | i + 2 =>
      obtain ⟨i', hlt, hi'⟩ := ih hi
      exact ⟨i' + 2, by omega, hi'⟩

theorem data_mem_program (hl : lane < c.lanes) (hc : chunk < c.numChunks lane) :
    .data lane chunk ∈ c.program := by
  rw [program]
  split
  · refine mem_append_left _ (mem_flatMap.mpr ⟨chunk, ?_, ?_⟩)
    · refine mem_range.mpr (hc.trans_le ?_)
      exact le_sum_of_mem (mem_map_of_mem (mem_range.mpr hl))
    · exact mem_map_of_mem (mem_filter.mpr ⟨mem_range.mpr hl, by simpa using hc⟩)
  · next hnot =>
    split
    · next hscope =>
      have hsingle : c.Single lane := by
        rw [Fallback, hscope] at hnot
        exact (c.uniform lane hl).mpr (not_not.mp hnot)
      have := numChunks_le_one hsingle
      obtain rfl : chunk = 0 := by omega
      exact mem_flatMap.mpr ⟨lane, mem_range.mpr hl, by simp⟩
    · next hscope =>
      obtain rfl : lane = 0 := by
        have := c.lanes_eq hscope
        omega
      exact mem_append_left _ (mem_map_of_mem (mem_range.mpr hc))

theorem signal_mem_program (hl : lane < c.lanes) : .signal lane ∈ c.program := by
  rw [program]
  split
  · exact mem_append_right _ (mem_map_of_mem (mem_range.mpr hl))
  · split
    · exact mem_flatMap.mpr ⟨lane, mem_range.mpr hl, by simp⟩
    · next hscope =>
      obtain rfl : lane = 0 := by
        have := c.lanes_eq hscope
        omega
      exact mem_append_right _ (mem_singleton_self _)

theorem exists_data_before {i : ℕ} (hi : c.program[i]? = some (.signal lane))
    (hl : lane < c.lanes) (hc : chunk < c.numChunks lane) :
    ∃ i' < i, c.program[i']? = some (.data lane chunk) := by
  have hmem := data_mem_program hl hc
  by_cases hf : c.Fallback
  · simp only [program, if_pos hf] at hi hmem ⊢
    refine exists_before_of_append hi ?_ (mem_append.mp hmem |>.resolve_right ?_)
    · simp [mem_flatMap]
    · simp
  · simp only [program, if_neg hf] at hi hmem ⊢
    cases hscope : c.scope with
    | thread =>
      simp only [hscope] at hi hmem ⊢
      obtain rfl : chunk = 0 := by
        simp only [mem_flatMap, mem_cons, Wqe.data.injEq, reduceCtorEq,
          not_mem_nil, or_false] at hmem
        obtain ⟨_, _, _, h0⟩ := hmem
        exact h0
      exact exists_before_of_pairs hi
    | warp | block =>
      simp only [hscope] at hi hmem ⊢
      refine exists_before_of_append hi ?_ (mem_append.mp hmem |>.resolve_right ?_) <;> simp

end PutSignal

namespace PutSignal

variable {c : PutSignal} {switches : Switches}

def signalHandle (c : PutSignal) : ℕ :=
  if c.Fallback ∧ c.scope ≠ .thread then qpDefault else c.qpIndex

theorem selections_of_fallback (h : c.Fallback) :
    c.selections[c.signalChoice]? = some c.signalHandle ∧
      c.selections[c.dataChoice]? = some qpDefault ∧ c.dataChoice = c.signalChoice + 1 := by
  rw [signalChoice, dataChoice, signalHandle, selections]
  cases hscope : c.scope <;> simp [h]

theorem choice_of_not_fallback (h : ¬ c.Fallback) : c.dataChoice = c.signalChoice := by
  rw [signalChoice, dataChoice, if_neg h, selections, if_neg h]
  rfl

theorem getQp_rc (hrc : c.UsesRc) {qpIndex : ℕ} :
    (c.getQp switches qpIndex).1 = .rc (c.dev.getRc switches c.pe qpIndex).1 := by
  rw [getQp, if_pos hrc]

theorem getQp_dci (hrc : ¬ c.UsesRc) {qpIndex : ℕ} :
    (c.getQp switches qpIndex).1 = c.dci (switches (c.dciId % c.numQpGroups) + 1) := by
  rw [getQp, if_neg hrc]

theorem UsesRc.one_lt_npes (hrc : c.UsesRc) : 1 < c.dev.npes := by
  have hpe := c.pe_lt
  have hmype := c.dev.mype_lt
  have hne := hrc.2
  omega

theorem getRc_qpDefault {pe : ℕ} : (c.dev.getRc switches pe qpDefault).1 =
    (switches 0 + 1).toNat % c.dev.numDefault * c.dev.npes + pe := by
  rfl

theorem getRc_qpAny {pe : ℕ} : (c.dev.getRc switches pe qpAny).1 =
    (switches 1 + 1).toNat % (c.dev.numRcPerPe * c.dev.numDevicesInitialized) * c.dev.npes +
      pe := by
  rfl

theorem numDefault_eq_one {x : ℕ}
    (h : ∀ switches : Switches, (c.dev.getRc switches c.pe qpDefault).1 = x) :
    c.dev.numDefault = 1 ∧ x = c.pe := by
  have h0 := h fun _ => 255
  have h1 := h fun _ => 0
  change 0 % c.dev.numDefault * c.dev.npes + c.pe = x at h0
  change 1 % c.dev.numDefault * c.dev.npes + c.pe = x at h1
  rw [zero_mod, Nat.zero_mul, Nat.zero_add] at h0
  refine ⟨?_, h0.symm⟩
  by_contra hne
  have hpos := c.dev.numDefault_pos
  rw [mod_eq_of_lt (by omega), Nat.one_mul] at h1
  have := c.dev.npes_pos
  omega

theorem oneQp_iff (hf : c.Fallback) : c.OneQp ↔ ∀ switches switches',
    (c.getQp switches c.signalHandle).1 = (c.getQp switches' qpDefault).1 := by
  rw [OneQp]
  split
  · next hrc =>
    simp only [getQp_rc hrc, Qp.rc.injEq]
    by_cases hscope : c.scope = .thread
    · have hhandle : c.signalHandle = c.qpIndex := by simp [signalHandle, hscope]
      rw [hhandle]
      simp only [hscope, ne_eq, not_true_eq_false, false_or]
      constructor
      · rintro ⟨hone, hq | ⟨hq, hany⟩⟩ switches switches'
        · rw [hq, getRc_qpDefault, getRc_qpDefault, hone, mod_one, mod_one]
        · rw [hq, getRc_qpDefault, getRc_qpAny, hone, hany, mod_one, mod_one]
      · intro h
        obtain ⟨hone, hzero⟩ := numDefault_eq_one fun switches' => (h (fun _ => 0) switches').symm
        refine ⟨hone, ?_⟩
        rcases c.qpIndex_valid with hq | hq | ⟨k, hk, hq⟩
        · exact .inl hq
        · refine .inr ⟨hq, ?_⟩
          rw [hq, getRc_qpAny] at hzero
          change 1 % _ * _ + _ = _ at hzero
          by_contra hne
          have hpos : 0 < c.dev.numRcPerPe * c.dev.numDevicesInitialized := by
            rw [numRcPerPe_mul]
            omega
          rw [mod_eq_of_lt (by omega), Nat.one_mul] at hzero
          have := c.dev.npes_pos
          omega
        · rw [hq, getRc_handle hrc.one_lt_npes hk] at hzero
          have hpos : 0 < (c.dev.numDefault + k) * c.dev.npes :=
            Nat.mul_pos (by omega) c.dev.npes_pos
          omega
    · have hhandle : c.signalHandle = qpDefault := by simp [signalHandle, hscope, hf]
      rw [hhandle]
      simp only [hscope, ne_eq, not_false_eq_true, true_or, and_true]
      constructor
      · intro hone switches switches'
        rw [getRc_qpDefault, getRc_qpDefault, hone, mod_one, mod_one]
      · intro h
        exact (numDefault_eq_one fun switches' => (h (fun _ => 0) switches').symm).1
  · next hrc =>
    simp only [getQp_dci hrc]
    constructor
    · exact fun h _ _ => h _ _
    · intro h v w
      have := h (fun _ => v - 1) fun _ => w - 1
      simpa using this

end PutSignal

namespace PutSignal.State

variable {c : PutSignal} {s t : State} {a : Action} {switches : Switches} {net : Net Qp}

theorem step_select : s.step c .select = some t ↔ ∃ h, c.selections[s.chosen.length]? = some h ∧
    { s with
      chosen := s.chosen ++ [(c.getQp s.switches h).1]
      switches := (c.getQp s.switches h).2 } = t := by
  rw [step, map_eq_some_iff]

theorem step_post : s.step c .post = some t ↔ s.chosen.length = c.selections.length ∧
    ∃ w qp, c.program[s.places.length]? = some w ∧ s.qpOf c w = some qp ∧
      { s with
        net := { s.net with posted := s.net.posted ++ [qp] }
        places := s.places ++ [s.net.posted.length] } = t := by
  rw [step, ite_none_right_eq_some, map_eq_some_iff]
  simp only [bind_eq_some_iff]
  constructor
  · rintro ⟨hlen, qp, ⟨w, hw, hqp⟩, rfl⟩
    exact ⟨hlen, w, qp, hw, hqp, rfl⟩
  · rintro ⟨hlen, w, qp, hw, hqp, rfl⟩
    exact ⟨hlen, qp, ⟨w, hw, hqp⟩, rfl⟩

theorem step_quiet : s.step c .quiet = some t ↔ s.places.length = c.program.length ∧
    s.target = none ∧ ∃ qp, s.signalQp c = some qp ∧
      { s with target := some (s.net.posted.count qp) } = t := by
  rw [step, ite_none_right_eq_some, map_eq_some_iff, and_assoc]

theorem step_ret : s.step c .ret = some t ↔ s.places.length = c.program.length ∧
    (c.isNbi ∨ ∃ n ∈ s.target, ∃ qp ∈ s.signalQp c, n ≤ s.net.completed qp) ∧
      { s with returned := true } = t := by
  rw [step, ite_none_right_eq_some, some.injEq, and_assoc]

theorem step_net {e : Event Qp} : s.step c (.net e) = some t ↔
    ∃ net, s.net.step e = some net ∧ { s with net } = t := by
  rw [step, map_eq_some_iff]

structure Inv (c : PutSignal) (s : State) : Prop where
  wf : s.net.Wf
  chosen_le : s.chosen.length ≤ c.selections.length
  chosen : ∀ (i : ℕ) (qp : Qp), s.chosen[i]? = some qp →
    ∃ h, c.selections[i]? = some h ∧ ∃ switches, (c.getQp switches h).1 = qp
  posting : s.places ≠ [] → s.chosen.length = c.selections.length
  sorted : s.places.Pairwise (· < ·)
  lt_length : ∀ k ∈ s.places, k < s.net.posted.length
  place : ∀ i k : ℕ, s.places[i]? = some k →
    ∃ w qp, c.program[i]? = some w ∧ s.qpOf c w = some qp ∧ s.net.posted[k]? = some qp
  target : ∀ n ∈ s.target, s.places.length = c.program.length ∧
    ∃ qp, s.signalQp c = some qp ∧
      ∀ k ∈ s.places, s.net.posted[k]? = some qp → (s.net.posted.take k).count qp < n
  returned : s.returned → ¬ c.isNbi →
    ∃ n ∈ s.target, ∃ qp, s.signalQp c = some qp ∧ n ≤ s.net.completed qp

theorem inv_start (hw : net.Wf) : Inv c (start switches net) where
  wf := hw
  chosen_le := Nat.zero_le _
  chosen _ _ h := by simp [start] at h
  posting h := absurd rfl h
  sorted := .nil
  lt_length _ h := absurd h not_mem_nil
  place _ _ h := by simp [start] at h
  target _ h := by simp [start] at h
  returned h := by simp [start] at h

theorem program_ne_nil : c.program ≠ [] :=
  ne_nil_of_mem (signal_mem_program c.lanes_pos)

theorem Inv.places_eq_nil (hi : Inv c s) {h : ℕ} (hs : c.selections[s.chosen.length]? = some h) :
    s.places = [] ∧ s.target = none := by
  have hlt := (List.getElem?_eq_some_iff.mp hs).1
  have hplaces : s.places = [] := by
    by_contra hne
    exact hlt.ne (hi.posting hne)
  refine ⟨hplaces, eq_none_iff_forall_not_mem.mpr fun n hn => ?_⟩
  have hlen := (hi.target n hn).1
  rw [hplaces] at hlen
  exact program_ne_nil (length_eq_zero_iff.mp hlen.symm)

theorem Inv.select (hi : Inv c s) (hs : s.step c .select = some t) : Inv c t := by
  obtain ⟨h, hsel, rfl⟩ := step_select.mp hs
  obtain ⟨hplaces, htarget⟩ := hi.places_eq_nil hsel
  have hlt := (List.getElem?_eq_some_iff.mp hsel).1
  refine ⟨hi.wf, ?_, ?_, fun hne => absurd hplaces hne, hi.sorted, hi.lt_length, ?_, ?_, ?_⟩
  · simp only [length_append, length_singleton]
    omega
  · intro i qp hqp
    rcases Nat.lt_or_ge i s.chosen.length with hi' | hge
    · rw [getElem?_append_left hi'] at hqp
      exact hi.chosen i qp hqp
    · rw [getElem?_append_right hge, getElem?_singleton] at hqp
      split at hqp
      · next h0 =>
        obtain rfl : i = s.chosen.length := by omega
        exact ⟨h, hsel, _, some.inj hqp⟩
      · simp at hqp
  · intro i k hk
    simp [hplaces] at hk
  · intro n hn
    simp [htarget] at hn
  · intro hret hnbi
    obtain ⟨n, hn, -⟩ := hi.returned hret hnbi
    simp [htarget] at hn

theorem Inv.getElem?_append (hi : Inv c s) {l : List Qp} {k : ℕ} (hk : k ∈ s.places) :
    (s.net.posted ++ l)[k]? = s.net.posted[k]? ∧
      (s.net.posted ++ l).take k = s.net.posted.take k := by
  have hlt := hi.lt_length k hk
  exact ⟨getElem?_append_left hlt, take_append_of_le_length hlt.le⟩

theorem Inv.post (hi : Inv c s) (hs : s.step c .post = some t) : Inv c t := by
  obtain ⟨hlen, w, qp, hw, hqp, rfl⟩ := step_post.mp hs
  have hlt := (List.getElem?_eq_some_iff.mp hw).1
  have htarget : s.target = none := by
    refine eq_none_iff_forall_not_mem.mpr fun n hn => ?_
    exact hlt.ne (hi.target n hn).1
  refine ⟨hi.wf.step (e := .post qp) rfl, hi.chosen_le, hi.chosen, fun _ => hlen,
    ?_, ?_, ?_, ?_, ?_⟩
  · refine pairwise_append.mpr ⟨hi.sorted, pairwise_singleton _ _, fun k hk k' hk' => ?_⟩
    exact mem_singleton.mp hk' ▸ hi.lt_length k hk
  · intro k hk
    simp only [length_append, length_singleton]
    rcases mem_append.mp hk with hk | hk
    · have := hi.lt_length k hk
      omega
    · have := mem_singleton.mp hk
      omega
  · intro i k hk
    rcases Nat.lt_or_ge i s.places.length with hi' | hge
    · rw [getElem?_append_left hi'] at hk
      obtain ⟨w', qp', hw', hqp', hpost⟩ := hi.place i k hk
      exact ⟨w', qp', hw', hqp', (hi.getElem?_append (mem_of_getElem? hk)).1.trans hpost⟩
    · rw [getElem?_append_right hge, getElem?_singleton] at hk
      split at hk
      · next h0 =>
        obtain rfl : i = s.places.length := by omega
        cases hk
        exact ⟨w, qp, hw, hqp, by simp⟩
      · simp at hk
  · intro n hn
    simp [htarget] at hn
  · intro hret hnbi
    obtain ⟨n, hn, -⟩ := hi.returned hret hnbi
    simp [htarget] at hn

theorem Inv.quiet (hi : Inv c s) (hs : s.step c .quiet = some t) : Inv c t := by
  obtain ⟨hlen, htarget, qp, hqp, rfl⟩ := step_quiet.mp hs
  refine ⟨hi.wf, hi.chosen_le, hi.chosen, hi.posting, hi.sorted, hi.lt_length, hi.place, ?_, ?_⟩
  · intro n hn
    cases hn
    exact ⟨hlen, qp, hqp, fun k _ hpost => count_take_lt hpost⟩
  · intro hret hnbi
    obtain ⟨n, hn, -⟩ := hi.returned hret hnbi
    simp [htarget] at hn

theorem Inv.ret (hi : Inv c s) (hs : s.step c .ret = some t) : Inv c t := by
  obtain ⟨-, hwait, rfl⟩ := step_ret.mp hs
  refine ⟨hi.wf, hi.chosen_le, hi.chosen, hi.posting, hi.sorted, hi.lt_length, hi.place,
    hi.target, fun _ hnbi => ?_⟩
  exact hwait.resolve_left hnbi

theorem Inv.event (hi : Inv c s) {e : Event Qp} (hs : s.step c (.net e) = some t) : Inv c t := by
  obtain ⟨n, hn, rfl⟩ := step_net.mp hs
  obtain ⟨l, hl⟩ := Net.posted_prefix_of_step hn
  refine ⟨hi.wf.step hn, hi.chosen_le, hi.chosen, hi.posting, hi.sorted, ?_, ?_, ?_, ?_⟩
  · intro k hk
    rw [← hl, length_append]
    exact Nat.lt_add_right _ (hi.lt_length k hk)
  · intro i k hk
    obtain ⟨w, qp, hw, hqp, hpost⟩ := hi.place i k hk
    rw [← hl]
    exact ⟨w, qp, hw, hqp, (hi.getElem?_append (mem_of_getElem? hk)).1.trans hpost⟩
  · intro m hm
    obtain ⟨hlen, qp, hqp, hcount⟩ := hi.target m hm
    refine ⟨hlen, qp, hqp, fun k hk hpost => ?_⟩
    obtain ⟨hget, htake⟩ := hi.getElem?_append (l := l) hk
    rw [← hl, hget] at hpost
    rw [← hl, htake]
    exact hcount k hk hpost
  · intro hret hnbi
    obtain ⟨m, hm, qp, hqp, hle⟩ := hi.returned hret hnbi
    exact ⟨m, hm, qp, hqp, hle.trans (Net.completed_le_of_step hn qp)⟩

theorem Inv.step (hi : Inv c s) (hs : State.step c s a = some t) : Inv c t := by
  cases a with
  | others switches =>
    cases hs
    exact ⟨hi.wf, hi.chosen_le, hi.chosen, hi.posting, hi.sorted, hi.lt_length, hi.place,
      hi.target, hi.returned⟩
  | select => exact hi.select hs
  | post => exact hi.post hs
  | quiet => exact hi.quiet hs
  | ret => exact hi.ret hs
  | net e => exact hi.event hs

theorem inv_of_reachable (hw : net.Wf) (h : Reachable (step c) (start switches net) s) :
    Inv c s :=
  h.invariant (inv_start hw) fun hi hs => hi.step hs

theorem Inv.inOrder (hi : Inv c s)
    (hsame : s.places ≠ [] → s.chosen[c.dataChoice]? = s.chosen[c.signalChoice]?) :
    s.InOrder c := by
  constructor
  · rintro lane hl k ⟨i, hw, hk⟩ happ chunk hc
    obtain ⟨i', hlt, hw'⟩ := exists_data_before hw hl hc
    obtain ⟨hi', rfl⟩ := List.getElem?_eq_some_iff.mp hk
    have hk' : s.places[i']? = some s.places[i'] := getElem?_eq_getElem (hlt.trans hi')
    refine ⟨s.places[i'], ⟨i', hw', hk'⟩, happ.of_le ?_ ?_⟩
    · exact (pairwise_iff_getElem.mp hi.sorted i' i _ _ hlt).le
    · obtain ⟨w, qp, hwi, hqp, hpost⟩ := hi.place i _ hk
      obtain ⟨w', qp', hwi', hqp', hpost'⟩ := hi.place i' _ hk'
      obtain rfl := some.inj (hw.symm.trans hwi)
      obtain rfl := some.inj (hw'.symm.trans hwi')
      have heq := hsame (ne_nil_of_mem (mem_of_getElem? hk))
      rw [hpost, hpost', ← hqp, ← hqp']
      exact heq
  · intro hret hnbi lane hl chunk hc
    obtain ⟨n, hn, qp, hqp, hle⟩ := hi.returned hret hnbi
    obtain ⟨hlen, qp', hqp', hcount⟩ := hi.target n hn
    obtain rfl := some.inj (hqp.symm.trans hqp')
    obtain ⟨i, hi', hw⟩ := getElem_of_mem (data_mem_program hl hc)
    have hk : s.places[i]? = some s.places[i] := getElem?_eq_getElem (by omega)
    obtain ⟨w, qp', hwi, hqp', hpost⟩ := hi.place i _ hk
    rw [getElem?_eq_getElem hi', hw] at hwi
    obtain rfl := some.inj hwi
    have hmem := mem_of_getElem? hk
    have heq : some qp' = some qp := by
      rw [← hqp', ← hqp]
      exact hsame (ne_nil_of_mem hmem)
    obtain rfl := some.inj heq
    refine ⟨_, ⟨i, by rw [getElem?_eq_getElem hi', hw], hk⟩, qp', hpost, ?_⟩
    exact (hcount _ hmem hpost).trans_le hle

theorem Inv.qp_eq (hi : Inv c s) (h : ¬ c.Fallback ∨ c.OneQp) (hne : s.places ≠ []) :
    s.chosen[c.dataChoice]? = s.chosen[c.signalChoice]? := by
  by_cases hf : c.Fallback
  · obtain ⟨hsig, hdata, hsucc⟩ := selections_of_fallback hf
    have hlen := hi.posting hne
    have hlt := (List.getElem?_eq_some_iff.mp hdata).1
    obtain ⟨h₁, hh₁, sw₁, hsw₁⟩ := hi.chosen _ _ (getElem?_eq_getElem (hlen ▸ hlt))
    obtain ⟨h₂, hh₂, sw₂, hsw₂⟩ :=
      hi.chosen c.signalChoice _ (getElem?_eq_getElem (by omega))
    cases hdata.symm.trans hh₁
    cases hsig.symm.trans hh₂
    rw [getElem?_eq_getElem (hlen ▸ hlt), getElem?_eq_getElem (by omega), ← hsw₁, ← hsw₂,
      (oneQp_iff hf).mp (h.resolve_left (not_not.mpr hf)) sw₂ sw₁]
  · rw [choice_of_not_fallback hf]

theorem reachable_net {n : Net Qp} (h : Reachable Net.step s.net n) :
    Reachable (step c) s { s with net := n } := by
  obtain ⟨es, hes⟩ := h
  induction es generalizing s with
  | nil =>
    cases hes
    exact ⟨[], rfl⟩
  | cons e es ih =>
    obtain ⟨m, hm, hes⟩ := exec_cons_eq_some.mp hes
    have hstep : step c s (.net e) = some { s with net := m } := step_net.mpr ⟨m, hm, rfl⟩
    exact Reachable.trans ⟨[.net e], exec_cons_eq_some.mpr ⟨_, hstep, rfl⟩⟩
      (@ih { s with net := m } hes)

theorem exists_selected {h : ℕ} (hs : c.selections[s.chosen.length]? = some h)
    (switches : Switches) : ∃ t, Reachable (step c) s t ∧ t.net = s.net ∧ t.places = s.places ∧
      t.chosen = s.chosen ++ [(c.getQp switches h).1] := by
  have hothers : step c s (.others switches) = some { s with switches } := rfl
  have hselect := (@step_select c { s with switches } _).mpr ⟨h, hs, rfl⟩
  exact ⟨_, ⟨[.others switches, .select], exec_cons_eq_some.mpr
    ⟨_, hothers, exec_cons_eq_some.mpr ⟨_, hselect, rfl⟩⟩⟩, rfl, rfl, rfl⟩

theorem exists_chosen (hf : c.Fallback) (sw₁ sw₂ : Switches) :
    ∃ t, Reachable (step c) (start switches net) t ∧ t.net = net ∧ t.places = [] ∧
      t.chosen.length = c.selections.length ∧
      t.chosen[c.signalChoice]? = some (c.getQp sw₁ c.signalHandle).1 ∧
      t.chosen[c.dataChoice]? = some (c.getQp sw₂ qpDefault).1 := by
  obtain ⟨hsig, hdata, hsucc⟩ := selections_of_fallback hf
  have hlen : c.selections.length = c.signalChoice + 2 := by
    have := (List.getElem?_eq_some_iff.mp hdata).1
    rw [dataChoice] at hsucc this
    omega
  obtain ⟨t, ht, htn, htp, htc⟩ : ∃ t, Reachable (step c) (start switches net) t ∧ t.net = net ∧
      t.places = [] ∧ t.chosen.length = c.signalChoice := by
    by_cases hzero : c.signalChoice = 0
    · exact ⟨start switches net, ⟨[], rfl⟩, rfl, rfl, hzero.symm⟩
    · have hone : c.signalChoice = 1 := by
        rw [signalChoice, selections] at hzero ⊢
        cases hscope : c.scope <;> simp_all
      obtain ⟨t, ht, htn, htp, htc⟩ := @exists_selected c (start switches net) c.qpIndex
        (by rw [selections, if_pos hf]; cases hscope : c.scope <;> rfl) switches
      exact ⟨t, ht, htn, htp, by rw [htc, hone]; rfl⟩
  obtain ⟨u, hu, hun, hup, huc⟩ := exists_selected (htc ▸ hsig) sw₁
  have hulen : u.chosen.length = c.dataChoice := by
    rw [huc, length_append, htc, hsucc, length_singleton]
  obtain ⟨v, hv, hvn, hvp, hvc⟩ := exists_selected (hulen ▸ hdata) sw₂
  refine ⟨v, (ht.trans hu).trans hv, hvn.trans (hun.trans htn), hvp.trans (hup.trans htp), ?_, ?_,
    ?_⟩
  · rw [hvc, length_append, hulen, hsucc, hlen, length_singleton]
  · rw [hvc, getElem?_append_left (by omega), huc, ← htc]
    exact getElem?_concat_length
  · rw [hvc, ← hulen]
    exact getElem?_concat_length

theorem exists_posted (hf : c.Fallback) (hs : s.places = [])
    (hlen : s.chosen.length = c.selections.length) {n : ℕ} (hn : n ≤ c.program.length) :
    ∃ t, Reachable (step c) s t ∧ t.chosen = s.chosen ∧
      t.places = (List.range n).map (s.net.posted.length + ·) ∧
      t.net.posted.length = s.net.posted.length + n ∧ s.net.posted <+: t.net.posted ∧
      t.net.applied = s.net.applied := by
  obtain ⟨-, hdata, hsucc⟩ := selections_of_fallback hf
  have hlt := (List.getElem?_eq_some_iff.mp hdata).1
  induction n with
  | zero => exact ⟨s, ⟨[], rfl⟩, rfl, hs, rfl, prefix_rfl, rfl⟩
  | succ n ih =>
    obtain ⟨t, ht, htc, htp, htl, hpre, happ⟩ := ih (by omega)
    have hw : c.program[n]? = some c.program[n] := getElem?_eq_getElem hn
    obtain ⟨qp, hqp⟩ : ∃ qp, t.qpOf c c.program[n] = some qp := by
      refine ⟨_, getElem?_eq_getElem ?_⟩
      rw [htc, hlen]
      cases c.program[n] <;> simp only [choice] <;> omega
    have hstep := (@step_post c t _).mpr
      ⟨htc ▸ hlen, _, qp, by rwa [htp, length_map, length_range], hqp, rfl⟩
    refine ⟨_, ht.tail hstep, htc, ?_, ?_, hpre.trans (prefix_append _ _), happ⟩
    · rw [range_succ, map_append, htp, htl]
      rfl
    · simp [htl, Nat.add_assoc]

theorem exists_overtaken (hf : c.Fallback) (hw : net.Wf) {sw₁ sw₂ : Switches}
    (hne : (c.getQp sw₁ c.signalHandle).1 ≠ (c.getQp sw₂ qpDefault).1) :
    ∃ s, Reachable (step c) (start switches net) s ∧ ¬ s.InOrder c := by
  obtain ⟨t, ht, rfl, htp, htlen, htsig, htdata⟩ := @exists_chosen c switches net hf sw₁ sw₂
  obtain ⟨u, hu, huc, hup, hul, hpre, happ⟩ := exists_posted hf htp htlen le_rfl
  have hinv := inv_of_reachable hw (ht.trans hu)
  set qp := (c.getQp sw₁ c.signalHandle).1
  have happly := Net.reachable_apply (hinv.wf.applied_le qp) le_rfl
  have hplace : ∀ {i : ℕ} {w}, c.program[i]? = some w →
      u.places[i]? = some (t.net.posted.length + i) ∧
        u.net.posted[t.net.posted.length + i]? = t.chosen[c.choice w]? := by
    intro i w hi
    have hlt := (List.getElem?_eq_some_iff.mp hi).1
    have hk : u.places[i]? = some (t.net.posted.length + i) := by
      rw [hup]
      simp [hlt]
    obtain ⟨w', qp', hw', hqp', hpost⟩ := hinv.place i _ hk
    cases hi.symm.trans hw'
    exact ⟨hk, by rw [hpost, ← hqp', qpOf, huc]⟩
  refine ⟨_, (ht.trans hu).trans (reachable_net happly), fun horder => ?_⟩
  obtain ⟨i, hi, hsignal⟩ := getElem_of_mem (signal_mem_program c.lanes_pos)
  have hsignal : c.program[i]? = some (.signal 0) := by rw [getElem?_eq_getElem hi, hsignal]
  obtain ⟨hat, hpost⟩ := hplace hsignal
  obtain ⟨k, ⟨i', hdata, hat'⟩, happlied⟩ := horder.1 0 c.lanes_pos _ ⟨i, hsignal, hat⟩
    (among_of_count_le (i := qp) (hpost.trans htsig) (by simp)) 0 hf.numChunks_pos
  obtain ⟨hk, hpost'⟩ := hplace hdata
  cases hk.symm.trans hat'
  have hnot : ¬ ({ u.net with
      applied := Function.update u.net.applied qp (u.net.posted.count qp) } : Net Qp).Applied
        (t.net.posted.length + i') := by
    refine hw.not_applied hpre ?_ (Nat.le_add_right _ i') (hpost'.trans htdata)
    simp only [Function.update_of_ne hne.symm]
    exact congrFun happ _
  exact hnot happlied

end PutSignal.State

def acrossRegistrations : PutSignal where
  dev :=
    { npes := 2
      mype := 0
      numDevicesInitialized := 1
      numDefaultRcPerPe := 1
      numUserQps := 1
      mype_lt := Nat.two_pos
      numDevicesInitialized_pos := Nat.one_pos
      numDefaultRcPerPe_pos := Nat.one_pos
      numRcHandles_le := by decide }
  pe := 1
  rcEnabled := true
  dciId := 0
  numQpGroups := 2
  numExclusiveDcis := 0
  numSharedDcis := 1
  qpIndex := 2
  scope := .thread
  isNbi := true
  lanes := 1
  lptr := fun _ => 0
  rptr := fun _ => 0
  bytes := fun _ => 16
  lchunkSize := fun addr => 8 - addr % 8
  rchunkSize := fun addr => 8 - addr % 8
  pe_lt := Nat.one_lt_two
  qpIndex_valid := by decide
  lchunkSize_pos := fun addr => by omega
  rchunkSize_pos := fun addr => by omega
  lanes_pos := Nat.one_pos
  lanes_eq := fun h => absurd rfl h
  uniform := fun lane h => by
    exact Iff.rfl

def idleQps : Net Qp := ⟨[], fun _ => 0, fun _ => 0⟩

theorem wf_idleQps : idleQps.Wf := ⟨fun _ => le_rfl, fun _ => le_rfl⟩

end Nvshmem.Ibgda
