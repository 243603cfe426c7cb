import Nvshmem.Ibgda.Rc
import Nvshmem.Queues.Basic

/-! # Put with signal through the proxy

The proxy writes the chunks of the data, fences on the default handle and then updates the signal.
Every write and the update select their queue pair on their own: the default handle and the handle
for any queue pair take the next one in turn. The queue pairs deliver in order, each for itself.
-/

namespace Nvshmem.IbPutSignal

open List Option Option List Nat

open Ibgda (intMax qpDefault qpAny)

open Queues Transition

/-- `NVSHMEMX_QP_HOST` -/
def qpHost : ℕ := 0

/-- The queue pairs of a PE, and the PE that the request goes to. Queue pair 0 of each PE is the
host's; the default ones and those that the user created follow. -/
structure Config where
  npes : ℕ
  pe : ℕ
  ibNumRcPerDevice : ℕ
  numUserQps : ℕ
  pe_lt : pe < npes
  ibNumRcPerDevice_pos : 0 < ibNumRcPerDevice
  nextQpIndex_le : (ibNumRcPerDevice + 1 + numUserQps) * npes ≤ intMax

structure Cursors where
  curDefaultQpIndex : ℕ
  curAnyQpIndex : ℕ
deriving DecidableEq

inductive Handle where
  | default | any
  | user (k : ℕ)
deriving DecidableEq

namespace Config

variable (cfg : Config)

def nextQpIndex : ℕ := (cfg.ibNumRcPerDevice + 1 + cfg.numUserQps) * cfg.npes

def totalQps : ℕ := cfg.nextQpIndex / cfg.npes

def qpIndex : Handle → ℕ
  | .default => qpDefault
  | .any => qpAny
  | .user k => (cfg.ibNumRcPerDevice + 1 + k) * cfg.npes

/-- `nvshmemt_ib_common_get_ep_from_qp_index`: the index of the endpoint, if there is one, and the
cursors after the call. -/
def getEpFromQpIndex (cur : Cursors) (qpIndex : ℕ) : Option ℕ × Cursors :=
  if qpIndex = qpHost then (some (qpHost + cfg.pe), cur)
  else if qpIndex = qpDefault then
    let selectedQp := cur.curDefaultQpIndex % (cfg.ibNumRcPerDevice + 1)
    let next := (cur.curDefaultQpIndex + 1) % (cfg.ibNumRcPerDevice + 1)
    (some (selectedQp * cfg.npes + cfg.pe),
      { cur with curDefaultQpIndex := if next = qpHost then qpDefault else next })
  else if qpIndex = qpAny then
    let selectedQp := cur.curAnyQpIndex % cfg.totalQps
    let next := (cur.curAnyQpIndex + 1) % cfg.totalQps
    (some (selectedQp * cfg.npes + cfg.pe),
      { cur with curAnyQpIndex := if next = qpHost then qpDefault else next })
  else if qpDefault < qpIndex ∧ qpIndex < cfg.nextQpIndex then (some (qpIndex + cfg.pe), cur)
  else (none, cur)

/-- The endpoints that `nvshmemt_ib_common_quiet` waits for with the default handle. -/
def defaultEps : List ℕ :=
  (List.range cfg.ibNumRcPerDevice).map fun qp => (qp + 1) * cfg.npes + cfg.pe

def fenceEps : List ℕ := if 1 < cfg.ibNumRcPerDevice then cfg.defaultEps else []

def Valid : Handle → Prop
  | .default | .any => True
  | .user k => k < cfg.numUserQps

/-- The cursors of a running transport. The one for any queue pair starts at the host's. -/
structure CursorsValid (cur : Cursors) : Prop where
  default_pos : 0 < cur.curDefaultQpIndex
  default_le : cur.curDefaultQpIndex ≤ cfg.ibNumRcPerDevice
  any_le : cur.curAnyQpIndex ≤ cfg.ibNumRcPerDevice + cfg.numUserQps

end Config

structure Request (cfg : Config) where
  handle : Handle
  numChunks : ℕ
  valid : cfg.Valid handle

structure State where
  cur : Cursors
  net : Net ℕ
  /-- The positions of the data's writes. -/
  chunks : List ℕ
  /-- The endpoints that the fence still waits for. -/
  waiting : Option (List ℕ)
  /-- The position of the signal's update. -/
  signal : Option ℕ

inductive Action where
  | rma
  | fence
  | poll
  | amo
  | net (e : Event ℕ)

namespace State

def start (cur : Cursors) (net : Net ℕ) : State := ⟨cur, net, [], none, none⟩

variable {cfg : Config} (req : Request cfg) (s : State)

def select : Option ℕ × Cursors := cfg.getEpFromQpIndex s.cur (cfg.qpIndex req.handle)

def post (ep : ℕ) : State :=
  { s with cur := (s.select req).2, net := { s.net with posted := s.net.posted ++ [ep] } }

/-- `nvshmemt_put_signal`, and what the network and other requests do meanwhile. -/
def step : Action → Option State
  | .rma =>
    if s.waiting = none ∧ s.chunks.length < req.numChunks then
      (s.select req).1.map fun ep =>
        { s.post req ep with chunks := s.chunks ++ [s.net.posted.length] }
    else none
  | .fence =>
    if s.waiting = none ∧ s.chunks.length = req.numChunks then
      some { s with waiting := some cfg.fenceEps }
    else none
  | .poll =>
    match s.waiting with
    | some (ep :: rest) => if s.net.Drained ep then some { s with waiting := some rest } else none
    | _ => none
  | .amo =>
    if s.waiting = some [] ∧ s.signal = none then
      (s.select req).1.map fun ep => { s.post req ep with signal := some s.net.posted.length }
    else none
  | .net e => (s.net.step e).map fun net => { s with net }

def SignalLast : Prop :=
  ∀ k ∈ s.signal, s.net.Applied k →
    s.chunks.length = req.numChunks ∧ ∀ k' ∈ s.chunks, s.net.Applied k'

end State

/-- The number of the queue pair that the `i`-th of successive operations with the handle for any
queue pair selects. -/
def Config.anyQp (cfg : Config) (cur : Cursors) (i : ℕ) : ℕ :=
  if cur.curAnyQpIndex + i = 0 then 0
  else (cur.curAnyQpIndex + i - 1) % (cfg.ibNumRcPerDevice + cfg.numUserQps) + 1

/-- With the handle for any queue pair, every write is on the queue pair of the signal or on a
default one for which the fence waits. -/
def Request.InOrder {cfg : Config} (req : Request cfg) (cur : Cursors) : Prop :=
  req.handle = .any → ∀ i < req.numChunks,
    cfg.anyQp cur i = cfg.anyQp cur req.numChunks ∨
      1 < cfg.ibNumRcPerDevice ∧ 0 < cfg.anyQp cur i ∧ cfg.anyQp cur i ≤ cfg.ibNumRcPerDevice

section Selection

variable {cfg : Config} {cur : Cursors} {h : Handle} {i : ℕ}

namespace Config

theorem npes_pos : 0 < cfg.npes := zero_lt_of_lt cfg.pe_lt

theorem totalQps_eq : cfg.totalQps = cfg.ibNumRcPerDevice + cfg.numUserQps + 1 := by
  rw [totalQps, nextQpIndex, Nat.mul_div_cancel _ cfg.npes_pos]
  omega

def qpOf (cfg : Config) (cur : Cursors) : Handle → ℕ
  | .default => cur.curDefaultQpIndex
  | .any => cur.curAnyQpIndex
  | .user k => cfg.ibNumRcPerDevice + 1 + k

def next (cfg : Config) (cur : Cursors) : Handle → Cursors
  | .default =>
    { cur with
      curDefaultQpIndex :=
        if cur.curDefaultQpIndex = cfg.ibNumRcPerDevice then 1 else cur.curDefaultQpIndex + 1 }
  | .any =>
    { cur with
      curAnyQpIndex :=
        if cur.curAnyQpIndex = cfg.ibNumRcPerDevice + cfg.numUserQps then 1
        else cur.curAnyQpIndex + 1 }
  | .user _ => cur

theorem user_lt {k : ℕ} (hk : k < cfg.numUserQps) :
    qpDefault < cfg.qpIndex (.user k) ∧ cfg.qpIndex (.user k) < cfg.nextQpIndex ∧
      cfg.qpIndex (.user k) ≠ qpAny := by
  have hpos := cfg.npes_pos
  have hmax := cfg.nextQpIndex_le
  have hlt : (cfg.ibNumRcPerDevice + 1 + k) * cfg.npes <
      (cfg.ibNumRcPerDevice + 1 + cfg.numUserQps) * cfg.npes :=
    Nat.mul_lt_mul_of_pos_right (by omega) hpos
  have hlo : cfg.ibNumRcPerDevice + 1 + k ≤ (cfg.ibNumRcPerDevice + 1 + k) * cfg.npes :=
    Nat.le_mul_of_pos_right _ hpos
  have := cfg.ibNumRcPerDevice_pos
  simp only [qpIndex, nextQpIndex, qpDefault, qpAny]
  omega

/-- A cursor goes around the queue pairs from 1 to `n`. -/
theorem advance_eq {c n : ℕ} (hc : c ≤ n) :
    (if (c + 1) % (n + 1) = qpHost then qpDefault else (c + 1) % (n + 1)) =
      if c = n then 1 else c + 1 := by
  by_cases hlast : c = n
  · rw [if_pos (show (c + 1) % (n + 1) = qpHost by rw [hlast, mod_self]; rfl), if_pos hlast]
    rfl
  · have hmod : (c + 1) % (n + 1) = c + 1 := mod_eq_of_lt (by omega)
    rw [hmod, if_neg (show c + 1 ≠ qpHost from succ_ne_zero c), if_neg hlast]

theorem getEpFromQpIndex_eq (hcur : cfg.CursorsValid cur) (hh : cfg.Valid h) :
    cfg.getEpFromQpIndex cur (cfg.qpIndex h) =
      (some (cfg.qpOf cur h * cfg.npes + cfg.pe), cfg.next cur h) := by
  obtain ⟨hpos, hle, hany⟩ := hcur
  cases h with
  | default =>
    have hmod : cur.curDefaultQpIndex % (cfg.ibNumRcPerDevice + 1) = cur.curDefaultQpIndex :=
      mod_eq_of_lt (by omega)
    change cfg.getEpFromQpIndex cur qpDefault = _
    rw [getEpFromQpIndex, if_neg (by decide), if_pos rfl]
    simp only [hmod, qpOf, next, advance_eq hle]
  | any =>
    have hmod : cur.curAnyQpIndex % cfg.totalQps = cur.curAnyQpIndex :=
      mod_eq_of_lt (by rw [totalQps_eq]; omega)
    change cfg.getEpFromQpIndex cur qpAny = _
    rw [getEpFromQpIndex, if_neg (by decide), if_neg (by decide), if_pos rfl]
    simp only [hmod, qpOf, next]
    rw [totalQps_eq, advance_eq hany]
  | user k =>
    obtain ⟨hlo, hlt, hne⟩ := user_lt hh
    have hpos : qpHost < cfg.qpIndex (.user k) := zero_lt_of_lt hlo
    rw [getEpFromQpIndex, if_neg hpos.ne', if_neg hlo.ne', if_neg hne, if_pos ⟨hlo, hlt⟩]
    rfl

theorem CursorsValid.next (hcur : cfg.CursorsValid cur) : cfg.CursorsValid (cfg.next cur h) := by
  obtain ⟨hpos, hle, hany⟩ := hcur
  cases h with
  | default =>
    refine ⟨?_, ?_, hany⟩ <;> simp only [Config.next] <;> split <;> omega
  | any =>
    refine ⟨hpos, hle, ?_⟩
    simp only [Config.next]
    split <;> omega
  | user k => exact ⟨hpos, hle, hany⟩

def cursorsAt (cfg : Config) (cur : Cursors) (h : Handle) : ℕ → Cursors
  | 0 => cur
  | i + 1 => cfg.next (cfg.cursorsAt cur h i) h

/-- The queue pair of the `i`-th operation. -/
def qpAt (cfg : Config) (cur : Cursors) (h : Handle) (i : ℕ) : ℕ :=
  cfg.qpOf (cfg.cursorsAt cur h i) h

def epAt (cfg : Config) (cur : Cursors) (h : Handle) (i : ℕ) : ℕ :=
  cfg.qpAt cur h i * cfg.npes + cfg.pe

theorem CursorsValid.cursorsAt (hcur : cfg.CursorsValid cur) :
    cfg.CursorsValid (cfg.cursorsAt cur h i) := by
  induction i with
  | zero => exact hcur
  | succ i ih => exact ih.next

theorem epAt_inj {j : ℕ} : cfg.epAt cur h i = cfg.epAt cur h j ↔
    cfg.qpAt cur h i = cfg.qpAt cur h j := by
  constructor
  · intro heq
    exact eq_of_mul_eq_mul_right cfg.npes_pos (Nat.add_right_cancel heq)
  · intro heq
    rw [epAt, epAt, heq]

theorem epAt_mem_fenceEps : cfg.epAt cur h i ∈ cfg.fenceEps ↔
    1 < cfg.ibNumRcPerDevice ∧ 0 < cfg.qpAt cur h i ∧
      cfg.qpAt cur h i ≤ cfg.ibNumRcPerDevice := by
  have hmem : cfg.epAt cur h i ∈ cfg.defaultEps ↔
      0 < cfg.qpAt cur h i ∧ cfg.qpAt cur h i ≤ cfg.ibNumRcPerDevice := by
    rw [defaultEps, List.mem_map]
    constructor
    · rintro ⟨qp, hqp, heq⟩
      have := Nat.eq_of_mul_eq_mul_right cfg.npes_pos (Nat.add_right_cancel heq)
      rw [mem_range] at hqp
      omega
    · rintro ⟨hpos, hle⟩
      refine ⟨cfg.qpAt cur h i - 1, mem_range.mpr (by omega), ?_⟩
      rw [Nat.sub_add_cancel hpos, epAt]
  rw [fenceEps]
  split
  · next hlt => rw [hmem, and_iff_right hlt]
  · next hlt => exact iff_of_false not_mem_nil fun hand => hlt hand.1

theorem qpAt_default (hcur : cfg.CursorsValid cur) :
    0 < cfg.qpAt cur .default i ∧ cfg.qpAt cur .default i ≤ cfg.ibNumRcPerDevice :=
  have hcur := hcur.cursorsAt (h := .default) (i := i)
  ⟨hcur.default_pos, hcur.default_le⟩

theorem qpAt_any (hcur : cfg.CursorsValid cur) : cfg.qpAt cur .any i = cfg.anyQp cur i := by
  have hrc := cfg.ibNumRcPerDevice_pos
  have hle := hcur.any_le
  induction i with
  | zero =>
    rw [anyQp]
    split
    · next h0 => exact h0
    · next h0 =>
      rw [mod_eq_of_lt (by omega), Nat.sub_add_cancel (by omega)]
      rfl
  | succ i ih =>
    change (if cfg.qpAt cur .any i = cfg.ibNumRcPerDevice + cfg.numUserQps then 1
      else cfg.qpAt cur .any i + 1) = _
    rw [ih, anyQp, anyQp, if_neg (by omega : ¬ cur.curAnyQpIndex + (i + 1) = 0)]
    split
    · next h0 => simp [h0]
    · next h0 =>
      rw [show cur.curAnyQpIndex + (i + 1) - 1 = cur.curAnyQpIndex + i - 1 + 1 by omega,
        ← mod_add_mod]
      have hlt := mod_lt (cur.curAnyQpIndex + i - 1)
        (show 0 < cfg.ibNumRcPerDevice + cfg.numUserQps by omega)
      generalize (cur.curAnyQpIndex + i - 1) % (cfg.ibNumRcPerDevice + cfg.numUserQps) = x at hlt ⊢
      split
      · next heq => rw [heq, mod_self]
      · rw [mod_eq_of_lt (by omega)]

theorem inOrder_iff {req : Request cfg} (hcur : cfg.CursorsValid cur) :
    req.InOrder cur ↔ ∀ i < req.numChunks,
      cfg.epAt cur req.handle i = cfg.epAt cur req.handle req.numChunks ∨
        cfg.epAt cur req.handle i ∈ cfg.fenceEps := by
  simp only [epAt_inj, epAt_mem_fenceEps]
  cases hh : req.handle with
  | default =>
    refine iff_of_true (fun heq => by simp [hh] at heq) fun i _ => ?_
    have hi := cfg.qpAt_default (i := i) hcur
    have hn := cfg.qpAt_default (i := req.numChunks) hcur
    omega
  | any =>
    simp only [Request.InOrder, hh, qpAt_any hcur, forall_const]
  | user k => exact iff_of_true (fun heq => by simp [hh] at heq) fun i _ => .inl rfl

end Config

end Selection

namespace State

variable {cfg : Config} {req : Request cfg} {cur : Cursors} {net : Net ℕ} {s t : State}
  {a : Action} {ep : ℕ}

theorem step_rma : s.step req .rma = some t ↔
    s.waiting = none ∧ s.chunks.length < req.numChunks ∧ ∃ ep, (s.select req).1 = some ep ∧
      { s.post req ep with chunks := s.chunks ++ [s.net.posted.length] } = t := by
  rw [step, ite_none_right_eq_some, map_eq_some_iff, and_assoc]

theorem step_fence : s.step req .fence = some t ↔
    s.waiting = none ∧ s.chunks.length = req.numChunks ∧
      { s with waiting := some cfg.fenceEps } = t := by
  rw [step, ite_none_right_eq_some, some.injEq, and_assoc]

theorem step_poll : s.step req .poll = some t ↔ ∃ ep rest, s.waiting = some (ep :: rest) ∧
    s.net.Drained ep ∧ { s with waiting := some rest } = t := by
  rw [step]
  split
  · next ep rest hw =>
    rw [ite_none_right_eq_some, some.injEq, hw]
    constructor
    · rintro ⟨hd, rfl⟩
      exact ⟨ep, rest, rfl, hd, rfl⟩
    · rintro ⟨ep', rest', heq, hd, rfl⟩
      obtain ⟨rfl, rfl⟩ := cons.inj (some.inj heq)
      exact ⟨hd, rfl⟩
  · next hw =>
    refine iff_of_false (by simp) ?_
    rintro ⟨ep, rest, heq, -⟩
    exact hw ep rest heq

theorem step_amo : s.step req .amo = some t ↔
    s.waiting = some [] ∧ s.signal = none ∧ ∃ ep, (s.select req).1 = some ep ∧
      { s.post req ep with signal := some s.net.posted.length } = t := by
  rw [step, ite_none_right_eq_some, map_eq_some_iff, and_assoc]

theorem step_net {e : Event ℕ} : s.step req (.net e) = some t ↔
    ∃ net, s.net.step e = some net ∧ { s with net } = t := by
  rw [step, map_eq_some_iff]

theorem reachable_net {n : Net ℕ} (h : Reachable Net.step s.net n) :
    Reachable (step req) s { s with net := n } := by
  obtain ⟨es, hes⟩ := h
  induction es generalizing s with
  | nil =>
    cases hes
    exact ⟨[], rfl⟩
  | cons e es ih =>
    obtain ⟨m, hm, hes⟩ := exec_cons_eq_some.mp hes
    have hstep : step req s (.net e) = some { s with net := m } := step_net.mpr ⟨m, hm, rfl⟩
    exact Reachable.trans ⟨[.net e], exec_cons_eq_some.mpr ⟨_, hstep, rfl⟩⟩
      (@ih { s with net := m } hes)

def count (s : State) : ℕ := s.chunks.length + if s.signal.isSome then 1 else 0

structure Inv (req : Request cfg) (cur : Cursors) (s : State) : Prop where
  wf : s.net.Wf
  cursors : s.cur = cfg.cursorsAt cur req.handle s.count
  sorted : s.chunks.Pairwise (· < ·)
  lt_length : ∀ k ∈ s.chunks, k < s.net.posted.length
  chunk : ∀ i k, s.chunks[i]? = some k → s.net.posted[k]? = some (cfg.epAt cur req.handle i)
  waited : ∀ w ∈ s.waiting, s.chunks.length = req.numChunks ∧
    ∀ i k, s.chunks[i]? = some k → cfg.epAt cur req.handle i ∈ cfg.fenceEps →
      cfg.epAt cur req.handle i ∉ w → s.net.Completed k
  signal : ∀ k ∈ s.signal, s.waiting = some [] ∧ (∀ k' ∈ s.chunks, k' < k) ∧
    s.net.posted[k]? = some (cfg.epAt cur req.handle req.numChunks)

theorem inv_start (hw : net.Wf) : Inv req cur (start cur net) where
  wf := hw
  cursors := rfl
  sorted := .nil
  lt_length _ h := absurd h not_mem_nil
  chunk _ _ h := by simp [start] at h
  waited _ h := by simp [start] at h
  signal _ h := by simp [start] at h

section Step

variable (hcur : cfg.CursorsValid cur) (hi : Inv req cur s)

include hcur hi

theorem Inv.select_eq : s.select req =
    (some (cfg.epAt cur req.handle s.count), cfg.cursorsAt cur req.handle (s.count + 1)) := by
  rw [select, hi.cursors, Config.getEpFromQpIndex_eq hcur.cursorsAt req.valid]
  rfl

omit hcur in
theorem Inv.wf_post : { s.net with posted := s.net.posted ++ [ep] : Net ℕ }.Wf :=
  hi.wf.step (e := .post ep) rfl

omit hcur in
theorem Inv.getElem?_post {k : ℕ} (hk : k ∈ s.chunks) :
    (s.net.posted ++ [ep])[k]? = s.net.posted[k]? :=
  getElem?_append_left (hi.lt_length k hk)

theorem Inv.rma (h : s.step req .rma = some t) : Inv req cur t := by
  obtain ⟨hw, hlt, ep, hep, rfl⟩ := step_rma.mp h
  have hsel := hi.select_eq hcur
  have hsig : s.signal = none := by
    rw [eq_none_iff_forall_not_mem]
    intro k hk
    simp [(hi.signal k hk).1] at hw
  have hcount : s.count = s.chunks.length := by simp [count, hsig]
  rw [hsel, hcount] at hep
  cases hep
  refine ⟨hi.wf_post, ?_, ?_, ?_, ?_, ?_, ?_⟩
  · simp [post, hsel, count, hsig]
  · refine pairwise_append.mpr ⟨hi.sorted, pairwise_singleton _ _, fun k hk k' hk' => ?_⟩
    exact mem_singleton.mp hk' ▸ hi.lt_length k hk
  · intro k hk
    rcases mem_append.mp hk with hk | hk
    · have := hi.lt_length k hk
      simp only [post, length_append, length_singleton]
      omega
    · simp [post, mem_singleton.mp hk]
  · intro i k hk
    rcases Nat.lt_or_ge i s.chunks.length with hlt | hge
    · rw [getElem?_append_left hlt] at hk
      exact (hi.getElem?_post (mem_of_getElem? hk)).trans (hi.chunk i k hk)
    · rw [getElem?_append_right hge, getElem?_singleton] at hk
      split at hk
      · next h0 =>
        cases hk
        obtain rfl : i = s.chunks.length := by omega
        simp [post]
      · simp at hk
  · intro w hw'
    exact absurd (hw.symm.trans hw') (by simp)
  · intro k hk
    exact absurd (hsig.symm.trans hk) (by simp)

omit hcur in
theorem Inv.fence (h : s.step req .fence = some t) : Inv req cur t := by
  obtain ⟨hw, hlen, rfl⟩ := step_fence.mp h
  refine ⟨hi.wf, hi.cursors, hi.sorted, hi.lt_length, hi.chunk, ?_, ?_⟩
  · intro w hw'
    cases hw'
    exact ⟨hlen, fun i k _ hmem hnot => absurd hmem hnot⟩
  · intro k hk
    exact absurd (hw.symm.trans (hi.signal k hk).1) (by simp)

omit hcur in
theorem Inv.poll (h : s.step req .poll = some t) : Inv req cur t := by
  obtain ⟨ep, rest, hw, hd, rfl⟩ := step_poll.mp h
  obtain ⟨hlen, hdone⟩ := hi.waited _ hw
  refine ⟨hi.wf, hi.cursors, hi.sorted, hi.lt_length, hi.chunk, ?_, ?_⟩
  · intro w hw'
    cases hw'
    refine ⟨hlen, fun i k hk hmem hnot => ?_⟩
    by_cases heq : cfg.epAt cur req.handle i = ep
    · exact among_of_count_le (hi.chunk i k hk) (heq ▸ hd)
    · exact hdone i k hk hmem (not_mem_cons_of_ne_of_not_mem heq hnot)
  · intro k hk
    exact absurd (hw.symm.trans (hi.signal k hk).1) (by simp)

theorem Inv.amo (h : s.step req .amo = some t) : Inv req cur t := by
  obtain ⟨hw, hsig, ep, hep, rfl⟩ := step_amo.mp h
  obtain ⟨hlen, hdone⟩ := hi.waited _ hw
  have hsel := hi.select_eq hcur
  have hcount : s.count = req.numChunks := by simp [count, hsig, hlen]
  rw [hsel, hcount] at hep
  cases hep
  refine ⟨hi.wf_post, ?_, hi.sorted, ?_, ?_, ?_, ?_⟩
  · simp [post, hsel, count, hsig]
  · intro k hk
    have := hi.lt_length k hk
    simp only [post, length_append, length_singleton]
    omega
  · intro i k hk
    exact (hi.getElem?_post (mem_of_getElem? hk)).trans (hi.chunk i k hk)
  · intro w hw'
    cases hw.symm.trans hw'
    refine ⟨hlen, fun i k hk hmem hnot => ?_⟩
    exact Net.Completed.step (hdone i k hk hmem hnot) (e := .post _) rfl
  · intro k hk
    cases hk
    exact ⟨hw, hi.lt_length, by simp [post]⟩

omit hcur in
theorem Inv.event {e : Event ℕ} (h : s.step req (.net e) = some t) : Inv req cur t := by
  obtain ⟨n, hn, rfl⟩ := step_net.mp h
  obtain ⟨l, hl⟩ := Net.posted_prefix_of_step hn
  have hget : ∀ {k x : ℕ}, s.net.posted[k]? = some x → n.posted[k]? = some x := by
    intro k x hk
    rw [← hl, getElem?_append_left (List.getElem?_eq_some_iff.mp hk).1, hk]
  refine ⟨hi.wf.step hn, hi.cursors, hi.sorted, ?_, ?_, ?_, ?_⟩
  · intro k hk
    rw [← hl, length_append]
    exact Nat.lt_add_right _ (hi.lt_length k hk)
  · exact fun i k hk => hget (hi.chunk i k hk)
  · intro w hw
    obtain ⟨hlen, hdone⟩ := hi.waited w hw
    exact ⟨hlen, fun i k hk hmem hnot => (hdone i k hk hmem hnot).step hn⟩
  · intro k hk
    obtain ⟨hw, hlt, hpost⟩ := hi.signal k hk
    exact ⟨hw, hlt, hget hpost⟩

theorem Inv.step (h : State.step req s a = some t) : Inv req cur t := by
  cases a with
  | rma => exact hi.rma hcur h
  | fence => exact hi.fence h
  | poll => exact hi.poll h
  | amo => exact hi.amo hcur h
  | net e => exact hi.event h

end Step

theorem Inv.signalLast (hi : Inv req cur s) (h : ∀ i < req.numChunks,
    cfg.epAt cur req.handle i = cfg.epAt cur req.handle req.numChunks ∨
      cfg.epAt cur req.handle i ∈ cfg.fenceEps) : s.SignalLast req := by
  intro k hk happ
  obtain ⟨hw, hlt, hpost⟩ := hi.signal k hk
  obtain ⟨hlen, hdone⟩ := hi.waited _ hw
  refine ⟨hlen, fun k' hk' => ?_⟩
  obtain ⟨i, hi', rfl⟩ := getElem_of_mem hk'
  have hget : s.chunks[i]? = some s.chunks[i] := getElem?_eq_getElem hi'
  rcases h i (hlen ▸ hi') with heq | hmem
  · refine happ.of_le (hlt _ hk').le ?_
    rw [hi.chunk i _ hget, hpost, heq]
  · exact (hdone i _ hget hmem not_mem_nil).applied hi.wf

theorem inv_of_reachable (hcur : cfg.CursorsValid cur) (hw : net.Wf)
    (h : Reachable (step req) (start cur net) s) : Inv req cur s :=
  h.invariant (inv_start hw) fun hi hs => hi.step hcur hs

section Overtaking

variable (hcur : cfg.CursorsValid cur)

include hcur

theorem exists_posted (hw : net.Wf) {n : ℕ} (hn : n ≤ req.numChunks) :
    ∃ s, Reachable (step req) (start cur net) s ∧ s.waiting = none ∧ s.signal = none ∧
      s.chunks = (List.range n).map (net.posted.length + ·) ∧
      s.net.posted.length = net.posted.length + n ∧ net.posted <+: s.net.posted ∧
      s.net.applied = net.applied := by
  induction n with
  | zero => exact ⟨start cur net, ⟨[], rfl⟩, rfl, rfl, rfl, rfl, prefix_rfl, rfl⟩
  | succ n ih =>
    obtain ⟨s, hs, hwait, hsig, hchunks, hlen, hpre, happ⟩ := ih (by omega)
    have hsel := (inv_of_reachable hcur hw hs).select_eq hcur
    have hstep : step req s .rma = some { s.post req (cfg.epAt cur req.handle s.count) with
        chunks := s.chunks ++ [s.net.posted.length] } :=
      step_rma.mpr ⟨hwait, by simp [hchunks]; omega, _, by rw [hsel], rfl⟩
    refine ⟨_, hs.tail hstep, hwait, hsig, ?_, ?_, hpre.trans (prefix_append _ _), happ⟩
    · rw [range_succ, map_append, hchunks, hlen]
      rfl
    · simp [post, hlen, Nat.add_assoc]

omit hcur in
theorem exists_passed {w : List ℕ} (hwf : s.net.Wf) (hwait : s.waiting = some w) :
    ∃ t, Reachable (step req) s t ∧ t.waiting = some [] ∧ t.net.Wf ∧ t.chunks = s.chunks ∧
      t.signal = s.signal ∧ t.net.posted = s.net.posted ∧
      ∀ ep, ep ∉ w → t.net.applied ep = s.net.applied ep := by
  induction w generalizing s with
  | nil => exact ⟨s, ⟨[], rfl⟩, hwait, hwf, rfl, rfl, rfl, fun _ _ => rfl⟩
  | cons ep w ih =>
    obtain ⟨n, hreach, hn, hposted, hdrained, -, happ⟩ := hwf.exists_drained ep
    have hpoll : step req { s with net := n } .poll =
        some { s with net := n, waiting := some w } :=
      step_poll.mpr ⟨ep, w, hwait, hdrained, rfl⟩
    obtain ⟨t, ht, htw, htn, hchunks, hsig, htp, hta⟩ :=
      @ih { s with net := n, waiting := some w } hn rfl
    refine ⟨t, ((reachable_net hreach).tail hpoll).trans ht, htw, htn, hchunks, hsig,
      htp.trans hposted, fun ep' hep' => ?_⟩
    rw [mem_cons, not_or] at hep'
    rw [hta ep' hep'.2]
    exact happ ep' hep'.1

theorem exists_overtaken (hw : net.Wf) {i : ℕ} (hi : i < req.numChunks)
    (hne : cfg.epAt cur req.handle i ≠ cfg.epAt cur req.handle req.numChunks)
    (hnot : cfg.epAt cur req.handle i ∉ cfg.fenceEps) :
    ∃ s, Reachable (step req) (start cur net) s ∧ ¬ s.SignalLast req := by
  obtain ⟨s, hs, hwait, hsig, hchunks, hlen, hpre, happ⟩ :=
    exists_posted hcur hw (le_refl req.numChunks)
  have hfence : step req s .fence = some { s with waiting := some cfg.fenceEps } :=
    step_fence.mpr ⟨hwait, by simp [hchunks], rfl⟩
  have hs' := hs.tail hfence
  obtain ⟨t, ht, htw, htn, htc, hts, htp, hta⟩ :=
    @exists_passed _ req _ _ (inv_of_reachable hcur hw hs').wf rfl
  have ht' := hs'.trans ht
  have hinv := inv_of_reachable hcur hw ht'
  have hsel := hinv.select_eq hcur
  have hcount : t.count = req.numChunks := by simp [count, htc, hts, hsig, hchunks]
  rw [hcount] at hsel
  set ep := cfg.epAt cur req.handle req.numChunks
  have hamo : step req t .amo =
      some { t.post req ep with signal := some t.net.posted.length } :=
    step_amo.mpr ⟨htw, by rw [hts]; exact hsig, ep, by rw [hsel], rfl⟩
  have hu := ht'.tail hamo
  have hinv' := inv_of_reachable hcur hw hu
  have happly := Net.reachable_apply (hinv'.wf.applied_le ep) le_rfl
  have hv := hu.trans (reachable_net happly)
  refine ⟨_, hv, fun hlast => ?_⟩
  have hk : net.posted.length + i ∈ t.chunks := by
    rw [htc, hchunks]
    exact mem_map_of_mem (mem_range.mpr hi)
  have hget : t.chunks[i]? = some (net.posted.length + i) := by
    rw [htc, hchunks]
    simp [hi]
  have hpost : (t.net.posted ++ [ep])[net.posted.length + i]? =
      some (cfg.epAt cur req.handle i) := hinv'.chunk i _ hget
  obtain ⟨-, hall⟩ := hlast _ rfl (among_of_count_le (i := ep) (by simp [post]) (by simp))
  have hpre' : net.posted <+: t.net.posted ++ [ep] := by
    rw [htp]
    exact hpre.trans (prefix_append _ _)
  refine hw.not_applied hpre' ?_ (Nat.le_add_right _ i) hpost (hall _ hk)
  simp only [Function.update_of_ne hne]
  exact (hta _ hnot).trans (congrFun happ _)

end Overtaking

end State

/-- The signal never takes effect before the data exactly if, with the handle for any queue pair,
the queue pairs that are next in turn are the same or are waited for. -/
theorem signalLast_iff {cfg : Config} (req : Request cfg) (cur : Cursors)
    (hcur : cfg.CursorsValid cur) (net : Net ℕ) (hw : net.Wf) :
    (∀ s, Reachable (State.step req) (.start cur net) s → s.SignalLast req) ↔
      req.InOrder cur := by
  rw [Config.inOrder_iff hcur]
  constructor
  · intro h i hi
    by_contra hnot
    rw [not_or] at hnot
    obtain ⟨s, hs, hs'⟩ := State.exists_overtaken hcur hw hi hnot.1 hnot.2
    exact hs' (h s hs)
  · intro h s hs
    exact (State.inv_of_reachable hcur hw hs).signalLast h

def twoQps : Config where
  npes := 2
  pe := 1
  ibNumRcPerDevice := 1
  numUserQps := 1
  pe_lt := Nat.one_lt_two
  ibNumRcPerDevice_pos := Nat.one_pos
  nextQpIndex_le := by decide

def oneChunk : Request twoQps := ⟨.any, 1, trivial⟩

def idle : Net ℕ := ⟨[], fun _ => 0, fun _ => 0⟩

theorem cursorsValid_twoQps : twoQps.CursorsValid ⟨1, 1⟩ := ⟨by decide, by decide, by decide⟩

theorem wf_idle : idle.Wf := ⟨fun _ => le_rfl, fun _ => le_rfl⟩

theorem signalLast_iff_oneChunk :
    (twoQps.CursorsValid ⟨1, 1⟩ ∧ idle.Wf) ∧
      ((∀ s, Reachable (State.step oneChunk) (.start ⟨1, 1⟩ idle) s → s.SignalLast oneChunk) ↔
        oneChunk.InOrder ⟨1, 1⟩) :=
  ⟨⟨cursorsValid_twoQps, wf_idle⟩,
    signalLast_iff oneChunk ⟨1, 1⟩ cursorsValid_twoQps idle wf_idle⟩

/-- The write is on endpoint 3 and the signal on endpoint 5, which may deliver first. -/
theorem not_signalLast_oneChunk :
    (exec (State.step oneChunk) (.start ⟨1, 1⟩ idle)
        [.rma, .fence, .amo, .net (.apply 5)]).map
      (fun s => (s.net.posted, s.chunks, s.signal, decide (s.net.Applied 1),
        decide (s.net.Applied 0))) = some ([3, 5], [0], some 1, true, false) ∧
    ∃ s, Reachable (State.step oneChunk) (.start ⟨1, 1⟩ idle) s ∧ ¬ s.SignalLast oneChunk :=
  ⟨by decide, State.exists_overtaken cursorsValid_twoQps wf_idle
    (show 0 < oneChunk.numChunks by decide) (by decide) (by decide)⟩

end Nvshmem.IbPutSignal
