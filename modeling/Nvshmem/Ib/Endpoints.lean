import Nvshmem.Ibgda.Rc
import Nvshmem.Loops.Grid

/-! # The endpoints of the InfiniBand transports

Every PE keeps an endpoint for each queue pair and each peer, by queue pairs. The first call of
`nvshmemt_ib_common_connect_endpoints` creates those of the host and the default ones, later calls
add more; the PEs exchange the handles of the new endpoints and connect each to one of the peer.
An operation names a queue pair by a handle, and so does a quiet.
-/

namespace Nvshmem.Ib

open Ibgda (intMax qpDefault qpAny)

open Loops

/-- `NVSHMEMX_QP_HOST` -/
def qpHost : ℕ := 0

structure Job where
  nPes : ℕ
  ibNumRcPerDevice : ℕ
  nPes_pos : 0 < nPes

/-- `nvshmemt_ib_common_ep_handle`: it names an endpoint of a PE. -/
structure EpHandle where
  pe : ℕ
  qpn : ℕ
deriving DecidableEq

/-- `nvshmemt_ib_common_state` of one PE. A pointer to an endpoint is the number with which it was
created; 0 is the null pointer. -/
structure State where
  /-- The array `ep` is allocated. -/
  allocated : Bool
  ep : ℕ → ℕ
  epCount : ℕ
  hostEpIndex : ℕ
  nextQpIndex : ℕ
  curDefaultQpIndex : ℕ
  curAnyQpIndex : ℕ
  /-- The number of the next endpoint that is created. -/
  nextQpn : ℕ
  /-- The handle with which each endpoint is connected. -/
  remote : ℕ → Option EpHandle
  /-- The handles of queue pairs that the calls so far have returned. -/
  handles : List ℕ

namespace State

def init : State := ⟨false, fun _ => 0, 0, 0, 0, 0, 0, 1, fun _ => none, []⟩

variable (job : Job) (s : State)

def enlarge (numQps : ℕ) : State := { s with epCount := s.epCount + job.nPes * numQps }

def allocate (numQps : ℕ) : State × ℕ :=
  if s.allocated then (s.enlarge job numQps, numQps)
  else
    let epCount := (if 0 < numQps then numQps else job.ibNumRcPerDevice) + 1
    ({ s with
        allocated := true
        ep := fun _ => 0
        epCount := job.nPes * epCount
        hostEpIndex := qpHost
        nextQpIndex := 0
        curDefaultQpIndex := qpDefault
        curAnyQpIndex := 0 }, epCount)

def firstEpIdx : ℕ := s.nextQpIndex / job.nPes

def newEps (qpsToCreate : ℕ) : List (ℕ × ℕ) := grid (s.firstEpIdx job) qpsToCreate job.nPes

def createEndpoints (qpsToCreate : ℕ) : State :=
  { s with
    ep := fill (rowMajor job.nPes) (fun _ qpn => qpn) (s.newEps job qpsToCreate) s.nextQpn s.ep
    nextQpn := s.nextQpn + (s.newEps job qpsToCreate).length }

def localEpHandles (me qpsToCreate : ℕ) : ℕ → EpHandle :=
  fill (columnMajor (s.firstEpIdx job) qpsToCreate) (fun _ qpn => ⟨me, qpn⟩)
    (s.newEps job qpsToCreate) s.nextQpn fun _ => ⟨0, 0⟩

def connect (qpsToCreate : ℕ) (epHandles : ℕ → EpHandle) : State :=
  { s with
    remote := (s.newEps job qpsToCreate).foldl (fun remote p =>
      Function.update remote (s.ep (rowMajor job.nPes p))
        (some (epHandles (columnMajor (s.firstEpIdx job) qpsToCreate p)))) s.remote }

def takeQpIndices (nPes : ℕ) : ℕ → ℕ → List ℕ × ℕ
  | 0, nextQpIndex => ([], nextQpIndex)
  | qps + 1, nextQpIndex =>
    let (indices, next) := takeQpIndices nPes qps (nextQpIndex + nPes)
    (nextQpIndex :: indices, next)

def returnQpIndices (isInitialCall : Bool) (qpsToCreate : ℕ) : State :=
  if isInitialCall then { s with nextQpIndex := s.nextQpIndex + qpsToCreate * job.nPes }
  else
    let (indices, next) := takeQpIndices job.nPes qpsToCreate s.nextQpIndex
    { s with nextQpIndex := next, handles := s.handles ++ indices }

/-- The entry of `ep` that `nvshmemt_ib_common_get_ep_from_qp_index` returns, and the state
after the call. -/
def getEpFromQpIndex (qpIndex peIndex : ℕ) : Option ℕ × State :=
  if qpIndex = qpHost then (some (s.hostEpIndex + peIndex), s)
  else if qpIndex = qpDefault then
    let selectedQp := s.curDefaultQpIndex % (job.ibNumRcPerDevice + 1)
    let next := (s.curDefaultQpIndex + 1) % (job.ibNumRcPerDevice + 1)
    (some (selectedQp * job.nPes + peIndex),
      { s with curDefaultQpIndex := if next = qpHost then qpDefault else next })
  else if qpIndex = qpAny then
    let totalQps := s.nextQpIndex / job.nPes
    let selectedQp := s.curAnyQpIndex % totalQps
    let next := (s.curAnyQpIndex + 1) % totalQps
    (some (selectedQp * job.nPes + peIndex),
      { s with curAnyQpIndex := if next = qpHost then qpDefault else next })
  else if qpDefault < qpIndex ∧ qpIndex < s.nextQpIndex then (some (qpIndex + peIndex), s)
  else (none, s)

/-- The entries of `ep` that `nvshmemt_ib_common_quiet` visits. -/
def quietEntries (pe qpIndex : ℕ) : List ℕ :=
  if qpIndex = qpDefault then
    (List.range job.ibNumRcPerDevice).map fun qp => (qp + 1) * job.nPes + pe
  else if qpIndex = qpAny then
    (List.range' 1 (s.nextQpIndex / job.nPes - 1)).map fun qp => qp * job.nPes + pe
  else (s.getEpFromQpIndex job qpIndex pe).1.toList

/-- `nvshmemt_ib_common_quiet`: the endpoints that it waits for. -/
def quiet (pe qpIndex : ℕ) : List ℕ :=
  ((s.quietEntries job pe qpIndex).map s.ep).filter (· ≠ 0)

end State

/-- `boot_handle->alltoall` with blocks of a length: block `m` that PE `j` sends is block `j` that
PE `m` receives. -/
def alltoall (len : ℕ) (send : ℕ → ℕ → EpHandle) (me : ℕ) : ℕ → EpHandle :=
  fun x => send (x / len) (me * len + x % len)

/-- `nvshmemt_ib_common_connect_endpoints`, called by all PEs. -/
def connectEndpoints (job : Job) (w : ℕ → State) (numQps : ℕ) : ℕ → State := fun me =>
  let ready := fun pe => ((w pe).allocate job numQps).1
  let qps := ((w me).allocate job numQps).2
  let epHandles := alltoall qps (fun pe => (ready pe).localEpHandles job pe qps) me
  (((ready me).createEndpoints job qps).connect job qps epHandles).returnQpIndices job
    (!(w me).allocated) qps

end Nvshmem.Ib
