import Nvshmem.Heap.Growth
import Nvshmem.Team.Index
import Nvshmem.Proxy.Queue
import Nvshmem.Team.CreateProgress
import Nvshmem.Team.SyncRadix
import Nvshmem.Ibrc.FenceOrder
import Nvshmem.Proxy.Rail
import Nvshmem.Coll.FcollectLLProgress
import Nvshmem.Coll.BroadcastProgress
import Nvshmem.Coll.NvlsTwoshot
import Nvshmem.Coll.NvlsReducescatter
import Nvshmem.Coll.BcastHierarchical
import Nvshmem.Coll.RdxnHierarchical
import Nvshmem.Coll.RdxnSegment
import Nvshmem.Ibgda.Quiet
import Nvshmem.Ibrc.PutSignal
import Nvshmem.Ibgda.SendQueueInvariant
import Nvshmem.Libfabric.PutSignalProgress
import Nvshmem.Libfabric.Repost
import Nvshmem.Bootstrap.Matching
import Nvshmem.Coll.AllreduceProgress
import Nvshmem.Coll.FcollectPsync
import Nvshmem.Ibrc.SendBound
import Nvshmem.Ibrc.AtomicsCorrect
import Nvshmem.Coll.AlltoallProgress
import Nvshmem.Heap.DynamicHandles
import Nvshmem.Heap.Retry
import Nvshmem.Heap.Rejection
import Nvshmem.Proxy.FlowControl
import Nvshmem.Proxy.FetchSlots
import Nvshmem.Buffers.Outcomes
import Nvshmem.Buffers.PutWithSignal
import Nvshmem.Heap.Reallocate
import Nvshmem.Heap.Binding
import Nvshmem.Team.Mapping
import Nvshmem.Team.NodeTeams
import Nvshmem.Ibgda.Rma
import Nvshmem.Ucx.RemoteAmo
import Nvshmem.Ucx.Fence
