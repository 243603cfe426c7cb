import Nvshmem.Intervals.Region
import Nvshmem.Transition.Exec

/-! # Registered buffers

A transport keeps the buffers that were registered with it in an array, in the order of their
addresses. A long buffer is registered in pieces that are linked with each other. What CUDA, the C
library and the transport answer during a call is given with it, and a lock is waited for until it
is granted or refused.
-/

namespace Nvshmem.Buffers

/-- `NVSHMEMI_MAX_HANDLE_LENGTH`. -/
def maxHandleLength : ℕ := 2147483648

/-- `NVSHMEMI_LOCAL_BUF_CACHE_DEFAULT_SIZE`. -/
def localBufCacheDefaultSize : ℕ := 64

variable {H : Type}

/-- `nvshmem_local_buf_handle_t`, with what `handle` points to in its place. -/
structure LocalBufHandle (H : Type) where
  ptr : ℕ
  length : ℕ
  handle : H
  registeredByUs : Bool
  linkedWithPrev : Bool
  linkedWithNext : Bool
deriving DecidableEq

namespace LocalBufHandle

variable (e : LocalBufHandle H)

def range : ℕ × ℕ := (e.ptr, e.length)

def maxAddr : ℕ := (e.ptr + e.length) % 2 ^ 64

def Contains (addr : ℕ) : Prop := e.ptr ≤ addr ∧ addr < e.ptr + e.length

instance (addr : ℕ) : Decidable (e.Contains addr) := inferInstanceAs (Decidable (_ ∧ _))

end LocalBufHandle

/-- What an access of the search could do that C leaves open, and that it has not returned. -/
inductive Fault where
  | underflow
  | outOfBounds
  | running
deriving DecidableEq

/-- The loop of `nvshmemi_get_registered_buffer_handle`, with the number of iterations. It returns
the handle and the length. -/
def searchBuffers (buffers : List (LocalBufHandle H)) (addr len : ℕ) :
    ℕ → ℕ → ℕ → Except Fault (Option H × ℕ)
  | 0, _, _ => .error .running
  | fuel + 1, lo, hi =>
    if hi < lo then .error .underflow
    else
      let mid := (hi - lo) / 2 + lo
      if buffers.length ≤ mid then .ok (none, len)
      else
        match buffers[mid]? with
        | none => .error .outOfBounds
        | some e =>
          if e.ptr < addr then
            if addr < e.maxAddr then .ok (some e.handle, min len (e.maxAddr - addr))
            else if mid + 1 ≤ hi then searchBuffers buffers addr len fuel (mid + 1) hi
            else .ok (none, len)
          else if addr = e.ptr then .ok (some e.handle, min len e.length)
          else if mid = 0 then .ok (none, len)
          else if lo ≤ mid - 1 then searchBuffers buffers addr len fuel lo (mid - 1)
          else .ok (none, len)

/-- `nvshmemi_get_registered_buffer_handle`. -/
def getRegisteredBufferHandle (buffers : List (LocalBufHandle H)) (addr len : ℕ) :
    Except Fault (Option H × ℕ) :=
  if buffers.length = 0 then .ok (none, len)
  else searchBuffers buffers addr len (buffers.length + 1) 0 buffers.length

/-- `cudaMemoryType`. -/
inductive MemoryType where
  | unregistered | host | device | managed
deriving DecidableEq

inductive Status where
  | success | invalidValue | outOfMemory | internal
  | transport (code : ℕ)
deriving DecidableEq

structure Setup where
  heapBase : ℕ
  heapSize : ℕ
  hostMemoryRegistrationSupported : Bool
  heap_lt : heapBase + heapSize < 2 ^ 64

def Setup.heap (cfg : Setup) : ℕ × ℕ := (cfg.heapBase, cfg.heapSize)

/-- The answers to the calls that a registration makes. Of the calls of `calloc` the first is for
the array. -/
structure Answers (H : Type) where
  attr : Option MemoryType
  calloc : ℕ → Bool
  lock : Bool
  hostRegister : Bool
  realloc : Bool
  getMemHandle : ℕ → Except ℕ H
  updateDeviceState : Bool

/-- `nvshmem_local_buf_cache_t`. The entries of `buffers` are those in use. When memory is used that
is not allocated, the cache is `corrupted`. -/
structure Cache (H : Type) where
  arraySize : ℕ
  buffers : List (LocalBufHandle H)
  corrupted : Bool

namespace Cache

/-- `nvshmemi_local_mem_cache_init`. -/
def init : Cache H := ⟨localBufCacheDefaultSize, [], false⟩

section Register

variable (cfg : Setup) (env : Answers H) (cache : Cache H) (addr length : ℕ)

def numberOfHandles : ℕ := (length + maxHandleLength - 1) % 2 ^ 64 / maxHandleLength

/-- The checks of `buffer_register` before it takes the lock. -/
def checkBuffer : Except Status MemoryType :=
  if length = 0 then .error .invalidValue
  else
    match env.attr with
    | none => .error .internal
    | some type =>
      if type = .managed then .error .invalidValue
      else if cfg.heapBase ≤ addr ∧ addr < cfg.heapBase + cfg.heapSize then .error .invalidValue
      else if (List.range (numberOfHandles length + 1)).any fun i => !env.calloc i then
        .error .outOfMemory
      else .ok type

def hostRegister (type : MemoryType) : Except Status Bool :=
  if env.lock = false then .error .internal
  else if type = .unregistered then
    if cfg.hostMemoryRegistrationSupported = false then .error .invalidValue
    else if env.hostRegister = false then .error .internal
    else .ok true
  else .ok false

def enlarge (n : ℕ) : Option (Cache H) :=
  if cache.arraySize ≤ cache.buffers.length + n then
    if env.realloc then
      some { cache with
        arraySize := if cache.arraySize < n then cache.arraySize + n else cache.arraySize * 2 }
    else none
  else some cache

def selectIndex : List (LocalBufHandle H) → ℕ → Option ℕ
  | [], i => some i
  | e :: es, i =>
    if e.ptr < addr then
      if addr < e.maxAddr then none else selectIndex es (i + 1)
    else if addr = e.ptr then none
    else some i

/-- The new entries: how many are left, the number of the first one, its address and the length that
remains. -/
def makeHandles (byUs : Bool) : ℕ → ℕ → ℕ → ℕ → Except ℕ (List (LocalBufHandle H))
  | 0, _, _, _ => .ok []
  | left + 1, i, addrCalc, remaining =>
    let registerLength := if maxHandleLength < remaining then maxHandleLength else remaining
    match env.getMemHandle i with
    | .error code => .error code
    | .ok handle =>
      (makeHandles byUs left (i + 1) ((addrCalc + registerLength) % 2 ^ 64)
        (remaining - registerLength)).map
          (⟨addrCalc, registerLength, handle, byUs, decide (i ≠ 0), decide (left ≠ 0)⟩ :: ·)

def insert (i : ℕ) (handles : List (LocalBufHandle H)) : Cache H :=
  { cache with buffers := cache.buffers.take i ++ handles ++ cache.buffers.drop i }

/-- `buffer_register`. Without any piece it writes outside of the array of the new entries, and when
`nvshmemi_update_device_state` fails it frees the entries that it has inserted. -/
def bufferRegister : Status × Cache H :=
  match checkBuffer cfg env addr length with
  | .error status => (status, cache)
  | .ok type =>
    if numberOfHandles length = 0 then (.internal, { cache with corrupted := true })
    else
      match hostRegister cfg env type with
      | .error status => (status, cache)
      | .ok byUs =>
        match cache.enlarge env (numberOfHandles length) with
        | none => (.outOfMemory, cache)
        | some cache =>
          match selectIndex addr cache.buffers 0 with
          | none => (.invalidValue, cache)
          | some i =>
            match makeHandles env byUs (numberOfHandles length) 0 addr length with
            | .error code => (.transport code, cache)
            | .ok handles =>
              if env.updateDeviceState then (.success, cache.insert i handles)
              else (.internal, { cache.insert i handles with corrupted := true })

end Register

section Unregister

variable (cache : Cache H) (addr : ℕ)

def findIndex : List (LocalBufHandle H) → ℕ → Option ℕ
  | [], _ => none
  | e :: es, i =>
    if e.ptr < addr then findIndex es (i + 1)
    else if addr = e.ptr then some i
    else none

/-- The number of entries up to the end of a chain. The loop that follows the links does not stop at
the end of the array. -/
def chainLength : List (LocalBufHandle H) → Option ℕ
  | [] => none
  | e :: es => if e.linkedWithNext then (chainLength es).map (· + 1) else some 1

/-- Remove the entries of a chain. The entries of a registration are freed with the first one. -/
def remove (i : ℕ) : Cache H :=
  match chainLength (cache.buffers.drop i) with
  | none => { cache with corrupted := true }
  | some n =>
    { cache with
      buffers := cache.buffers.take i ++ cache.buffers.drop (i + n)
      corrupted := ((cache.buffers.drop i).head?.map LocalBufHandle.linkedWithPrev).getD true }

/-- `buffer_unregister`, given whether the lock is granted and the device state is updated. -/
def bufferUnregister (lock updateDeviceState : Bool) : Status × Cache H :=
  if lock = false then (.internal, cache)
  else
    match findIndex addr cache.buffers 0 with
    | none => (.invalidValue, cache)
    | some i => (if updateDeviceState then .success else .internal, cache.remove i)

/-- `buffer_unregister_all`, given whether the lock is granted. -/
def bufferUnregisterAll (lock : Bool) : Cache H :=
  if lock then { cache with buffers := [] } else cache

end Unregister

end Cache

abbrev State (H : Type) : Type := ℕ → Cache H

inductive Action (H : Type) where
  | register (addr length : ℕ) (env : ℕ → Answers H)
  | unregister (addr : ℕ) (lock updateDeviceState : ℕ → Bool)
  | unregisterAll (lock : ℕ → Bool)

namespace State

def init : State H := fun _ => .init

def onCache (cfg : Setup) (i : ℕ) (cache : Cache H) : Action H → Cache H
  | .register addr length env => (cache.bufferRegister cfg (env i) addr length).2
  | .unregister addr lock updateDeviceState =>
    (cache.bufferUnregister addr (lock i) (updateDeviceState i)).2
  | .unregisterAll lock => cache.bufferUnregisterAll (lock i)

/-- `nvshmemx_buffer_register`, `nvshmemx_buffer_unregister` and `nvshmemx_buffer_unregister_all` go
through the transports that are initialized. There is no call after a corruption. -/
def step (cfg : Setup) (transports : Finset ℕ) (s : State H) (a : Action H) : Option (State H) :=
  if ∃ i ∈ transports, (s i).corrupted then none
  else some fun i => if i ∈ transports then onCache cfg i (s i) a else s i

end State

end Nvshmem.Buffers
