import Nvshmem.OrderedMap.Basic

/-! # The symmetric-heap allocator

`Mspace` keeps the free chunks in two maps, keyed by their first address and by
the address after their last byte, and the blocks in use in a third. Addresses
are naturals with `0` for the null pointer, sizes wrap at `2 ^ 64`, and an
operation that ends the process returns `none`.
-/

namespace Nvshmem

/-- The number of values of `size_t`. -/
abbrev sizeBound : ℕ := 2 ^ 64

/-- Every block handed out by the allocator starts at a multiple of this. -/
abbrev mallocAlignment : ℕ := 512

/-- Round a request up to the allocation alignment, as the code does on `size_t`. -/
def alignRequest (req : ℕ) : ℕ :=
  (req + (mallocAlignment - 1)) % sizeBound / mallocAlignment * mallocAlignment

def alignOffset (a : ℕ) : ℕ :=
  if a % mallocAlignment = 0 then 0
  else (mallocAlignment - a % mallocAlignment) % mallocAlignment

structure Mspace where
  freeChunksStart : OrdMap ℕ ℕ
  freeChunksEnd : OrdMap ℕ ℕ
  inuseChunks : OrdMap ℕ ℕ
  totalSize : ℕ
  deriving DecidableEq

namespace Mspace

def empty : Mspace := ⟨.empty, .empty, .empty, 0⟩

/-- The constructor: manage `[base, base + capacity)` from its first aligned address on. -/
def new (base capacity : ℕ) : Mspace :=
  let offset := alignOffset base
  let startAddr := base + offset
  let capacity := (capacity + sizeBound - offset) % sizeBound
  if 0 < capacity then
    { empty with
      freeChunksStart := OrdMap.empty.insert startAddr capacity
      freeChunksEnd := OrdMap.empty.insert (startAddr + capacity) capacity
      totalSize := capacity }
  else empty

structure Pending where
  ms : Mspace
  base : ℕ
  capacity : ℕ
  merged : Bool

def mergePrev (m : Mspace) (base capacity : ℕ) : Pending :=
  match m.freeChunksEnd.get? base with
  | none => ⟨m, base, capacity, false⟩
  | some psize =>
    let ends := (m.freeChunksEnd.erase base).insert (base + capacity) (capacity + psize)
    let base := base - psize
    let capacity := capacity + psize
    ⟨{ m with
        freeChunksStart := m.freeChunksStart.insert base capacity
        freeChunksEnd := ends }, base, capacity, true⟩

def mergeNext (p : Pending) : Pending :=
  match p.ms.freeChunksStart.get? (p.base + p.capacity) with
  | none => p
  | some nsize =>
    { p with
      ms := { p.ms with
        freeChunksStart :=
          (p.ms.freeChunksStart.erase (p.base + p.capacity)).insert p.base (p.capacity + nsize)
        freeChunksEnd :=
          (p.ms.freeChunksEnd.erase (p.base + p.capacity)).insert
            (p.base + p.capacity + nsize) (p.capacity + nsize) }
      merged := true }

def insertUnmerged (p : Pending) : Mspace :=
  if p.merged then p.ms
  else
    { p.ms with
      freeChunksStart := p.ms.freeChunksStart.insert p.base p.capacity
      freeChunksEnd := p.ms.freeChunksEnd.insert (p.base + p.capacity) p.capacity }

def addFreeChunk (m : Mspace) (base capacity : ℕ) : Option Mspace :=
  if (m.inuseChunks.get? base).isSome then none
  else some (insertUnmerged (mergeNext (mergePrev m base capacity)))

def addNewChunk (m : Mspace) (base capacity : ℕ) : Option Mspace :=
  addFreeChunk { m with totalSize := (m.totalSize + capacity) % sizeBound } base capacity

/-- Cut `bytes` from the front of a free chunk and mark them as in use. -/
def carve (m : Mspace) (startAddr size bytes : ℕ) : Mspace :=
  let rsize := size - bytes
  let m' :=
    if 0 < rsize then
      { m with
        freeChunksStart := (m.freeChunksStart.insert (startAddr + bytes) rsize).erase startAddr
        freeChunksEnd := m.freeChunksEnd.insert (startAddr + size) rsize }
    else
      { m with
        freeChunksStart := m.freeChunksStart.erase startAddr
        freeChunksEnd := m.freeChunksEnd.erase (startAddr + size) }
  { m' with inuseChunks := m'.inuseChunks.insert startAddr bytes }

/-- First fit in address order; the result is null when nothing fits. -/
def allocate (m : Mspace) (bytes : ℕ) : ℕ × Mspace :=
  if bytes = 0 then (0, m)
  else
    let bytes := alignRequest bytes
    match m.freeChunksStart.first? fun _ size => bytes ≤ size with
    | some (startAddr, size) => (startAddr, m.carve startAddr size bytes)
    | none => (0, m)

def deallocate (m : Mspace) (mem : ℕ) : Option Mspace :=
  match m.inuseChunks.get? mem with
  | none => none
  | some bytes => addFreeChunk { m with inuseChunks := m.inuseChunks.erase mem } mem bytes

def allocateZeroed (m : Mspace) (nElements elemSize : ℕ) : ℕ × Mspace :=
  m.allocate (nElements * elemSize % sizeBound)

def trimFront (m : Mspace) (ptr retPtr : ℕ) : Option Mspace :=
  if retPtr = ptr then some m
  else
    let size := (m.inuseChunks.get? ptr).getD 0
    addFreeChunk
      { m with
        inuseChunks :=
          (m.inuseChunks.insert retPtr
            ((size + sizeBound - (retPtr - ptr)) % sizeBound)).erase ptr }
      ptr (retPtr - ptr)

/-- Allocate at a multiple of `alignment`, asking for `alignment` more bytes. -/
def allocateAligned (m : Mspace) (alignment bytes : ℕ) : Option (ℕ × Mspace) :=
  if alignment % 8 = 0 ∧ alignment &&& (alignment - 1) = 0 then
    let (ptr, m) := m.allocate ((bytes + alignment) % sizeBound)
    if ptr = 0 then some (0, m)
    else if alignment = 0 then none
    else
      let retPtr := alignment * ((ptr + (alignment - 1)) / alignment)
      (m.trimFront ptr retPtr).map fun m => (retPtr, m)
  else none

def checkInuse (m : Mspace) (ptr size : ℕ) : Bool := m.inuseChunks.get? ptr = some size

def getStartInusePtr (m : Mspace) : ℕ :=
  ((m.inuseChunks.first? fun _ _ => true).map Prod.fst).getD 0

inductive Call where
  | addNewChunk (base capacity : ℕ)
  | allocate (bytes : ℕ)
  | allocateZeroed (nElements elemSize : ℕ)
  | allocateAligned (alignment bytes : ℕ)
  | deallocate (mem : ℕ)
  deriving DecidableEq, Repr

def call (m : Mspace) : Call → Option (ℕ × Mspace)
  | .addNewChunk base capacity => (m.addNewChunk base capacity).map fun m => (0, m)
  | .allocate bytes => some (m.allocate bytes)
  | .allocateZeroed nElements elemSize => some (m.allocateZeroed nElements elemSize)
  | .allocateAligned alignment bytes => m.allocateAligned alignment bytes
  | .deallocate mem => (m.deallocate mem).map fun m => (0, m)

end Mspace

end Nvshmem
