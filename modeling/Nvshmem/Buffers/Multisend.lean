import Nvshmem.Buffers.Lookup
import Nvshmem.Heap.Handles
import Nvshmem.Intervals.Tiling

/-! # Transfers in chunks

The host splits a transfer where a registered range ends on either side or the transport takes no
more. The handle of a local address is that of the heap, or else that of a registered buffer.
-/

namespace Nvshmem.Buffers

open Handles Intervals Option List

variable {H : Type}

structure Sender (H : Type) where
  layout : Layout
  tables : Tables H
  mmapAllocatedRange : ℕ
  mype : ℕ
  transportId : ℕ
  maxOpLen : ℕ
  peerHeapBaseRemote : ℕ → ℕ
  buffers : List (LocalBufHandle H)

structure Op (H : Type) where
  pe : ℕ
  localPtr : ℕ
  localHandle : H
  remotePtr : ℕ
  remoteHandle : H
  remoteOffset : Option ℕ
  nelems : ℕ

def Op.localRange (op : Op H) : ℕ × ℕ := (op.localPtr, op.nelems)

def Op.remoteRange (op : Op H) : ℕ × ℕ := (op.remotePtr, op.nelems)

namespace Sender

variable (x : Sender H)

def getTransportMemHandle (addr len pe : ℕ) : Option (Option H × ℕ) :=
  x.tables.getTransportMemHandle x.layout x.mmapAllocatedRange addr len pe x.transportId

/-- `nvshmemi_get_local_mem_handle`. -/
def getLocalMemHandle (addr len : ℕ) : Option (H × ℕ) :=
  (x.getTransportMemHandle addr len x.mype).bind fun r =>
    (if r.1.isSome then some r else (getRegisteredBufferHandle x.buffers addr r.2).toOption).bind
      fun r => r.1.map (·, min r.2 x.maxOpLen)

/-- `nvshmemi_get_remote_mem_handle`. -/
def getRemoteMemHandle (addr len pe : ℕ) : Option (H × Option ℕ × ℕ) :=
  (x.getTransportMemHandle addr len pe).bind fun r =>
    r.1.map (·, x.tables.getMemHandleAddrOffset x.layout addr, min r.2 x.maxOpLen)

/-- `NVSHMEMU_UNMAPPED_PTR_PE_TRANSLATE` without rails. -/
def unmappedPtrPeTranslate (ptr pe : ℕ) : ℕ :=
  x.peerHeapBaseRemote pe + (ptr - x.layout.heapBase)

/-- The loop of `nvshmemi_process_multisend_rma`, with the number of iterations. There is no result
when an assertion fails, a table is left or the iterations do not suffice. -/
def sendChunks (pe : ℕ) : ℕ → ℕ → ℕ → ℕ → Option (List (Op H))
  | 0, _, _, sizeRemaining => if sizeRemaining = 0 then some [] else none
  | fuel + 1, rptr, lptr, sizeRemaining =>
    if sizeRemaining = 0 then some []
    else
      (x.getLocalMemHandle lptr sizeRemaining).bind fun (localHandle, localChunkSize) =>
        (x.getRemoteMemHandle rptr sizeRemaining pe).bind
          fun (remoteHandle, remoteOffset, remoteChunkSize) =>
            let chunkSize := min localChunkSize (min remoteChunkSize sizeRemaining)
            (sendChunks pe fuel (rptr + chunkSize) (lptr + chunkSize)
              (sizeRemaining - chunkSize)).map
                (⟨pe, lptr, localHandle, x.unmappedPtrPeTranslate rptr pe, remoteHandle,
                  remoteOffset, chunkSize⟩ :: ·)

/-- `nvshmemi_process_multisend_rma`. -/
def processMultisendRma (pe rptr lptr size : ℕ) : Option (List (Op H)) :=
  x.sendChunks pe size rptr lptr size

def InHeap (addr : ℕ) : Prop :=
  x.layout.heapBase ≤ addr ∧ addr ≤ x.layout.heapBase + x.layout.heapSize

def HeapRegistration (pe : ℕ) (handle : H) (range : ℕ × ℕ) : Prop :=
  ∃ r ∈ x.tables.registered ++ x.tables.mapped,
    handle = r.handle pe x.transportId ∧ range = (r.start, r.size)

def HeapLookup (pe addr : ℕ) : Prop :=
  ∃ handle range remaining, x.HeapRegistration pe handle range ∧
    (∀ len, x.getTransportMemHandle addr len pe = some (some handle, remaining)) ∧
    range.1 ≤ addr ∧ 0 < remaining ∧ addr + remaining ≤ range.1 + range.2

def BufferLookup (addr : ℕ) : Prop :=
  ∃ e ∈ x.buffers, e.ptr ≤ addr ∧ ∀ len > 0, ∃ n > 0,
    getRegisteredBufferHandle x.buffers addr len = .ok (some e.handle, n) ∧
      addr + n ≤ e.ptr + e.length

def LocalLookup (addr : ℕ) : Prop :=
  x.InHeap addr ∧ x.HeapLookup x.mype addr ∨ ¬ x.InHeap addr ∧ x.BufferLookup addr

def LocalRegistration (handle : H) (range : ℕ × ℕ) : Prop :=
  x.HeapRegistration x.mype handle range ∨ ∃ e ∈ x.buffers, handle = e.handle ∧ range = e.range

def Within (region range : ℕ × ℕ) : Prop :=
  range.1 ≤ region.1 ∧ region.1 + region.2 ≤ range.1 + range.2

variable {x} {addr len pe : ℕ}

theorem getTransportMemHandle_of_not_inHeap (h : ¬ x.InHeap addr) :
    x.getTransportMemHandle addr len pe = some (none, len) := by
  rw [InHeap, not_and_or, not_le, not_le] at h
  exact if_pos h

theorem HeapLookup.inHeap (h : x.HeapLookup pe addr) : x.InHeap addr := by
  obtain ⟨handle, range, remaining, -, hlookup, -⟩ := h
  by_contra hout
  have heq := hlookup 0
  rw [getTransportMemHandle_of_not_inHeap hout] at heq
  cases heq

theorem HeapLookup.of_finds (h : x.tables.Finds x.layout x.mmapAllocatedRange addr)
    (hpe : pe < x.layout.npes) (htransport : x.transportId < x.layout.numInitializedTransports) :
    x.HeapLookup pe addr := by
  obtain ⟨r, hr, ⟨hle, hlt⟩, hhandle, -⟩ := h
  refine ⟨r.handle pe x.transportId, (r.start, r.size), r.start + r.size - addr, ⟨r, hr, rfl, rfl⟩,
    hhandle pe hpe x.transportId htransport, hle, by omega, ?_⟩
  omega

theorem BufferLookup.of_ordered (hordered : Ordered x.buffers)
    (h : ∃ e ∈ x.buffers, e.Contains addr) : x.BufferLookup addr := by
  obtain ⟨e, he, hle, hlt⟩ := h
  refine ⟨e, he, hle, fun len hlen => ?_⟩
  obtain ⟨r, hr, hfound⟩ := getRegisteredBufferHandle_found hordered addr len
  rcases hfound with ⟨e', he', hc', rfl⟩ | ⟨hnone, -⟩
  · obtain rfl := hordered.eq_of_contains he he' ⟨hle, hlt⟩ hc'
    exact ⟨_, lt_min hlen (by omega), hr, by omega⟩
  · exact absurd ⟨hle, hlt⟩ (hnone e he)

theorem LocalLookup.getLocalMemHandle (h : x.LocalLookup addr) (hmax : 0 < x.maxOpLen)
    (hlen : 0 < len) :
    ∃ handle n range, x.getLocalMemHandle addr len = some (handle, n) ∧ 0 < n ∧ n ≤ x.maxOpLen ∧
      x.LocalRegistration handle range ∧ range.1 ≤ addr ∧ addr + n ≤ range.1 + range.2 := by
  rcases h with ⟨-, handle, range, remaining, hreg, hlookup, hle, hpos, hend⟩ |
    ⟨hout, e, he, hle, hbuffer⟩
  · refine ⟨handle, min remaining x.maxOpLen, range, ?_, lt_min hpos hmax, min_le_right .., .inl hreg,
      hle, ?_⟩
    · rw [Sender.getLocalMemHandle, hlookup]
      rfl
    · omega
  · obtain ⟨n, hn, hr, hend⟩ := hbuffer len hlen
    refine ⟨e.handle, min n x.maxOpLen, e.range, ?_, lt_min hn hmax, min_le_right ..,
      .inr ⟨e, he, rfl, rfl⟩, hle, ?_⟩
    · rw [Sender.getLocalMemHandle, getTransportMemHandle_of_not_inHeap hout]
      simp only [bind_some, isSome_none, Bool.false_eq_true, if_false, hr,
        Except.toOption, map_some]
    · simp only [LocalBufHandle.range]
      omega

theorem HeapLookup.getRemoteMemHandle (h : x.HeapLookup pe addr) (hmax : 0 < x.maxOpLen) (len : ℕ) :
    ∃ handle offset n range, x.getRemoteMemHandle addr len pe = some (handle, offset, n) ∧ 0 < n ∧
      x.HeapRegistration pe handle range ∧ range.1 ≤ addr ∧ addr + n ≤ range.1 + range.2 := by
  obtain ⟨handle, range, remaining, hreg, hlookup, hle, hpos, hend⟩ := h
  refine ⟨handle, x.tables.getMemHandleAddrOffset x.layout addr, min remaining x.maxOpLen, range, ?_,
    lt_min hpos hmax, hreg, hle, ?_⟩
  · rw [Sender.getRemoteMemHandle, hlookup]
    rfl
  · omega

/-- What holds of every operation: it keeps to the limit of the transport and to one registered
range on both sides. A range on the other side is given by addresses of the own heap. -/
def Fitting (x : Sender H) (pe : ℕ) (op : Op H) : Prop :=
  op.nelems ≤ x.maxOpLen ∧
    (∃ range, x.LocalRegistration op.localHandle range ∧ Within op.localRange range) ∧
    ∃ range rptr, x.HeapRegistration pe op.remoteHandle range ∧
      op.remotePtr = x.unmappedPtrPeTranslate rptr pe ∧ Within (rptr, op.nelems) range

theorem sendChunks_tiles (hmax : 0 < x.maxOpLen) {fuel rptr lptr size : ℕ}
    (hlocal : ∀ k < size, x.LocalLookup (lptr + k))
    (hremote : ∀ k < size, x.HeapLookup pe (rptr + k)) (hfuel : size ≤ fuel) :
    ∃ ops, x.sendChunks pe fuel rptr lptr size = some ops ∧
      Tiles lptr size (ops.map Op.localRange) ∧
      Tiles (x.unmappedPtrPeTranslate rptr pe) size (ops.map Op.remoteRange) ∧
      ∀ op ∈ ops, x.Fitting pe op := by
  induction fuel generalizing rptr lptr size with
  | zero =>
    obtain rfl := Nat.le_zero.mp hfuel
    exact ⟨[], rfl, .nil, .nil, fun _ hop => absurd hop not_mem_nil⟩
  | succ fuel ih =>
    rw [sendChunks]
    by_cases hzero : size = 0
    · subst hzero
      exact ⟨[], if_pos rfl, .nil, .nil, fun _ hop => absurd hop not_mem_nil⟩
    have hpos : 0 < size := Nat.pos_of_ne_zero hzero
    obtain ⟨localHandle, n, range, hn, hnpos, hnmax, hreg, hle, hend⟩ :=
      (hlocal 0 hpos).getLocalMemHandle hmax hpos
    obtain ⟨remoteHandle, offset, n', range', hn', hnpos', hreg', hle', hend'⟩ :=
      (hremote 0 hpos).getRemoteMemHandle hmax size
    rw [Nat.add_zero] at hn hn' hle hle' hend hend'
    rw [if_neg hzero, hn, bind_some]
    dsimp only
    rw [hn', bind_some]
    -- what the chunk is: positive and within all three limits
    obtain ⟨hchunk, hchunkn, hchunkn', hchunksize⟩ : 0 < min n (min n' size) ∧
        min n (min n' size) ≤ n ∧ min n (min n' size) ≤ n' ∧ min n (min n' size) ≤ size := by
      omega
    generalize min n (min n' size) = chunk at *
    obtain ⟨ops, hops, hltiles, hrtiles, hfit⟩ := @ih (rptr + chunk) (lptr + chunk) (size - chunk)
      (fun k hk => by rw [Nat.add_assoc]; exact hlocal _ (by omega))
      (fun k hk => by rw [Nat.add_assoc]; exact hremote _ (by omega)) (by omega)
    rw [hops]
    refine ⟨_, rfl, ?_, ?_, forall_mem_cons.mpr ⟨⟨by dsimp only; omega,
      ⟨range, hreg, hle, by dsimp only [Op.localRange]; omega⟩,
      range', rptr, hreg', rfl, hle', by dsimp only; omega⟩, hfit⟩⟩
    · have hcons := Tiles.cons hchunk hltiles
      rwa [Nat.add_sub_cancel' hchunksize] at hcons
    · have htranslate : x.unmappedPtrPeTranslate (rptr + chunk) pe =
          x.unmappedPtrPeTranslate rptr pe + chunk := by
        have := (hremote 0 hpos).inHeap.1
        rw [unmappedPtrPeTranslate, unmappedPtrPeTranslate]
        omega
      rw [htranslate] at hrtiles
      have hcons := Tiles.cons hchunk hrtiles
      rwa [Nat.add_sub_cancel' hchunksize] at hcons

/-- A transfer is sent in finitely many operations. They cover the bytes on both sides in order,
without a gap or an overlap, and each of them keeps to the limits. -/
theorem processMultisendRma_tiles (x : Sender H) (hmax : 0 < x.maxOpLen)
    (pe rptr lptr size : ℕ) (hlocal : ∀ k < size, x.LocalLookup (lptr + k))
    (hremote : ∀ k < size, x.HeapLookup pe (rptr + k)) :
    ∃ ops, x.processMultisendRma pe rptr lptr size = some ops ∧
      Tiles lptr size (ops.map Op.localRange) ∧
      Tiles (x.unmappedPtrPeTranslate rptr pe) size (ops.map Op.remoteRange) ∧
      covered (ops.map Op.localRange) = Set.Ico lptr (lptr + size) ∧
      (ops.map Op.localRange).Pairwise Apart ∧ (ops.map Op.remoteRange).Pairwise Apart ∧
      ∀ op ∈ ops, x.Fitting pe op := by
  obtain ⟨ops, hops, hltiles, hrtiles, hfit⟩ :=
    sendChunks_tiles hmax hlocal hremote le_rfl
  exact ⟨ops, hops, hltiles, hrtiles, hltiles.covered_eq, hltiles.pairwise_apart,
    hrtiles.pairwise_apart, hfit⟩

def fourGranules : StaticHeap where
  globalHeapBase := 4096
  npesNode := 1
  mypeNode := 0
  mypeNode_lt := Nat.one_pos
  size := 2048
  size_pos := Nat.succ_pos _
  log2MemGranularity := 9
  log2_le := nine_le_thirtyOne
  npes := 2
  numInitializedTransports := 1
  enableRailOpt := false

def adjacentBuffers : List (LocalBufHandle ℕ) :=
  [⟨8192, 512, 7, false, false, false⟩, ⟨8704, 1024, 8, false, false, false⟩]

def shortOps : Sender ℕ where
  layout := fourGranules.layout
  tables := fourGranules.tables byAddress
  mmapAllocatedRange := 0
  mype := 0
  transportId := 0
  maxOpLen := 400
  peerHeapBaseRemote := fun _ => 65536
  buffers := adjacentBuffers

theorem ordered_adjacentBuffers : Ordered adjacentBuffers :=
  ⟨by decide, by decide, by decide⟩

theorem localLookup_shortOps {k : ℕ} (hk : k < 600) : shortOps.LocalLookup (8600 + k) := by
  refine .inr ⟨fun hin => ?_, .of_ordered ordered_adjacentBuffers ?_⟩
  · have hle : 8600 + k ≤ 4096 + 2048 := hin.2
    omega
  · rcases Nat.lt_or_ge k 104 with hlt | hge
    · exact ⟨⟨8192, 512, 7, false, false, false⟩, mem_cons_self,
        by dsimp only; omega, by dsimp only; omega⟩
    · exact ⟨⟨8704, 1024, 8, false, false, false⟩, mem_cons_of_mem _ mem_cons_self,
        by dsimp only; omega, by dsimp only; omega⟩

theorem heapLookup_shortOps {k : ℕ} (hk : k < 600) : shortOps.HeapLookup 1 (4200 + k) := by
  have hbase : fourGranules.heapBase = 4096 := by decide
  have hsize : fourGranules.heapSize = 2048 := by decide
  have hbound : fourGranules.globalHeapBase + fourGranules.heapSize * fourGranules.npesNode <
      2 ^ 64 := by decide
  have hle : fourGranules.heapBase ≤ 4200 + k := by omega
  have hlt : 4200 + k < fourGranules.heapBase + fourGranules.heapSize := by omega
  have hfinds : (fourGranules.tables byAddress).Finds fourGranules.layout 0 (4200 + k) :=
    StaticHeap.finds hbound hle hlt
  exact HeapLookup.of_finds (x := shortOps) hfinds Nat.one_lt_two Nat.one_pos

theorem processMultisendRma_shortOps : ∃ ops : List (Op ℕ),
    shortOps.processMultisendRma 1 4200 8600 600 = some ops ∧
      Tiles 8600 600 (ops.map Op.localRange) ∧ Tiles 65640 600 (ops.map Op.remoteRange) := by
  obtain ⟨ops, hops, hltiles, hrtiles, -⟩ := processMultisendRma_tiles shortOps (by decide)
    1 4200 8600 600 (fun _ => localLookup_shortOps) (fun _ => heapLookup_shortOps)
  exact ⟨ops, hops, hltiles, hrtiles⟩

end Sender

end Nvshmem.Buffers
