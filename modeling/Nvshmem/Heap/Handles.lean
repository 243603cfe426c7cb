import Nvshmem.Lists.Update
import Nvshmem.Transition.Exec

/-! # Memory handles of the heap

The heap is registered with the transports in pieces. A table has an entry for each granule of the
internal part of the heap: the index of the handles of its piece, and where the piece starts and how
long it is. Granules of user mappings have their entries in a map of their own.
-/

namespace Nvshmem.Handles

open Lists Transition List Option Nat

variable {H : Type}

/-- Where the heap lies and how it is divided, and the heaps of a node when they are registered as
one region. -/
structure Layout where
  heapBase : ℕ
  heapSize : ℕ
  log2MemGranularity : ℕ
  log2_le : log2MemGranularity ≤ 31
  npes : ℕ
  numInitializedTransports : ℕ
  rail : Option (ℕ × ℕ)

namespace Layout

variable (l : Layout)

def memGranularity : ℕ := 2 ^ l.log2MemGranularity

def adjustedMaxHandleLen : ℕ := l.memGranularity * (2147483648 / l.memGranularity)

def registrationSize (remaining : ℕ) : ℕ :=
  if l.adjustedMaxHandleLen < remaining then l.adjustedMaxHandleLen else remaining

def pieces (size : ℕ) : ℕ := (size + l.adjustedMaxHandleLen - 1) / l.adjustedMaxHandleLen

def addrIdx (addr : ℕ) : ℕ := (addr - l.heapBase) >>> l.log2MemGranularity

def allgather (handle : ℕ → ℕ → H) : List H :=
  (List.range (l.npes * l.numInitializedTransports)).map fun k =>
    handle (k / l.numInitializedTransports) (k % l.numInitializedTransports)

end Layout

/-- A tuple of `idx_in_handles_`. -/
structure HandleIdx where
  idx : ℕ
  start : ℕ
  size : ℕ
deriving DecidableEq

structure Registration (H : Type) where
  start : ℕ
  size : ℕ
  handle : ℕ → ℕ → H

def Registration.Contains (r : Registration H) (addr : ℕ) : Prop :=
  r.start ≤ addr ∧ addr < r.start + r.size

/-- The tables of a heap. A map has a tuple of zeros where nothing was assigned. `registered` and
`mapped` are not part of the program: they record the ranges that were registered for the internal
part and for user mappings. -/
structure Tables (H : Type) where
  remoteHandles : List (List H)
  remoteMmapHandles : List (List H)
  idxInHandles : List HandleIdx
  idxInMmapHandles : ℕ → HandleIdx
  emptyHeapHandleCache : Bool
  registered : List (Registration H)
  mapped : List (Registration H)

namespace Tables

variable (l : Layout) (t : Tables H)

def init : Tables H := ⟨[], [], [], fun _ => ⟨0, 0, 0⟩, true, [], []⟩

/-- `get_transport_mem_handle`, given the length of the range of the user mappings: the handle, which
is absent for an address outside of the heap, and the length. There is no result when an access
leaves a table. -/
def getTransportMemHandle (mmapAllocatedRange addr len pe transportIdx : ℕ) :
    Option (Option H × ℕ) :=
  if addr < l.heapBase ∨ l.heapBase + l.heapSize < addr then some (none, len)
  else
    let handleSubIndex := pe * l.numInitializedTransports + transportIdx
    if l.heapBase + (l.heapSize - mmapAllocatedRange) ≤ addr then
      let e := t.idxInMmapHandles (l.addrIdx addr)
      (t.remoteMmapHandles[e.idx]?.bind (·[handleSubIndex]?)).map fun handle =>
        (some handle, (e.size + 2 ^ 64 - (addr - e.start)) % 2 ^ 64)
    else
      t.idxInHandles[l.addrIdx addr]?.bind fun e =>
        (t.remoteHandles[e.idx]?.bind (·[handleSubIndex]?)).map fun handle =>
          (some handle, (e.size + 2 ^ 64 - (addr - e.start)) % 2 ^ 64)

/-- `get_mem_handle_addr_offset`. There is no result when the access leaves the table. -/
def getMemHandleAddrOffset (addr : ℕ) : Option ℕ :=
  t.idxInHandles[l.addrIdx addr]?.map fun e => addr - e.start

/-- `update_idx_in_handle`. -/
def updateIdxInHandle (addr size idx : ℕ) : Bool → Tables H
  | true =>
    { t with
      idxInMmapHandles := Function.update t.idxInMmapHandles (l.addrIdx addr + idx)
        ⟨t.remoteMmapHandles.length - 1, addr, size⟩ }
  | false =>
    { t with idxInHandles := t.idxInHandles ++ [⟨t.remoteHandles.length - 1, addr, size⟩] }

def updateIdxInHandles (addr size : ℕ) (ext : Bool) : Tables H :=
  (List.range (size / l.memGranularity)).foldl
    (fun t idx => t.updateIdxInHandle l addr size idx ext) t

/-- `update_heap_handle_cache`. -/
def updateHeapHandleCache (buf size : ℕ) (ext : Bool) : Tables H :=
  let t' :=
    match l.rail with
    | some (base, len) =>
      if t.emptyHeapHandleCache then t.updateIdxInHandles l base len false else t
    | none => t.updateIdxInHandles l buf size ext
  { t' with emptyHeapHandleCache := false }

def pieceHandles (answers : ℕ → ℕ → H) (pe transportIdx : ℕ) : H :=
  if l.rail.isSome ∧ t.emptyHeapHandleCache = false then
    ((t.remoteHandles.head?.bind (·[transportIdx]?))).getD (answers pe transportIdx)
  else answers pe transportIdx

def pieceRegistrations (answers : ℕ → ℕ → H) (buf size : ℕ) : List (Registration H) :=
  match l.rail with
  | some (base, len) => if t.emptyHeapHandleCache then [⟨base, len, answers⟩] else []
  | none => [⟨buf, size, answers⟩]

/-- `register_heap_chunk_by_size`, with the handles that the PEs get for the piece. -/
def registerHeapChunkBySize (answers : ℕ → ℕ → H) (buf size : ℕ) : Bool → Tables H
  | true =>
    updateHeapHandleCache l
      { t with
        remoteMmapHandles := t.remoteMmapHandles ++ [l.allgather answers]
        mapped := t.mapped ++ [⟨buf, size, answers⟩] } buf size true
  | false =>
    updateHeapHandleCache l
      { t with
        remoteHandles := t.remoteHandles ++ [l.allgather (t.pieceHandles l answers)]
        registered := t.registered ++ t.pieceRegistrations l answers buf size } buf size false

/-- The pieces that are left, the address of the first one and the size that remains. The handles
are given for the address of a piece. -/
def registerPieces (answers : ℕ → ℕ → ℕ → H) (ext : Bool) : ℕ → ℕ → ℕ → Tables H → Tables H
  | 0, _, _, t => t
  | left + 1, bufStart, remaining, t =>
    registerPieces answers ext left (bufStart + l.registrationSize remaining)
      (remaining - l.registrationSize remaining)
      (t.registerHeapChunkBySize l (answers bufStart) bufStart (l.registrationSize remaining) ext)

/-- `register_heap_memory`. -/
def registerHeapMemory (answers : ℕ → ℕ → ℕ → H) (buf size : ℕ) (ext : Bool) : Tables H :=
  registerPieces l answers ext (l.pieces size) buf size t

def clearGranule (currPtr registerSize : ℕ) (t : Tables H) (idx : ℕ) : Option (Tables H) :=
  let e := t.idxInMmapHandles (l.addrIdx currPtr + idx)
  if e.start ≠ currPtr ∨ e.size ≠ registerSize then none
  else
    some { t with
      remoteMmapHandles :=
        if idx = 0 then t.remoteMmapHandles.set e.idx [] else t.remoteMmapHandles
      idxInMmapHandles :=
        Function.update t.idxInMmapHandles (l.addrIdx currPtr + idx) ⟨e.idx, 0, 0⟩ }

def clearPieces : ℕ → ℕ → ℕ → Tables H → Option (Tables H)
  | 0, _, _, t => some t
  | left + 1, currPtr, remaining, t =>
    (exec (clearGranule l currPtr (l.registrationSize remaining)) t
      (.range (l.registrationSize remaining / l.memGranularity))).bind
        (clearPieces left (currPtr + l.registrationSize remaining)
          (remaining - l.registrationSize remaining))

/-- The loop of `unmap_mem` over the pieces of a mapping. -/
def clearMapping (ptr size : ℕ) : Option (Tables H) :=
  clearPieces l (l.pieces size) ptr size t

end Tables

section Lookup

variable {l : Layout} {t t' : Tables H} {addr len pe transportIdx g n : ℕ}

theorem Layout.memGranularity_pos : 0 < l.memGranularity := Nat.two_pow_pos _

theorem Layout.addrIdx_eq : l.addrIdx addr = (addr - l.heapBase) / l.memGranularity :=
  shiftRight_eq_div_pow ..

theorem Layout.getElem?_allgather {handle : ℕ → ℕ → H} (hpe : pe < l.npes)
    (htransport : transportIdx < l.numInitializedTransports) :
    (l.allgather handle)[pe * l.numInitializedTransports + transportIdx]? =
      some (handle pe transportIdx) := by
  have hpos : 0 < l.numInitializedTransports := by omega
  have hlt : pe * l.numInitializedTransports + transportIdx <
      l.npes * l.numInitializedTransports := by
    calc pe * l.numInitializedTransports + transportIdx
        < (pe + 1) * l.numInitializedTransports := by rw [Nat.add_one_mul]; omega
      _ ≤ l.npes * l.numInitializedTransports := Nat.mul_le_mul_right _ hpe
  rw [Layout.allgather, getElem?_map, getElem?_range hlt, map_some,
    Nat.mul_comm pe, mul_add_div hpos, div_eq_of_lt htransport, mul_add_mod,
    mod_eq_of_lt htransport, Nat.add_zero]

/-- The entry of a granule is that of a registered range with all of its bytes. -/
def Tables.Indexed (l : Layout) (t : Tables H) (g : ℕ) : Prop :=
  ∃ e r, t.idxInHandles[g]? = some e ∧ t.registered[e.idx]? = some r ∧
    t.remoteHandles[e.idx]? = some (l.allgather r.handle) ∧ e.start = r.start ∧ e.size = r.size ∧
    r.start ≤ l.heapBase + g * l.memGranularity ∧
    l.heapBase + g * l.memGranularity + l.memGranularity ≤ r.start + r.size

def Tables.Finds (l : Layout) (t : Tables H) (mmapAllocatedRange addr : ℕ) : Prop :=
  ∃ r ∈ t.registered ++ t.mapped, r.Contains addr ∧
    (∀ pe < l.npes, ∀ transportIdx < l.numInitializedTransports, ∀ len,
      t.getTransportMemHandle l mmapAllocatedRange addr len pe transportIdx =
        some (some (r.handle pe transportIdx), r.start + r.size - addr)) ∧
    t.getMemHandleAddrOffset l addr = some (addr - r.start)

theorem Tables.Indexed.finds {mmapAllocatedRange : ℕ} (h : t.Indexed l (l.addrIdx addr))
    (hle : l.heapBase ≤ addr) (hlt : addr < l.heapBase + (l.heapSize - mmapAllocatedRange))
    (hsize : ∀ r ∈ t.registered, r.start + r.size < 2 ^ 64) : t.Finds l mmapAllocatedRange addr := by
  obtain ⟨e, r, he, hr, hvector, hstart, hesize, hfirst, hlast⟩ := h
  have hidx : l.addrIdx addr = (addr - l.heapBase) / l.memGranularity := l.addrIdx_eq
  have hmod := div_add_mod' (addr - l.heapBase) l.memGranularity
  have hmodlt := mod_lt (addr - l.heapBase) l.memGranularity_pos
  rw [← hidx] at hmod
  have hcontains : r.Contains addr := ⟨by omega, by omega⟩
  have hmem := mem_of_getElem? hr
  have hbound := hsize r hmem
  obtain ⟨hrle, hrlt⟩ := hcontains
  refine ⟨r, mem_append_left _ hmem, ⟨hrle, hrlt⟩, fun pe hpe transportIdx htransport len => ?_, ?_⟩
  · have hlen : (r.size + 2 ^ 64 - (addr - r.start)) % 2 ^ 64 = r.start + r.size - addr := by
      rw [show r.size + 2 ^ 64 - (addr - r.start) = r.start + r.size - addr + 2 ^ 64 by omega,
        add_mod_right, mod_eq_of_lt (by omega)]
    rw [getTransportMemHandle, if_neg (by omega)]
    simp only [not_le.mpr hlt, if_false, he, bind_some, hvector,
      Layout.getElem?_allgather hpe htransport, map_some, hstart, hesize, hlen]
  · rw [getMemHandleAddrOffset, he, map_some, hstart]

theorem Tables.getMemHandleAddrOffset_eq_none
    (h : t.idxInHandles.length ≤ l.addrIdx addr) : t.getMemHandleAddrOffset l addr = none := by
  rw [getMemHandleAddrOffset, getElem?_eq_none h, map_none]

end Lookup

namespace Tables

variable {l : Layout} {t t' : Tables H} {addr size g n : ℕ}

structure Extends (t t' : Tables H) : Prop where
  idx : t.idxInHandles <+: t'.idxInHandles
  handles : t.remoteHandles <+: t'.remoteHandles
  registered : t.registered <+: t'.registered

theorem Extends.trans {t'' : Tables H} (h : t.Extends t') (h' : t'.Extends t'') : t.Extends t'' :=
  ⟨h.idx.trans h'.idx, h.handles.trans h'.handles, h.registered.trans h'.registered⟩

theorem Indexed.mono (h : t.Indexed l g) (hext : t.Extends t') : t'.Indexed l g := by
  obtain ⟨e, r, he, hr, hvector, hrest⟩ := h
  exact ⟨e, r, getElem?_of_isPrefix hext.idx he, getElem?_of_isPrefix hext.registered hr,
    getElem?_of_isPrefix hext.handles hvector, hrest⟩

theorem updateIdxInHandles_internal : t.updateIdxInHandles l addr size false =
    { t with idxInHandles := t.idxInHandles ++
        .replicate (size / l.memGranularity) ⟨t.remoteHandles.length - 1, addr, size⟩ } := by
  rw [updateIdxInHandles]
  induction size / l.memGranularity with
  | zero => rw [range_zero, foldl_nil, replicate_zero, append_nil]
  | succ k ih =>
    rw [range_succ, foldl_append, ih, foldl_cons, foldl_nil, updateIdxInHandle,
      replicate_succ', ← append_assoc]

def internal (t : Tables H) : List (List H) × List HandleIdx × List (Registration H) :=
  (t.remoteHandles, t.idxInHandles, t.registered)

theorem internal_updateIdxInHandles : (t.updateIdxInHandles l addr size true).internal =
    t.internal := by
  rw [updateIdxInHandles]
  induction size / l.memGranularity with
  | zero => rfl
  | succ k ih => rw [range_succ, foldl_append, ← ih]; rfl

theorem registerHeapChunkBySize_internal (hrail : l.rail = none) {answers : ℕ → ℕ → H} {buf : ℕ} :
    t.registerHeapChunkBySize l answers buf size false =
      { t with
        remoteHandles := t.remoteHandles ++ [l.allgather answers]
        registered := t.registered ++ [⟨buf, size, answers⟩]
        idxInHandles := t.idxInHandles ++
          .replicate (size / l.memGranularity) ⟨t.remoteHandles.length, buf, size⟩
        emptyHeapHandleCache := false } := by
  have hhandles : t.pieceHandles l answers = answers := by
    funext pe transportIdx
    rw [pieceHandles, hrail]
    exact if_neg fun h => absurd h.1 Bool.false_ne_true
  simp only [registerHeapChunkBySize, updateHeapHandleCache, hrail, hhandles, pieceRegistrations,
    updateIdxInHandles_internal, length_append, length_singleton, Nat.add_sub_cancel]

theorem internal_registerPieces (hrail : l.rail = none) {answers : ℕ → ℕ → ℕ → H} {left buf : ℕ} :
    (registerPieces l answers true left buf size t).internal = t.internal := by
  induction left generalizing buf size t with
  | zero => rfl
  | succ left ih =>
    rw [registerPieces, ih, registerHeapChunkBySize, updateHeapHandleCache, hrail]
    exact internal_updateIdxInHandles

theorem internal_clearPieces {left ptr : ℕ} (h : clearPieces l left ptr size t = some t') :
    t'.internal = t.internal := by
  induction left generalizing ptr size t with
  | zero => exact some.inj h ▸ rfl
  | succ left ih =>
    obtain ⟨t₁, hgranules, hrest⟩ := bind_eq_some_iff.mp h
    have hpiece : t₁.internal = t.internal := by
      refine Reachable.invariant (I := fun u => u.internal = t.internal) ⟨_, hgranules⟩ rfl ?_
      intro u idx v hu hs
      obtain ⟨-, hs⟩ := ite_none_left_eq_some.mp hs
      cases hs
      exact hu
    exact (ih hrest).trans hpiece

structure Covers (l : Layout) (t : Tables H) (n : ℕ) : Prop where
  length : t.idxInHandles.length = n
  indexed : ∀ g < n, t.Indexed l g
  aligned : t.registered.length = t.remoteHandles.length
  bounds : ∀ r ∈ t.registered, r.start + r.size ≤ l.heapBase + n * l.memGranularity

theorem Covers.of_internal (h : t.Covers l n) (heq : t'.internal = t.internal) : t'.Covers l n := by
  obtain ⟨hhandles, hrest⟩ := Prod.mk.inj heq
  obtain ⟨hidx, hregistered⟩ := Prod.mk.inj hrest
  refine ⟨hidx ▸ h.length, fun g hg => ?_, by rw [hregistered, hhandles, h.aligned],
    hregistered ▸ h.bounds⟩
  obtain ⟨e, r, hr⟩ := h.indexed g hg
  rw [← hidx, ← hregistered, ← hhandles] at hr
  exact ⟨e, r, hr⟩

theorem Covers.init : (init : Tables H).Covers l 0 :=
  ⟨rfl, fun _ hg => absurd hg (Nat.not_lt_zero _), rfl, fun _ hr => absurd hr not_mem_nil⟩

theorem Covers.registerHeapChunkBySize (h : t.Covers l n) (hrail : l.rail = none)
    (answers : ℕ → ℕ → H) (m : ℕ) :
    Covers l (t.registerHeapChunkBySize l answers (l.heapBase + n * l.memGranularity)
      (m * l.memGranularity) false) (n + m) := by
  rw [registerHeapChunkBySize_internal hrail, Nat.mul_div_cancel m l.memGranularity_pos]
  refine ⟨?_, fun g hg => ?_, ?_, ?_⟩
  · rw [length_append, length_replicate, h.length]
  · rcases Nat.lt_or_ge g n with hlt | hge
    · exact (h.indexed g hlt).mono
        ⟨prefix_append .., prefix_append .., prefix_append ..⟩
    · refine ⟨⟨t.remoteHandles.length, l.heapBase + n * l.memGranularity, m * l.memGranularity⟩,
        ⟨l.heapBase + n * l.memGranularity, m * l.memGranularity, answers⟩, ?_, ?_, ?_, rfl, rfl,
        ?_, ?_⟩
      · rw [getElem?_append_right (h.length.trans_le hge), h.length,
          getElem?_replicate_of_lt (by omega)]
      · rw [getElem?_append_right h.aligned.le, h.aligned, Nat.sub_self]
        rfl
      · rw [getElem?_append_right le_rfl, Nat.sub_self]
        rfl
      · exact Nat.add_le_add_left (Nat.mul_le_mul_right _ hge) _
      · dsimp only
        have hle : (g + 1) * l.memGranularity ≤ (n + m) * l.memGranularity :=
          Nat.mul_le_mul_right _ hg
        rw [Nat.add_one_mul, Nat.add_mul] at hle
        omega
  · rw [length_append, length_append, h.aligned]
    rfl
  · rw [Nat.add_mul]
    refine forall_mem_concat (fun r hr => ?_) (Nat.add_assoc ..).le
    have := h.bounds r hr
    omega

theorem Covers.registerPieces (h : t.Covers l n) (hrail : l.rail = none)
    {answers : ℕ → ℕ → ℕ → H} {left m : ℕ}
    (hleft : m * l.memGranularity ≤ left * l.adjustedMaxHandleLen) :
    Covers l (Tables.registerPieces l answers false left (l.heapBase + n * l.memGranularity)
      (m * l.memGranularity) t) (n + m) := by
  induction left generalizing t n m with
  | zero =>
    rw [Nat.zero_mul, le_zero, Nat.mul_eq_zero] at hleft
    obtain rfl := hleft.resolve_right l.memGranularity_pos.ne'
    exact h
  | succ left ih =>
    obtain ⟨k, hkm, hk, hrest⟩ : ∃ k ≤ m,
        l.registrationSize (m * l.memGranularity) = k * l.memGranularity ∧
        (m - k) * l.memGranularity ≤ left * l.adjustedMaxHandleLen := by
      rw [Nat.add_one_mul] at hleft
      rw [Layout.registrationSize]
      split_ifs with hlong
      · have hmax : l.adjustedMaxHandleLen = 2147483648 / l.memGranularity * l.memGranularity :=
          Nat.mul_comm ..
        refine ⟨2147483648 / l.memGranularity, ?_, hmax, ?_⟩
        · exact Nat.le_of_mul_le_mul_right (hmax ▸ hlong.le) l.memGranularity_pos
        · rw [Nat.sub_mul]
          omega
      · exact ⟨m, le_rfl, rfl, by rw [Nat.sub_self, Nat.zero_mul]; exact Nat.zero_le _⟩
    rw [Tables.registerPieces, hk, Nat.add_assoc, ← Nat.add_mul, ← Nat.sub_mul]
    have hchunk := h.registerHeapChunkBySize hrail (answers (l.heapBase + n * l.memGranularity)) k
    have hstep := ih hchunk hrest
    rwa [Nat.add_assoc, Nat.add_sub_cancel' hkm] at hstep

theorem Covers.registerHeapMemory (h : t.Covers l n) (hrail : l.rail = none)
    (answers : ℕ → ℕ → ℕ → H) (m : ℕ) :
    Covers l (t.registerHeapMemory l answers (l.heapBase + n * l.memGranularity)
      (m * l.memGranularity) false) (n + m) := by
  refine h.registerPieces hrail ?_
  have hdvd : l.memGranularity ∣ 2147483648 := Nat.pow_dvd_pow 2 l.log2_le
  have hmax : l.adjustedMaxHandleLen = 2147483648 := Nat.mul_div_cancel' hdvd
  rw [Layout.pieces, hmax]
  omega

def ofRegion (l : Layout) (base len : ℕ) (answers : ℕ → ℕ → H) : Tables H where
  remoteHandles := [l.allgather answers]
  remoteMmapHandles := []
  idxInHandles := .replicate (len / l.memGranularity) ⟨0, base, len⟩
  idxInMmapHandles := fun _ => ⟨0, 0, 0⟩
  emptyHeapHandleCache := false
  registered := [⟨base, len, answers⟩]
  mapped := []

theorem registerHeapChunkBySize_rail {base len : ℕ} (hrail : l.rail = some (base, len))
    {answers : ℕ → ℕ → H} {buf : ℕ} :
    (init : Tables H).registerHeapChunkBySize l answers buf size false =
      ofRegion l base len answers := by
  have hhandles : (init : Tables H).pieceHandles l answers = answers := by
    funext pe transportIdx
    exact if_neg fun h => absurd h.2.symm Bool.false_ne_true
  rw [registerHeapChunkBySize, hhandles]
  simp only [updateHeapHandleCache, hrail, pieceRegistrations, init, ofRegion, if_true,
    updateIdxInHandles_internal, nil_append, length_singleton, Nat.sub_self]

theorem registerPieces_rail {region : ℕ × ℕ} (hrail : l.rail = some region)
    (answers : ℕ → ℕ → ℕ → H) (left buf size : ℕ) (t : Tables H)
    (hcache : t.emptyHeapHandleCache = false) :
    t.Extends (Tables.registerPieces l answers false left buf size t) ∧
      (Tables.registerPieces l answers false left buf size t).registered = t.registered := by
  induction left generalizing buf size t with
  | zero => exact ⟨⟨prefix_rfl, prefix_rfl, prefix_rfl⟩, rfl⟩
  | succ left ih =>
    have hchunk : t.registerHeapChunkBySize l (answers buf) buf (l.registrationSize size) false =
        { t with
          remoteHandles := t.remoteHandles ++ [l.allgather (t.pieceHandles l (answers buf))] } := by
      simp only [registerHeapChunkBySize, updateHeapHandleCache, hrail, pieceRegistrations, hcache,
        Bool.false_eq_true, if_false, append_nil]
    have hstep : t.Extends { t with
        remoteHandles := t.remoteHandles ++ [l.allgather (t.pieceHandles l (answers buf))] } :=
      ⟨prefix_rfl, prefix_append .., prefix_rfl⟩
    obtain ⟨hext, hregistered⟩ := ih (buf + l.registrationSize size)
      (size - l.registrationSize size) { t with
        remoteHandles := t.remoteHandles ++ [l.allgather (t.pieceHandles l (answers buf))] } hcache
    rw [Tables.registerPieces, hchunk]
    exact ⟨hstep.trans hext, hregistered⟩

end Tables

/-- A heap that is allocated and registered once. It is one of the heaps of a node, which lie next
to each other, and may be the only one. -/
structure StaticHeap where
  globalHeapBase : ℕ
  npesNode : ℕ
  mypeNode : ℕ
  mypeNode_lt : mypeNode < npesNode
  size : ℕ
  size_pos : 0 < size
  log2MemGranularity : ℕ
  log2_le : log2MemGranularity ≤ 31
  npes : ℕ
  numInitializedTransports : ℕ
  enableRailOpt : Bool

theorem nine_le_thirtyOne : 9 ≤ 31 := by decide

namespace StaticHeap

variable (s : StaticHeap)

def granules : ℕ := (s.size + 2 ^ s.log2MemGranularity - 1) / 2 ^ s.log2MemGranularity

def heapSize : ℕ := s.granules * 2 ^ s.log2MemGranularity

def heapBase : ℕ := s.globalHeapBase + s.mypeNode * s.heapSize

def layout : Layout where
  heapBase := s.heapBase
  heapSize := s.heapSize
  log2MemGranularity := s.log2MemGranularity
  log2_le := s.log2_le
  npes := s.npes
  numInitializedTransports := s.numInitializedTransports
  rail := if s.enableRailOpt then some (s.globalHeapBase, s.heapSize * s.npesNode) else none

/-- The tables after `setup_symmetric_heap`. -/
def tables (answers : ℕ → ℕ → ℕ → H) : Tables H :=
  Tables.init.registerHeapMemory s.layout answers s.heapBase s.heapSize false

variable {s} {answers : ℕ → ℕ → ℕ → H} {addr : ℕ}

theorem granules_pos : 0 < s.granules := by
  have hpos := s.size_pos
  have := Nat.two_pow_pos s.log2MemGranularity
  exact Nat.div_pos (by omega) this

theorem heap_le : s.heapBase + s.heapSize ≤ s.globalHeapBase + s.heapSize * s.npesNode := by
  have hle : (s.mypeNode + 1) * s.heapSize ≤ s.npesNode * s.heapSize :=
    Nat.mul_le_mul_right _ s.mypeNode_lt
  rw [Nat.add_one_mul, Nat.mul_comm s.npesNode] at hle
  rw [heapBase]
  omega

theorem indexed_rail (hrail : s.enableRailOpt = true) (answers : ℕ → ℕ → ℕ → H) :
    (∀ g < s.granules, (s.tables answers).Indexed s.layout g) ∧
      ∀ r ∈ (s.tables answers).registered,
        r.start + r.size = s.globalHeapBase + s.heapSize * s.npesNode := by
  have hlayout : s.layout.rail = some (s.globalHeapBase, s.heapSize * s.npesNode) := if_pos hrail
  have hpos : 0 < s.layout.adjustedMaxHandleLen := by
    have hdvd : s.layout.memGranularity ∣ 2147483648 := Nat.pow_dvd_pow 2 s.log2_le
    rw [Layout.adjustedMaxHandleLen, Nat.mul_div_cancel' hdvd]
    exact succ_pos _
  have hsize : 0 < s.heapSize := Nat.mul_pos granules_pos (Nat.two_pow_pos _)
  obtain ⟨left, hleft⟩ : ∃ left, s.layout.pieces s.heapSize = left + 1 :=
    exists_eq_add_one.mpr (Nat.div_pos (by omega) hpos)
  rw [tables, Tables.registerHeapMemory, hleft, Tables.registerPieces,
    Tables.registerHeapChunkBySize_rail hlayout]
  obtain ⟨hext, hregistered⟩ := Tables.registerPieces_rail hlayout answers left
    (s.heapBase + s.layout.registrationSize s.heapSize)
    (s.heapSize - s.layout.registrationSize s.heapSize)
    (Tables.ofRegion s.layout s.globalHeapBase (s.heapSize * s.npesNode) (answers s.heapBase)) rfl
  refine ⟨fun g hg => .mono ⟨⟨0, s.globalHeapBase, s.heapSize * s.npesNode⟩,
    ⟨s.globalHeapBase, s.heapSize * s.npesNode, answers s.heapBase⟩, ?_, rfl, rfl, rfl, rfl, ?_, ?_⟩
    hext, ?_⟩
  · refine getElem?_replicate_of_lt (hg.trans_le ?_)
    rw [heapSize, Nat.mul_right_comm, Layout.memGranularity, layout,
      Nat.mul_div_cancel _ (Nat.two_pow_pos _)]
    exact Nat.le_mul_of_pos_right _ (by have := s.mypeNode_lt; omega)
  · exact le_add_right_of_le (Nat.le_add_right ..)
  · have hle : (g + 1) * s.layout.memGranularity ≤ s.granules * s.layout.memGranularity :=
      Nat.mul_le_mul_right _ hg
    rw [Nat.add_one_mul] at hle
    have hheap : s.heapSize = s.granules * s.layout.memGranularity := rfl
    have hbase : s.layout.heapBase = s.heapBase := rfl
    have := s.heap_le
    dsimp only
    omega
  · rw [hregistered]
    exact forall_mem_singleton.mpr rfl

theorem finds (hbound : s.globalHeapBase + s.heapSize * s.npesNode < 2 ^ 64)
    (hle : s.heapBase ≤ addr) (hlt : addr < s.heapBase + s.heapSize) :
    (s.tables answers).Finds s.layout 0 addr := by
  have hgranule : s.layout.addrIdx addr < s.granules := by
    have hheap : s.heapSize = s.granules * s.layout.memGranularity := rfl
    have hbase : s.layout.heapBase = s.heapBase := rfl
    rw [Layout.addrIdx_eq]
    exact Nat.div_lt_of_lt_mul (by rw [Nat.mul_comm, ← hheap]; omega)
  cases hrail : s.enableRailOpt with
  | true =>
    obtain ⟨hindexed, hregistered⟩ := indexed_rail hrail answers
    exact (hindexed _ hgranule).finds hle hlt fun r hr => hregistered r hr ▸ hbound
  | false =>
    have hlayout : s.layout.rail = none := if_neg (hrail ▸ Bool.false_ne_true)
    have hcovers := Tables.Covers.init.registerHeapMemory hlayout answers s.granules
    rw [Nat.zero_mul, Nat.add_zero, Nat.zero_add] at hcovers
    refine (hcovers.indexed _ hgranule).finds hle hlt fun r hr => ?_
    have := hcovers.bounds r hr
    have := s.heap_le
    have hheap : s.heapSize = s.granules * s.layout.memGranularity := rfl
    have hbase : s.layout.heapBase = s.heapBase := rfl
    omega

end StaticHeap

def byAddress (addr _ _ : ℕ) : ℕ := addr

end Nvshmem.Handles
