import Nvshmem.Proxy.Transport

/-! # Addresses on a rail proxy

The heaps of the PEs of a node lie next to each other, so that a PE reaches all of them
through the PE of the node that has its own rank. An access is posted to that PE, in
chunks that end where a memory handle ends or the transport takes no more. The macro that
computes the address of a chunk also replaces the PE that it has been given.
-/

namespace Nvshmem.Proxy

open Option List Nat

/-- What the host knows of the heaps, the memory handles and the transports. The handle of a granule
is its start and its size, and offsets count from the start of the heap. -/
structure Rail extends Job where
  heapBase : ℕ
  heapSize : ℕ
  heapSize_pos : 0 < heapSize
  /-- The heaps of a node fit the address space. -/
  heaps_le : npesNode * heapSize ≤ 2 ^ 64
  remotePeBase : ℕ → BitVec 64
  log2MemGranularity : ℕ
  mmapAllocatedRange : ℕ
  idxInHandles : ℕ → ℕ × ℕ
  idxInMmapHandles : ℕ → ℕ × ℕ
  /-- The bytes that are left in the registered buffer of an address outside the heap. -/
  registeredBuffer : ℕ → Option ℕ
  /-- `max_op_len` of the transport of a PE. -/
  maxOpLen : ℕ → ℕ
  maxOpLen_pos : ∀ pe, 0 < maxOpLen pe

structure Chunk where
  pe : ℕ
  ptr : BitVec 64
  laddr : ℕ
  nelems : ℕ
deriving DecidableEq

namespace Rail

variable (rail : Rail)

/-- `NVSHMEMU_UNMAPPED_PTR_PE_TRANSLATE`: the address, and the PE that replaces the argument. -/
def unmappedPtrPeTranslate (roffset pe : ℕ) : BitVec 64 × ℕ :=
  if rail.railOpt then
    let proxyPe := pe / rail.npesNode * rail.npesNode + rail.mypeNode
    (rail.remotePeBase proxyPe +
      BitVec.ofInt 64 ((pe % rail.npesNode : ℕ) - (rail.mypeNode : ℤ)) *
        BitVec.ofNat 64 rail.heapSize + BitVec.ofNat 64 roffset, proxyPe)
  else (rail.remotePeBase pe + BitVec.ofNat 64 roffset, pe)

def handle (offset : ℕ) : ℕ × ℕ :=
  if rail.heapSize - rail.mmapAllocatedRange ≤ offset then
    rail.idxInMmapHandles (offset >>> rail.log2MemGranularity)
  else rail.idxInHandles (offset >>> rail.log2MemGranularity)

/-- The length that `get_transport_mem_handle` returns for an offset in the heap. -/
def handleLen (offset : ℕ) : ℕ := (rail.handle offset).2 - (offset - (rail.handle offset).1)

/-- The length of `nvshmemi_get_local_mem_handle` before `max_op_len`. -/
def localLen (addr size : ℕ) : Option ℕ :=
  if rail.heapBase ≤ addr ∧ addr ≤ rail.heapBase + rail.heapSize then
    some (rail.handleLen (addr - rail.heapBase))
  else (rail.registeredBuffer addr).map (min size)

def chunkSize (maxLen len roffset size : ℕ) : ℕ :=
  min (min len maxLen) (min (min (rail.handleLen roffset) maxLen) size)

/-- The chunks of an access, and the PE as the loop leaves it. The length that the transport allows
may depend on the PE. -/
def sendChunks (maxLen : ℕ → ℕ) : ℕ → ℕ → ℕ → ℕ → ℕ → Option (List Chunk × ℕ)
  | 0, pe, _, _, _ => some ([], pe)
  | fuel + 1, pe, roffset, laddr, size =>
    if size = 0 then some ([], pe)
    else
      let target := rail.unmappedPtrPeTranslate roffset pe
      (rail.localLen laddr size).bind fun len =>
        let chunkSize := rail.chunkSize (maxLen target.2) len roffset size
        (sendChunks maxLen fuel target.2 (roffset + chunkSize) (laddr + chunkSize)
          (size - chunkSize)).map fun rest =>
            (⟨target.2, target.1, laddr, chunkSize⟩ :: rest.1, rest.2)

end Rail

/-- An access of a PE to the heap of another. Every byte has a handle on both sides. -/
structure Access (rail : Rail) where
  pe : ℕ
  roffset : ℕ
  laddr : ℕ
  size : ℕ
  pe_lt : pe < rail.npes
  roffset_le : roffset + size ≤ rail.heapSize
  remote : ∀ k < size, 0 < rail.handleLen (roffset + k)
  registered : ∀ k < size, ∀ n > 0, ∃ len > 0, rail.localLen (laddr + k) n = some len

/-- What `process_channel_put_signal` hands to the transport. -/
structure PutSignal where
  pe : ℕ
  writes : List Chunk
  sigPtr : BitVec 64
deriving DecidableEq

namespace Access

variable {rail : Rail} (access : Access rail)

/-- `nvshmemi_process_multisend_rma`. Its transport is that of the original PE. -/
def processMultisendRma : Option (List Chunk) :=
  (rail.sendChunks (fun _ => rail.maxOpLen access.pe) access.size access.pe access.roffset
    access.laddr access.size).map Prod.fst

/-- `process_channel_put_signal` after the request has been read. -/
def processPutSignal (rsigOffset : ℕ) : Option PutSignal :=
  (rail.sendChunks rail.maxOpLen access.size access.pe access.roffset access.laddr
    access.size).map fun sent =>
      let target := rail.unmappedPtrPeTranslate rsigOffset sent.2
      ⟨target.2, sent.1.map ({ · with pe := target.2 }), target.1⟩

end Access

/-- Where the byte of a PE's heap lies for who posts to the PE that stands in for it. -/
def Rail.location (rail : Rail) (pe roffset : ℕ) : BitVec 64 :=
  rail.remotePeBase (rail.translate pe) +
    BitVec.ofInt 64 ((pe % rail.npesNode : ℕ) - (rail.translate pe % rail.npesNode : ℕ)) *
      BitVec.ofNat 64 rail.heapSize + BitVec.ofNat 64 roffset

/-- A chunk goes to the PE that stands in for the target, and there to the location of its bytes in
the heap of the target. -/
def Access.Reaches {rail : Rail} (access : Access rail) (chunk : Chunk) : Prop :=
  chunk.pe = rail.translate access.pe ∧
    chunk.ptr = rail.location access.pe (access.roffset + (chunk.laddr - access.laddr))

instance {rail : Rail} (access : Access rail) (chunk : Chunk) : Decidable (access.Reaches chunk) :=
  inferInstanceAs (Decidable (_ ∧ _))

namespace Rail

variable {rail : Rail} {pe roffset laddr size : ℕ}

theorem translate_div (h : rail.railOpt = true) :
    rail.translate pe / rail.npesNode = pe / rail.npesNode := by
  have hpos : 0 < rail.npesNode := zero_lt_of_lt rail.mypeNode_lt
  rw [Job.translate, if_pos h, Nat.add_comm, add_mul_div_right _ _ hpos,
    div_eq_of_lt rail.mypeNode_lt, Nat.zero_add]

theorem translate_mod (h : rail.railOpt = true) :
    rail.translate pe % rail.npesNode = rail.mypeNode := by
  rw [Job.translate, if_pos h, Nat.add_comm, add_mul_mod_self_right,
    mod_eq_of_lt rail.mypeNode_lt]

theorem translate_translate : rail.translate (rail.translate pe) = rail.translate pe := by
  by_cases h : rail.railOpt = true
  · rw [Job.translate, if_pos h, translate_div h, Job.translate, if_pos h]
  · rw [Job.translate, if_neg h]

theorem translate_eq_self_iff :
    rail.translate pe = pe ↔ rail.railOpt = false ∨ pe % rail.npesNode = rail.mypeNode := by
  by_cases h : rail.railOpt = true
  · constructor
    · intro heq
      rw [← heq, translate_mod h]
      exact .inr rfl
    · rintro (hoff | hrank)
      · rw [hoff] at h
        exact absurd h Bool.false_ne_true
      · rw [Job.translate, if_pos h, ← hrank, Nat.mul_comm, div_add_mod]
  · rw [Job.translate]
    simp [h]

theorem unmappedPtrPeTranslate_snd :
    (rail.unmappedPtrPeTranslate roffset pe).2 = rail.translate pe := by
  unfold unmappedPtrPeTranslate Job.translate
  split_ifs <;> rfl

theorem unmappedPtrPeTranslate_fst :
    (rail.unmappedPtrPeTranslate roffset pe).1 = rail.location pe roffset := by
  unfold unmappedPtrPeTranslate location
  by_cases h : rail.railOpt = true
  · rw [if_pos h, translate_mod h, Job.translate, if_pos h]
  · rw [if_neg h, Job.translate, if_neg h]
    simp

theorem ofInt_mul_ofNat_ne_zero {d : ℤ} {size : ℕ} (hd : d ≠ 0) (hsize : 0 < size)
    (hlt : |d| * size < 2 ^ 64) : BitVec.ofInt 64 d * BitVec.ofNat 64 size ≠ 0 := by
  rw [← BitVec.ofInt_natCast, ← BitVec.ofInt_mul]
  intro heq
  have hmod : (d * size) % ((2 ^ 64 : ℕ) : ℤ) = 0 := by
    have hzero : ((d * size) % ((2 ^ 64 : ℕ) : ℤ)).toNat = 0 := by
      rw [← BitVec.toNat_ofInt, heq]
      rfl
    omega
  have hne : d * size ≠ 0 := mul_ne_zero hd (by omega)
  have hle := Int.le_of_dvd (abs_pos.mpr hne) ((dvd_abs _ _).mpr (Int.dvd_of_emod_eq_zero hmod))
  rw [abs_mul, abs_cast] at hle
  exact absurd hlt (not_lt.mpr hle)

theorem location_translate_ne (h : rail.translate pe ≠ pe) :
    rail.location (rail.translate pe) roffset ≠ rail.location pe roffset := by
  rw [Ne, translate_eq_self_iff, not_or, Bool.not_eq_false] at h
  obtain ⟨hrail, hrank⟩ := h
  intro heq
  unfold location at heq
  rw [translate_translate, sub_self, translate_mod hrail, add_left_inj, add_right_inj] at heq
  have hlt := mod_lt pe (zero_lt_of_lt rail.mypeNode_lt)
  have hlt' := rail.mypeNode_lt
  refine ofInt_mul_ofNat_ne_zero (by omega) rail.heapSize_pos ?_ (heq.symm.trans ?_)
  · have hd : |((pe % rail.npesNode : ℕ) - (rail.mypeNode : ℤ))| < (rail.npesNode : ℤ) := by
      rw [abs_lt]
      omega
    calc |((pe % rail.npesNode : ℕ) - (rail.mypeNode : ℤ))| * rail.heapSize
        < rail.npesNode * rail.heapSize :=
          mul_lt_mul_of_pos_right hd (by exact_mod_cast rail.heapSize_pos)
      _ ≤ 2 ^ 64 := by exact_mod_cast rail.heaps_le
  · exact BitVec.zero_mul

end Rail

inductive Chunked (rail : Rail) : ℕ → ℕ → ℕ → ℕ → List Chunk → Prop where
  | nil {pe roffset laddr : ℕ} : Chunked rail pe roffset laddr 0 []
  | cons {pe roffset laddr size n : ℕ} {chunks : List Chunk} : 0 < n →
      Chunked rail (rail.translate pe) (roffset + n) (laddr + n) size chunks →
      Chunked rail pe roffset laddr (n + size)
        (⟨rail.translate pe, rail.location pe roffset, laddr, n⟩ :: chunks)

section Chunks

variable {rail : Rail} {pe roffset laddr size : ℕ} {chunks : List Chunk}

theorem Rail.chunkSize_pos {maxLen len : ℕ} (hmax : 0 < maxLen) (hlen : 0 < len)
    (hremote : 0 < rail.handleLen roffset) (hsize : 0 < size) :
    0 < rail.chunkSize maxLen len roffset size := by
  unfold chunkSize
  simp only [lt_min_iff]
  exact ⟨⟨hlen, hmax⟩, ⟨hremote, hmax⟩, hsize⟩

theorem Rail.chunkSize_le {maxLen len : ℕ} : rail.chunkSize maxLen len roffset size ≤ size :=
  (min_le_right _ _).trans (min_le_right _ _)

theorem Rail.sendChunks_eq {maxLen : ℕ → ℕ} (hmax : ∀ pe, 0 < maxLen pe)
    (hremote : ∀ k < size, 0 < rail.handleLen (roffset + k))
    (hlocal : ∀ k < size, ∀ n > 0, ∃ len > 0, rail.localLen (laddr + k) n = some len)
    {fuel : ℕ} (hfuel : size ≤ fuel) :
    ∃ chunks, Chunked rail pe roffset laddr size chunks ∧
      (∀ chunk ∈ chunks.head?, ∀ len ∈ rail.localLen laddr size,
        chunk.nelems = rail.chunkSize (maxLen (rail.translate pe)) len roffset size) ∧
      rail.sendChunks maxLen fuel pe roffset laddr size =
        some (chunks, if size = 0 then pe else rail.translate pe) := by
  induction fuel generalizing pe roffset laddr size with
  | zero =>
    obtain rfl := le_zero.mp hfuel
    exact ⟨[], .nil, by simp, rfl⟩
  | succ fuel ih =>
    by_cases h0 : size = 0
    · subst h0
      exact ⟨[], .nil, by simp, rfl⟩
    · have hpos := Nat.pos_of_ne_zero h0
      obtain ⟨len, hlen, heq⟩ := hlocal 0 hpos size hpos
      rw [Nat.add_zero] at heq
      have hn := chunkSize_pos (hmax (rail.translate pe)) hlen (hremote 0 hpos) hpos
      have hle := @chunkSize_le rail roffset size (maxLen (rail.translate pe)) len
      generalize hchunk : rail.chunkSize (maxLen (rail.translate pe)) len roffset size = n at hn hle
      obtain ⟨rest, hrest, -, hsend⟩ := @ih (rail.translate pe) (roffset + n) (laddr + n) (size - n)
        (fun k hk => by rw [Nat.add_assoc]; exact hremote (n + k) (by omega))
        (fun k hk => by rw [Nat.add_assoc]; exact hlocal (n + k) (by omega)) (by omega)
      refine ⟨⟨rail.translate pe, rail.location pe roffset, laddr, n⟩ :: rest, ?_, ?_, ?_⟩
      · have hcons := Chunked.cons hn hrest
        rwa [Nat.add_sub_cancel' hle] at hcons
      · simp [heq, hchunk]
      · rw [sendChunks, heq, bind_some]
        simp only [unmappedPtrPeTranslate_snd, unmappedPtrPeTranslate_fst, hchunk, hsend,
          map_some, translate_translate, ite_self, if_neg h0]

theorem Chunked.pe_eq (h : Chunked rail pe roffset laddr size chunks) :
    ∀ chunk ∈ chunks, chunk.pe = rail.translate pe := by
  induction h with
  | nil => exact fun chunk h => absurd h not_mem_nil
  | cons _ _ ih =>
    intro chunk h
    rcases mem_cons.mp h with rfl | h
    · rfl
    · exact (ih chunk h).trans Rail.translate_translate

theorem Chunked.ptr_eq (h : Chunked rail pe roffset laddr size chunks)
    (hpe : rail.translate pe = pe) : ∀ chunk ∈ chunks, laddr ≤ chunk.laddr ∧
      chunk.ptr = rail.location pe (roffset + (chunk.laddr - laddr)) := by
  induction h with
  | nil => exact fun chunk h => absurd h not_mem_nil
  | cons hn _ ih =>
    intro chunk h
    rcases mem_cons.mp h with rfl | h
    · simp
    · rw [hpe] at ih
      obtain ⟨hle, heq⟩ := ih hpe chunk h
      refine ⟨by omega, heq.trans ?_⟩
      congr 1
      omega

theorem Chunked.sum_nelems (h : Chunked rail pe roffset laddr size chunks) :
    (chunks.map Chunk.nelems).sum = size := by
  induction h with
  | nil => rfl
  | cons _ _ ih => rw [map_cons, sum_cons, ih]

theorem Chunked.reaches_iff {access : Access rail}
    (h : Chunked rail access.pe access.roffset access.laddr access.size chunks) :
    (∀ chunk ∈ chunks, access.Reaches chunk) ↔ rail.translate access.pe = access.pe ∨
      ∀ chunk ∈ chunks.head?, access.size ≤ chunk.nelems := by
  by_cases hpe : rail.translate access.pe = access.pe
  · refine iff_of_true (fun chunk hc => ?_) (.inl hpe)
    exact ⟨h.pe_eq chunk hc, (h.ptr_eq hpe chunk hc).2⟩
  · generalize hsize : access.size = size at h ⊢
    cases h with
    | nil => simp
    | @cons _ _ _ rest n chunks hn hrest =>
      simp only [forall_mem_cons, head?_cons, mem_some_iff, forall_eq', hpe,
        false_or]
      have hfirst : access.Reaches
          ⟨rail.translate access.pe, rail.location access.pe access.roffset, access.laddr, n⟩ := by
        simp [Access.Reaches]
      rw [iff_true_intro hfirst, true_and]
      cases hrest with
      | nil => simp
      | @cons _ _ _ rest m chunks hm hrest =>
        refine iff_of_false (fun hall => ?_) (by omega)
        have hbad := (hall _ mem_cons_self).2
        rw [Nat.add_sub_cancel_left] at hbad
        exact Rail.location_translate_ne hpe hbad

end Chunks

namespace Access

variable {rail : Rail} (access : Access rail)

def OnOwnRail : Prop := rail.railOpt = false ∨ access.pe % rail.npesNode = rail.mypeNode

def FitsFirstChunk : Prop :=
  access.size ≤ rail.maxOpLen access.pe ∧ access.size ≤ rail.handleLen access.roffset ∧
    ∀ len ∈ rail.localLen access.laddr access.size, access.size ≤ len

theorem head_le_iff {chunks : List Chunk}
    (hchunks : Chunked rail access.pe access.roffset access.laddr access.size chunks)
    (hhead : ∀ chunk ∈ chunks.head?, ∀ len ∈ rail.localLen access.laddr access.size,
      chunk.nelems = rail.chunkSize (rail.maxOpLen access.pe) len access.roffset access.size) :
    (∀ chunk ∈ chunks.head?, access.size ≤ chunk.nelems) ↔ access.FitsFirstChunk := by
  unfold FitsFirstChunk
  by_cases h0 : access.size = 0
  · simp [h0]
  · obtain ⟨len, -, hlen⟩ := access.registered 0 (by omega) access.size (by omega)
    rw [Nat.add_zero] at hlen
    obtain ⟨chunk, hchunk⟩ : ∃ chunk, chunks.head? = some chunk := by
      generalize hsize : access.size = size at hchunks
      cases hchunks with
      | nil => exact absurd hsize h0
      | cons => exact ⟨_, rfl⟩
    have hn := hhead chunk hchunk len hlen
    simp only [hchunk, hlen, mem_some_iff, forall_eq', hn]
    unfold Rail.chunkSize
    simp only [le_min_iff, le_refl]
    tauto

/-- Without rails, for a target of the caller's own rank, and for an access of one chunk, all bytes
reach their place. A put with a signal puts the signal where it belongs only in the first two cases
and when it has no bytes to write. -/
theorem reaches_target (rsigOffset : ℕ) :
    (∃ chunks, access.processMultisendRma = some chunks ∧
      (chunks.map Chunk.nelems).sum = access.size ∧
      ((∀ chunk ∈ chunks, access.Reaches chunk) ↔ access.OnOwnRail ∨ access.FitsFirstChunk)) ∧
    ∃ put, access.processPutSignal rsigOffset = some put ∧
      (put.writes.map Chunk.nelems).sum = access.size ∧
      ((∀ chunk ∈ put.writes, access.Reaches chunk) ∧ put.pe = rail.translate access.pe ∧
        put.sigPtr = rail.location access.pe rsigOffset ↔ access.OnOwnRail ∨ access.size = 0) := by
  constructor
  · obtain ⟨chunks, hchunks, hhead, hsend⟩ := @Rail.sendChunks_eq rail access.pe _ _ _ _
      (fun _ => rail.maxOpLen_pos access.pe) access.remote access.registered _ le_rfl
    refine ⟨chunks, ?_, hchunks.sum_nelems, ?_⟩
    · rw [processMultisendRma, hsend, map_some]
    · rw [hchunks.reaches_iff, Rail.translate_eq_self_iff]
      exact or_congr_right (access.head_le_iff hchunks hhead)
  · obtain ⟨chunks, hchunks, -, hsend⟩ := @Rail.sendChunks_eq rail access.pe _ _ _ _
      rail.maxOpLen_pos access.remote access.registered _ le_rfl
    have hput : access.processPutSignal rsigOffset = some ⟨rail.translate access.pe,
        chunks.map ({ · with pe := rail.translate access.pe }),
        rail.location (if access.size = 0 then access.pe else rail.translate access.pe)
          rsigOffset⟩ := by
      rw [processPutSignal, hsend, map_some]
      simp only [Rail.unmappedPtrPeTranslate_snd, Rail.unmappedPtrPeTranslate_fst, apply_ite
        rail.translate, Rail.translate_translate, ite_self]
    have hwrites : chunks.map ({ · with pe := rail.translate access.pe }) = chunks := by
      refine (map_congr_left fun chunk hc => ?_).trans (map_id chunks)
      rw [← hchunks.pe_eq chunk hc, id]
    refine ⟨_, hput, ?_, ?_⟩
    · rw [hwrites]
      exact hchunks.sum_nelems
    · rw [hwrites, hchunks.reaches_iff, OnOwnRail, ← Rail.translate_eq_self_iff]
      by_cases hpe : rail.translate access.pe = access.pe
      · simp [hpe]
      · simp only [hpe, false_or, true_and]
        constructor
        · rintro ⟨-, hsig⟩
          by_contra h0
          rw [if_neg h0] at hsig
          exact Rail.location_translate_ne hpe hsig
        · intro h0
          rw [if_pos h0]
          exact ⟨fun chunk _ => h0 ▸ Nat.zero_le _, rfl⟩

end Access

def twoNodes : Rail where
  toJob := .twoByTwo
  heapBase := 4096
  heapSize := 32
  heapSize_pos := by decide
  heaps_le := by decide
  remotePeBase pe := BitVec.ofNat 64 (1000 * pe)
  log2MemGranularity := 5
  mmapAllocatedRange := 0
  idxInHandles _ := (0, 32)
  idxInMmapHandles _ := (0, 0)
  registeredBuffer _ := none
  maxOpLen _ := 8
  maxOpLen_pos _ := by decide

def sixteenBytes : Access twoNodes where
  pe := 3
  roffset := 0
  laddr := 4096
  size := 16
  pe_lt := by decide
  roffset_le := by decide
  remote := by decide
  registered k hk n hn := by
    refine ⟨32 - k, by omega, ?_⟩
    interval_cases k <;> rfl

theorem not_reaches_sixteenBytes :
    sixteenBytes.processMultisendRma = some [⟨2, 2032, 4096, 8⟩, ⟨2, 2008, 4104, 8⟩] ∧
      ¬ sixteenBytes.Reaches ⟨2, 2008, 4104, 8⟩ ∧
      sixteenBytes.processPutSignal 24 =
        some ⟨2, [⟨2, 2032, 4096, 8⟩, ⟨2, 2008, 4104, 8⟩], 2024⟩ ∧
      twoNodes.location sixteenBytes.pe 24 = 2056 := by
  decide +kernel

end Nvshmem.Proxy
