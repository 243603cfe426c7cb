import Nvshmem.Proxy.Decode

/-! # The request format

What the proxy puts together from the entries of a request is what the device was
asked for, whatever the flags of the entries are. The QP fence is the exception: its
entries have the PE where the proxy reads nothing and the operation where it reads
the PE.
-/

namespace Nvshmem.Proxy

open Bits List Option Nat Request

section Words

variable {offset : BitVec 40} {op flag : BitVec 8} {pe : BitVec 16} {qp : BitVec 32}
  {laddr x : BitVec 64} {bytes : BitVec 48} {size : ValueSize}

theorem setWidth_eq_place {k : ℕ} (v : BitVec k) : v.setWidth 64 = place 64 0 v := by
  rw [place, BitVec.shiftLeft_zero]

theorem and_low8 : x &&& 0xFF#64 = place 64 0 (field 0 8 x) := and_lowMask (b := 8) x
theorem and_low32 : x &&& 0xFFFFFFFF#64 = place 64 0 (field 0 32 x) := and_lowMask (b := 32) x
theorem and_low56 : x &&& 0x00FFFFFFFFFFFFFF#64 = place 64 0 (field 0 56 x) :=
  and_lowMask (b := 56) x
theorem and_high56 : x &&& 0xFFFFFFFFFFFFFF00#64 = place 64 8 (field 8 56 x) :=
  and_not_lowMask (b := 8) x
theorem and_high32 : x &&& 0xFFFFFFFF00000000#64 = place 64 32 (field 32 32 x) :=
  and_not_lowMask (b := 32) x

theorem one_shiftLeft_eq : 1#64 <<< 8 = place 64 8 1#8 := rfl

theorem bytes_eq_place : BitVec.ofNat 64 size.bytes = place 64 0 (BitVec.ofNat 16 size.bytes) := by
  cases size <;> rfl

theorem join_offset : place 64 8 (field 8 32 offset) ||| place 64 0 (field 0 8 offset) =
    place 64 0 offset := by
  rw [place_field_or_place_field 0 0 8 32, field_self]

theorem join_size : place 64 16 (field 16 32 bytes) ||| place 64 0 (field 0 16 bytes) =
    place 64 0 bytes := by
  rw [place_field_or_place_field 0 0 16 32, field_self]

theorem join_halves {m : ℕ} (v : BitVec m) (h : m ≤ 64) :
    place 64 0 (field 0 32 v) ||| place 64 32 (field 32 32 v) = place 64 0 v := by
  rw [BitVec.or_comm, place_field_or_place_field 0 0 32 32, place_field_of_le v h]

theorem join_high {m : ℕ} (v : BitVec m) (h : m ≤ 64) :
    place 64 8 (field 8 56 v) ||| place 64 0 (field 0 8 v) = place 64 0 v := by
  rw [place_field_or_place_field 0 0 8 56, place_field_of_le v h]

theorem join_address : place 64 32 (field 32 32 x) ||| place 64 16 (field 16 16 x) |||
    place 64 8 (field 8 8 x) ||| place 64 0 (field 0 8 x) = x := by
  rw [BitVec.or_assoc, place_field_or_place_field 0 0 8 8, BitVec.or_assoc,
    place_field_or_place_field 0 0 16 16, place_field_or_place_field 0 0 32 32, field_self,
    place_self]

theorem baseOp_baseRequest : baseOp (stamped (baseRequest offset op) flag) = op := by
  simp [baseOp, stamped, baseRequest, setWidth_eq_place, one_shiftLeft_eq]

theorem roffset_baseRequest :
    roffset (stamped (baseRequest offset op) flag) = offset.setWidth 64 := by
  simp [roffset, stamped, baseRequest, setWidth_eq_place, one_shiftLeft_eq, join_offset]

theorem address_of_entries {flag' : BitVec 8} :
    highPart (stamped (laddr &&& 0xFFFFFFFFFFFFFF00#64) flag) |||
      lowByte (stamped (bytes.setWidth 64 <<< 16 ||| (laddr &&& 0xFF#64) <<< 8) flag') = laddr := by
  simp [highPart, lowByte, stamped, setWidth_eq_place, and_high56, and_low8, field_field,
    join_address]

theorem size48_of_entry : size48 (stamped (bytes.setWidth 64 <<< 16 ||| (laddr &&& 0xFF#64) <<< 8)
    flag) = bytes.setWidth 64 := by
  simp [size48, stamped, setWidth_eq_place, and_low8, join_size]

theorem half16_of_entry : half16 (stamped (qp.setWidth 64 <<< 32 ||| pe.setWidth 64 <<< 16) flag) =
    pe := by
  simp [half16, stamped, setWidth_eq_place]

theorem word32_of_entry : word32 (stamped (qp.setWidth 64 <<< 32 ||| pe.setWidth 64 <<< 16) flag) =
    qp := by
  simp [word32, stamped, setWidth_eq_place]

theorem bits_le_64 (size : ValueSize) : 8 * size.bytes ≤ 64 := by cases size <;> decide

theorem join_value (value : BitVec (8 * size.bytes)) :
    (if BitVec.ofNat 16 size.bytes = 8 then
      (field 0 32 value).setWidth 64 ||| (field 32 32 value).setWidth 64 <<< 32
      else (field 0 32 value).setWidth 64) = value.setWidth 64 := by
  simp only [setWidth_eq_place, place_shiftLeft, Nat.zero_add, join_halves value (bits_le_64 size)]
  cases size with
  | eight => exact if_pos rfl
  | one | two | four =>
    exact place_field_of_le value (by decide)

end Words

def Request.kind : Request → Kind
  | dma .. => .dma
  | inline .. => .inline
  | amo .. => .amo
  | putSignal .. => .putSignal
  | fence => .fence
  | fenceQp .. => .qpFence
  | quietQp .. => .qpQuiet

def Request.supplied : Request → Posted
  | dma op roffset laddr bytes pe qp =>
    .rma op.op.code (roffset.setWidth 64) laddr (bytes.setWidth 64) pe qp
  | inline roffset size value pe qp =>
    .inline (roffset.setWidth 64) (value.setWidth 64) (BitVec.ofNat 16 size.bytes) pe qp
  | amo roffset args pe qp =>
    .amo args.op.code (roffset.setWidth 64) (BitVec.ofNat 16 args.size.bytes)
      (args.swapAdd.setWidth 64) (args.compare.setWidth 64)
      (if Amo.endOfNonfetch.code < args.op.code then some (args.gBufCounter.setWidth 64) else none)
      pe qp
  | putSignal roffset laddr bytes pe rsigoffset sigVal sigOp qp =>
    .putSignal (roffset.setWidth 64) laddr (bytes.setWidth 64) pe (rsigoffset.setWidth 64) sigVal
      sigOp.code qp
  | fence => .fence
  | fenceQp pe qps => .qpFence (qps.handles.map fun qp => (pe, qp))
  | quietQp pe qps => .qpQuiet (qps.handles.map fun qp => (pe, qp))

def Reads (w : ℕ → BitVec 64) (r : Request) (flags : ℕ → BitVec 8) : Prop :=
  ∀ k payload, r.entries[k]? = some payload → w k = stamped payload (flags k)

section Process

variable {w : ℕ → BitVec 64} {r : Request} {flags : ℕ → BitVec 8} {qp : BitVec 32}
  {offset : BitVec 40} {pe : BitVec 16}

theorem qpOp_default (op : Op) : qpOp op qpDefault = op.code := rfl

theorem qpOp_of_ne (op : Op) (h : qp ≠ qpDefault) : qpOp op qp = op.code + qpOpOffset := if_pos h

theorem hasQp_of_baseOp {op : Op} (h0 : baseOp (w 0) = qpOp op qp)
    (hop : op.code + qpOpOffset ≥ qpOpOffset ∧ op.code < qpOpOffset) :
    hasQp w = decide (qp ≠ qpDefault) := by
  rw [hasQp, h0]
  by_cases hqp : qp = qpDefault
  · subst hqp
    rw [qpOp_default, decide_eq_false (BitVec.not_le.mpr hop.2)]
    rfl
  · rw [qpOp_of_ne op hqp, decide_eq_true hop.1, decide_eq_true hqp]

theorem le_baseOp_iff (hqp : hasQp w = decide (qp ≠ qpDefault)) :
    qpOpOffset ≤ baseOp (w 0) ↔ qp ≠ qpDefault := by
  rw [← decide_eq_decide]
  exact hqp

theorem selected_qp : (if decide (qp ≠ qpDefault) then qp else qpDefault) = qp := by
  by_cases hdef : qp = qpDefault
  · rw [decide_eq_false (not_not.mpr hdef), if_neg Bool.false_ne_true, hdef]
  · rw [decide_eq_true hdef, if_pos rfl]

theorem qp_of_entry {k : ℕ} (hqp : hasQp w = decide (qp ≠ qpDefault))
    (hk : qp ≠ qpDefault → w k = stamped (qp.setWidth 64 <<< 32) (flags k)) :
    (if hasQp w then word32 (w k) else qpDefault) = qp := by
  have hword (hdef : qp ≠ qpDefault) : word32 (w k) = qp := by
    rw [hk hdef]
    simp [word32, stamped, setWidth_eq_place]
  rw [hqp]
  split_ifs with hdef
  · exact hword (of_decide_eq_true hdef)
  · exact (not_not.mp fun h => hdef (decide_eq_true h)).symm

theorem processChannelDma_eq {op : DmaOp} {laddr : BitVec 64} {bytes : BitVec 48}
    (hw : Reads w (.dma op offset laddr bytes pe qp) flags) :
    dispatch (baseOp (w 0)) = some .dma ∧
      (processChannelDma w).posted = (dma op offset laddr bytes pe qp).supplied := by
  have h0 := hw 0 _ rfl
  have h1 := hw 1 _ rfl
  have h2 := hw 2 _ rfl
  have h3 := hw 3 _ rfl
  have hop : baseOp (w 0) = qpOp op.op qp := by rw [h0, baseOp_baseRequest]
  have hqp : hasQp w = decide (qp ≠ qpDefault) := by
    apply hasQp_of_baseOp hop
    cases op <;> decide
  constructor
  · rw [hop, qpOp]
    split_ifs <;> cases op <;> rfl
  · rw [processChannelDma, supplied, hop, hqp, h0, h1, h2, h3, roffset_baseRequest,
      address_of_entries, size48_of_entry, half16_of_entry, word32_of_entry, selected_qp, qpOp]
    split_ifs <;> cases op <;> first | rfl | contradiction

theorem processChannelInline_eq {size : ValueSize} {value : BitVec (8 * size.bytes)}
    (hw : Reads w (.inline offset size value pe qp) flags) :
    dispatch (baseOp (w 0)) = some .inline ∧ hasQp w = decide (qp ≠ qpDefault) ∧
      (processChannelInline w).posted = (inline offset size value pe qp).supplied := by
  have h0 := hw 0 _ rfl
  have h1 := hw 1 _ rfl
  have h2 := hw 2 _ rfl
  have hop : baseOp (w 0) = qpOp .p qp := by
    rw [h0, baseOp_baseRequest]
    rfl
  have hqp : hasQp w = decide (qp ≠ qpDefault) := hasQp_of_baseOp hop (by decide)
  have hroff : roffset (w 0) = offset.setWidth 64 := by rw [h0, roffset_baseRequest]
  have hlow : word32 (w 1) = field 0 32 value := by
    rw [h1]
    simp [word32, stamped, setWidth_eq_place, and_low32]
  have hpe : half16 (w 1) = pe := by
    rw [h1]
    simp [half16, stamped, setWidth_eq_place, and_low32]
  have hhigh : word32 (w 2) = field 32 32 value := by
    rw [h2]
    simp [word32, stamped, setWidth_eq_place, and_high32, bytes_eq_place]
  have hsize : half16 (w 2) = BitVec.ofNat 16 size.bytes := by
    rw [h2]
    simp [half16, stamped, setWidth_eq_place, and_high32, bytes_eq_place]
  refine ⟨?_, hqp, ?_⟩
  · rw [hop, qpOp]
    split_ifs <;> rfl
  · have hlast : qp ≠ qpDefault → w 3 = stamped (qp.setWidth 64 <<< 32) (flags 3) := fun hdef =>
      hw 3 _ (by simp [entries, transferInline, qpEntry, hdef])
    rw [processChannelInline, supplied, hroff, hlow, hpe, hhigh, hsize, join_value,
      qp_of_entry hqp hlast]

theorem processChannelAmo_eq {args : AmoArgs} (hw : Reads w (.amo offset args pe qp) flags) :
    dispatch (baseOp (w 0)) = some .amo ∧ hasQp w = decide (qp ≠ qpDefault) ∧
      (processChannelAmo w).posted = (Request.amo offset args pe qp).supplied := by
  have h0 := hw 0 _ rfl
  have h1 := hw 1 _ rfl
  have h2 := hw 2 _ rfl
  have h3 := hw 3 _ rfl
  have h4 := hw 4 _ rfl
  have hop : baseOp (w 0) = qpOp .amo qp := by
    rw [h0, baseOp_baseRequest]
    rfl
  have hqp : hasQp w = decide (qp ≠ qpDefault) := hasQp_of_baseOp hop (by decide)
  have hroff : roffset (w 0) = offset.setWidth 64 := by rw [h0, roffset_baseRequest]
  have hpe : half16 (w 1) = pe := by
    rw [h1]
    simp [half16, stamped, setWidth_eq_place, and_low32]
  have hamo : field 8 8 (w 1) = args.op.code := by
    rw [h1]
    simp [stamped, setWidth_eq_place, and_low32]
  have hsize : half16 (w 2) = BitVec.ofNat 16 args.size.bytes := by
    rw [h2]
    simp [half16, stamped, setWidth_eq_place, and_high32, and_low8, bytes_eq_place]
  have hval : (word32 (w 1)).setWidth 64 ||| (word32 (w 2)).setWidth 64 <<< 32 =
      args.swapAdd.setWidth 64 := by
    rw [h1, h2]
    simp [word32, stamped, setWidth_eq_place, and_low32, and_high32, and_low8, bytes_eq_place,
      join_halves, bits_le_64]
  have hcmp : w 3 &&& 0xFFFFFFFFFFFFFF00#64 ||| lowByte (w 2) = args.compare.setWidth 64 := by
    rw [h2, h3]
    simp [lowByte, stamped, setWidth_eq_place, and_high32, and_high56, and_low8, bytes_eq_place,
      join_high, bits_le_64]
  have hctr : (w 4 &&& 0xFFFFFFFFFFFFFF00#64) >>> 8 = args.gBufCounter.setWidth 64 := by
    rw [h4]
    simp [stamped, setWidth_eq_place, and_high56, and_low56, ushiftRight_eq]
  have hlast : qp ≠ qpDefault → w 5 = stamped (qp.setWidth 64 <<< 32) (flags 5) := fun hdef =>
    hw 5 _ (by simp [entries, amo, qpEntry, hdef])
  refine ⟨?_, hqp, ?_⟩
  · rw [hop, qpOp]
    split_ifs <;> rfl
  · have hcompare : (if args.op.code = Amo.compareSwap.code then args.compare.setWidth 64 else 0) =
        args.compare.setWidth 64 := by
      by_cases hcas : args.op = .compareSwap
      · rw [hcas, if_pos rfl]
      · rw [args.compare_eq hcas, BitVec.ofNat_eq_ofNat, BitVec.setWidth_zero]
        exact ite_self _
    simp only [processChannelAmo, supplied, hroff, hpe, hamo, hsize, hval, hcmp, hctr,
      hcompare, qp_of_entry hqp hlast]

theorem processChannelPutSignal_eq {rsigoffset : BitVec 40} {laddr sigVal : BitVec 64}
    {bytes : BitVec 48} {sigOp : Amo}
    (hw : Reads w (.putSignal offset laddr bytes pe rsigoffset sigVal sigOp qp) flags) :
    dispatch (baseOp (w 0)) = some .putSignal ∧ (processChannelPutSignal w).posted =
      (putSignal offset laddr bytes pe rsigoffset sigVal sigOp qp).supplied := by
  have h0 := hw 0 _ rfl
  have h1 := hw 1 _ rfl
  have h2 := hw 2 _ rfl
  have h3 := hw 3 _ rfl
  have h4 := hw 4 _ rfl
  have h5 := hw 5 _ rfl
  have hop : baseOp (w 0) = qpOp .putSignal qp := by rw [h0, baseOp_baseRequest]
  have hqp : hasQp w = decide (qp ≠ qpDefault) := hasQp_of_baseOp hop (by decide)
  have hsigoff : roffset (w 4) = rsigoffset.setWidth 64 := by
    rw [h4]
    simp [roffset, stamped, setWidth_eq_place, and_low8, join_offset]
  have hsigop : field 16 8 (w 4) = sigOp.code := by
    rw [h4]
    simp [stamped, setWidth_eq_place, and_low8]
  have hsigval : highPart (w 5) ||| lowByte (w 4) = sigVal := by
    rw [h4, h5]
    simp [highPart, lowByte, stamped, setWidth_eq_place, and_high56, and_low8, field_field,
      join_address]
  constructor
  · rw [hop, qpOp]
    split_ifs <;> rfl
  · rw [processChannelPutSignal, supplied, hsigoff, hsigop, hsigval, hqp, h0, h1, h2, h3,
      roffset_baseRequest, address_of_entries, size48_of_entry, half16_of_entry, word32_of_entry,
      selected_qp]

section QpSync

variable {qps : QpList} {op : Op} {pe : BitVec 16}

theorem QpList.length_lt (qps : QpList) : qps.handles.length < 2 ^ 32 := by
  have hsize := qps.size_lt
  rw [channelEntryBytes] at hsize
  omega

theorem length_eq_place (qps : QpList) :
    BitVec.ofNat 64 qps.handles.length = place 64 0 (BitVec.ofNat 32 qps.handles.length) := by
  rw [place, BitVec.shiftLeft_zero, BitVec.setWidth_ofNat_of_le_of_lt (by decide) qps.length_lt]

theorem baseOp_qpSyncBase {flag : BitVec 8} :
    baseOp (stamped (qpSyncBase qps op) flag) = op.code := by
  simp [baseOp, stamped, qpSyncBase, setWidth_eq_place, length_eq_place]

theorem qpCount_qpSyncBase {flag : BitVec 8} :
    qpCount (stamped (qpSyncBase qps op) flag) = qps.handles.length := by
  have hfield : field 32 32 (stamped (qpSyncBase qps op) flag) =
      BitVec.ofNat 32 qps.handles.length := by
    simp [stamped, qpSyncBase, setWidth_eq_place, length_eq_place]
  rw [qpCount, hfield, BitVec.toNat_ofNat, mod_eq_of_lt qps.length_lt]

theorem qpPairs_eq {entry : BitVec 32 → BitVec 64} {decoded : BitVec 32 → BitVec 16 × BitVec 32}
    (h0 : w 0 = stamped (qpSyncBase qps op) (flags 0))
    (hw : ∀ i payload, (qps.handles.map entry)[i]? = some payload →
      w (i + 1) = stamped payload (flags (i + 1)))
    (hentry : ∀ qp flag, (half16 (stamped (entry qp) flag), word32 (stamped (entry qp) flag)) =
      decoded qp) :
    qpPairs w = qps.handles.map decoded := by
  rw [qpPairs, h0, qpCount_qpSyncBase]
  apply ext_getElem (by rw [length_map, length_map, length_range])
  intro i hi hi'
  rw [length_map] at hi'
  rw [getElem_map, getElem_map, getElem_range, ← hentry _ (flags (i + 1)),
    hw i (entry qps.handles[i]) (by rw [getElem?_map, getElem?_eq_getElem hi']; rfl)]

theorem qpPairs_quietQp (hw : Reads w (.quietQp pe qps) flags) :
    qpPairs w = qps.handles.map fun qp => (pe, qp) := by
  apply qpPairs_eq (hw 0 _ rfl) (fun i payload hi => hw (i + 1) payload hi)
  intro qp flag
  simp [half16, word32, stamped, qpQuietEntry, setWidth_eq_place]

def fenceQpPe (pe : BitVec 16) : BitVec 16 := Op.fenceQp.code.setWidth 16 ||| pe >>> 8

theorem qpPairs_fenceQp (hw : Reads w (.fenceQp pe qps) flags) :
    qpPairs w = qps.handles.map fun qp => (fenceQpPe pe, qp) := by
  apply qpPairs_eq (hw 0 _ rfl) (fun i payload hi => hw (i + 1) payload hi)
  intro qp flag
  have hpe : field 8 16 pe = pe >>> 8 := by
    apply BitVec.eq_of_getLsbD_eq
    intro i hi
    rw [getLsbD_field, decide_eq_true hi, Bool.true_and, BitVec.getLsbD_ushiftRight]
  have hop : field 0 16 Op.fenceQp.code = Op.fenceQp.code.setWidth 16 := by decide
  simp [half16, word32, stamped, fenceQpEntry, fenceQpPe, setWidth_eq_place, hpe, hop]

end QpSync

def Request.decoded : Request → Posted
  | fenceQp pe qps => .qpFence (qps.handles.map fun qp => (fenceQpPe pe, qp))
  | r => r.supplied

theorem decoded_eq_supplied (hr : r.kind ≠ .qpFence) : r.decoded = r.supplied := by
  cases r with
  | fenceQp => exact absurd rfl hr
  | _ => rfl

theorem process_eq (hw : Reads w r flags) :
    dispatch (baseOp (w 0)) = some r.kind ∧ awaited (w 0) r.kind = r.entries.length ∧
      process w r.kind = ⟨r.decoded, r.bytes, decide (r.kind = .qpQuiet)⟩ := by
  cases r with
  | dma op offset laddr bytes pe qp =>
    obtain ⟨hkind, hposted⟩ := processChannelDma_eq hw
    exact ⟨hkind, rfl, Handled.ext hposted rfl rfl⟩
  | inline offset size value pe qp =>
    obtain ⟨hkind, hqp, hposted⟩ := processChannelInline_eq hw
    refine ⟨hkind, ?_, Handled.ext hposted ?_ rfl⟩
    · simp only [kind, awaited, le_baseOp_iff hqp, entries, transferInline, qpEntry]
      split_ifs <;> rfl
    · simp only [kind, process, processChannelInline, hqp, decide_eq_true_iff,
        bytes]
      split_ifs <;> rfl
  | amo offset args pe qp =>
    obtain ⟨hkind, hqp, hposted⟩ := processChannelAmo_eq hw
    refine ⟨hkind, ?_, Handled.ext hposted ?_ rfl⟩
    · simp only [kind, awaited, le_baseOp_iff hqp, entries, amo, qpEntry]
      split_ifs <;> rfl
    · simp only [kind, process, processChannelAmo, hqp, decide_eq_true_iff, bytes]
      split_ifs <;> rfl
  | putSignal offset laddr bytes pe rsigoffset sigVal sigOp qp =>
    obtain ⟨hkind, hposted⟩ := processChannelPutSignal_eq hw
    exact ⟨hkind, rfl, Handled.ext hposted rfl rfl⟩
  | fence =>
    have h0 := hw 0 _ rfl
    have hop : baseOp (w 0) = Op.fence.code := by
      rw [h0]
      simp [baseOp, stamped, setWidth_eq_place]
    rw [hop]
    exact ⟨rfl, rfl, rfl⟩
  | fenceQp pe qps =>
    have hop : baseOp (w 0) = Op.fenceQp.code := by rw [hw 0 _ rfl, baseOp_qpSyncBase]
    have hcount : qpCount (w 0) = qps.handles.length := by rw [hw 0 _ rfl, qpCount_qpSyncBase]
    refine ⟨by rw [hop]; rfl, ?_, ?_⟩
    · rw [kind, awaited, hcount, entries, proxyFenceQp, length_cons,
        length_map]
    · rw [kind, process, processChannelQpFence, qpPairs_fenceQp hw, hcount]
      rfl
  | quietQp pe qps =>
    have hop : baseOp (w 0) = Op.quietQp.code := by rw [hw 0 _ rfl, baseOp_qpSyncBase]
    have hcount : qpCount (w 0) = qps.handles.length := by rw [hw 0 _ rfl, qpCount_qpSyncBase]
    refine ⟨by rw [hop]; rfl, ?_, ?_⟩
    · rw [kind, awaited, hcount, entries, proxyQpQuiet, length_cons,
        length_map]
    · rw [kind, process, processChannelQpQuiet, qpPairs_quietQp hw, hcount]
      rfl

theorem dispatch_first {payload : BitVec 64} (flag : BitVec 8) (h : r.entries[0]? = some payload) :
    dispatch (baseOp (stamped payload flag)) = some r.kind ∧
      awaited (stamped payload flag) r.kind = r.entries.length := by
  have hreads : Reads (fun k => stamped (r.entries[k]?.getD 0) flag) r fun _ => flag := by
    intro k p hk
    dsimp only
    rw [hk, getD_some]
  obtain ⟨hdispatch, hawaited, -⟩ := process_eq hreads
  rw [h] at hdispatch hawaited
  exact ⟨hdispatch, hawaited⟩

end Process

section Stored

variable {logSize idx : ℕ} {buf : ℕ → BitVec 64}

theorem field_qpEntry {qp : BitVec 32} : ∀ payload ∈ qpEntry qp, field 0 8 payload = 0 := by
  rw [qpEntry]
  split_ifs <;> simp [setWidth_eq_place]

theorem field_flag (r : Request) : ∀ payload ∈ r.entries, field 0 8 payload = 0 := by
  cases r with
  | dma op offset laddr bytes pe qp =>
    simp [entries, transferDma, baseRequest, setWidth_eq_place, one_shiftLeft_eq,
      and_high56, and_low8]
  | inline offset size value pe qp =>
    rw [entries, transferInline, forall_mem_append]
    constructor
    · simp [baseRequest, setWidth_eq_place, one_shiftLeft_eq, and_low32, and_high32,
        bytes_eq_place]
    · exact field_qpEntry
  | amo offset args pe qp =>
    rw [entries, amo, forall_mem_append]
    constructor
    · simp [baseRequest, setWidth_eq_place, one_shiftLeft_eq, and_low8, and_low32, and_low56,
        and_high32, and_high56, bytes_eq_place]
    · exact field_qpEntry
  | putSignal offset laddr bytes pe rsigoffset sigVal sigOp qp =>
    simp [entries, putSignalNbi, baseRequest, setWidth_eq_place, one_shiftLeft_eq,
      and_high56, and_low8]
  | fence => simp [entries, proxyFence, setWidth_eq_place]
  | fenceQp pe qps =>
    simp [entries, proxyFenceQp, qpSyncBase, fenceQpEntry, setWidth_eq_place,
      length_eq_place]
  | quietQp pe qps =>
    simp [entries, proxyQpQuiet, qpSyncBase, qpQuietEntry, setWidth_eq_place,
      length_eq_place]

theorem flagByte_stamped {payload : BitVec 64} {flag : BitVec 8} (h : field 0 8 payload = 0) :
    flagByte (stamped payload flag) = flag := by
  simp [flagByte, stamped, setWidth_eq_place, h]

theorem slot_eq_mod : slot logSize idx = idx % 2 ^ logSize := and_two_pow_sub_one_eq_mod ..

theorem slot_add_ne {d : ℕ} (hpos : 0 < d) (hlt : d < 2 ^ logSize) :
    slot logSize (idx + d) ≠ slot logSize idx := by
  intro h
  rw [slot_eq_mod, slot_eq_mod] at h
  have hd : d ≡ 0 [MOD 2 ^ logSize] := Nat.ModEq.add_left_cancel' idx h
  exact (le_of_dvd hpos ((modEq_zero_iff_dvd).mp hd)).not_gt hlt

theorem position_succ (k : ℕ) :
    idx + channelEntryBytes * (k + 1) = idx + channelEntryBytes + channelEntryBytes * k := by
  rw [mul_succ, Nat.add_comm (channelEntryBytes * k), Nat.add_assoc]

theorem storeEntries_of_ne {s : ℕ} :
    ∀ (payloads : List (BitVec 64)) (buf : ℕ → BitVec 64) (idx : ℕ),
      (∀ k < payloads.length, slot logSize (idx + channelEntryBytes * k) ≠ s) →
        storeEntries logSize buf idx payloads s = buf s
  | [], _, _, _ => rfl
  | payload :: payloads, buf, idx, h => by
    have hfirst : s ≠ slot logSize idx := (h 0 (succ_pos _)).symm
    rw [storeEntries, storeEntries_of_ne payloads, Function.update_of_ne hfirst]
    intro k hk
    rw [← position_succ]
    exact h (k + 1) (succ_lt_succ hk)

theorem storeEntries_slot {payload : BitVec 64} :
    ∀ (payloads : List (BitVec 64)) (buf : ℕ → BitVec 64) (idx k : ℕ),
      channelEntryBytes * payloads.length ≤ 2 ^ logSize → payloads[k]? = some payload →
        storeEntries logSize buf idx payloads (slot logSize (idx + channelEntryBytes * k)) =
          stamped payload (channelFlag logSize (idx + channelEntryBytes * k))
  | [], _, _, _, _, hk => by simp at hk
  | first :: payloads, buf, idx, 0, hsize, hk => by
    obtain rfl : first = payload := some.inj hk
    rw [storeEntries, storeEntries_of_ne payloads, Nat.mul_zero, Nat.add_zero,
      Function.update_self]
    intro k hk
    rw [← position_succ]
    apply slot_add_ne (Nat.mul_pos (by decide) (succ_pos k))
    exact (Nat.mul_lt_mul_of_pos_left (succ_lt_succ hk) (by decide)).trans_le hsize
  | first :: payloads, buf, idx, k + 1, hsize, hk => by
    rw [position_succ]
    apply storeEntries_slot payloads _ _ k _ hk
    exact (Nat.mul_le_mul_left _ (le_succ _)).trans hsize

def stored (logSize : ℕ) (buf : ℕ → BitVec 64) (entry : ℕ) (r : Request) (k : ℕ) : BitVec 64 :=
  storeEntries logSize buf (channelEntryBytes * entry) r.entries
    (slot logSize (channelEntryBytes * entry + channelEntryBytes * k))

theorem reads_stored {entry : ℕ} {r : Request} (hsize : r.bytes ≤ 2 ^ logSize) :
    Reads (stored logSize buf entry r) r fun k =>
      channelFlag logSize (channelEntryBytes * entry + channelEntryBytes * k) := by
  intro k payload hk
  exact storeEntries_slot r.entries buf _ k (r.bytes_eq ▸ hsize) hk

/-- At every position of the ring, the proxy finds all entries of a request ready, makes of them
what the device was asked for, and advances by the bytes that the device reserved. -/
theorem process_stored (logSize entry : ℕ) (buf : ℕ → BitVec 64) (r : Request)
    (hkind : r.kind ≠ .qpFence) (hsize : r.bytes ≤ 2 ^ logSize) :
    (∀ k < r.entries.length, flagByte (stored logSize buf entry r k) =
      channelFlag logSize (channelEntryBytes * entry + channelEntryBytes * k)) ∧
    dispatch (baseOp (stored logSize buf entry r 0)) = some r.kind ∧
    awaited (stored logSize buf entry r 0) r.kind = r.entries.length ∧
    (process (stored logSize buf entry r) r.kind).posted = r.supplied ∧
    (process (stored logSize buf entry r) r.kind).bytes = r.bytes := by
  have hreads : Reads (stored logSize buf entry r) r _ := reads_stored hsize
  obtain ⟨hdispatch, hawaited, hprocess⟩ := process_eq hreads
  refine ⟨?_, hdispatch, hawaited, ?_, ?_⟩
  · intro k hk
    rw [hreads k _ (getElem?_eq_getElem hk)]
    exact flagByte_stamped (field_flag r _ (getElem_mem hk))
  · rw [hprocess, decoded_eq_supplied hkind]
  · rw [hprocess]

def compareSwapQp : Request :=
  .amo 0x123456789A ⟨.compareSwap, .eight, 0x1122334455667788, 0x99AABBCCDDEEFF00, 0xABCDEF,
    fun h => absurd rfl h⟩ 3 7

theorem process_stored_compareSwapQp :
    (process (stored 6 (fun _ => 0) 6 compareSwapQp) .amo).posted =
      .amo Amo.compareSwap.code 0x123456789A 8 0x1122334455667788 0x99AABBCCDDEEFF00
        (some 0xABCDEF) 3 7 ∧
    (process (stored 6 (fun _ => 0) 6 compareSwapQp) .amo).bytes = 48 :=
  (process_stored 6 6 (fun _ => 0) compareSwapQp (by decide) (by decide)).2.2.2

end Stored

end Nvshmem.Proxy
