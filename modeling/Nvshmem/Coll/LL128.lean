import Nvshmem.Memory.Stores

/-! # LL128 packets

A packet has 120 bytes of data and an 8-byte flag. Eight lanes store it, 16 bytes each; the
last of them stores 8 bytes of data and the flag. `nvshmemi_packLL128` writes the packets of
a message, and `nvshmemi_recvLL128` waits for their flags and copies the data. Both go
through the packets in the same way; the last packet may be shorter.
-/

namespace Nvshmem.LL128

open Memory (Store)

abbrev Byte := BitVec 8

def wordByte (w : BitVec 64) (i : ℕ) : Byte := w.extractLsb' (8 * i) 8

/-- A message. The counts are those for which `nvshmemi_fcollect_threadgroup` may select LL128. -/
structure Call where
  sizeofT : ℕ
  nelems : ℕ
  sizeofT_mem : sizeofT ∈ [2, 4, 8]
  accepted : 4 ≤ sizeofT ∧ nelems % 2 = 0 ∨ sizeofT = 2 ∧ nelems % 4 = 0

namespace Call

variable (c : Call)

def numDataElemsPerPacket : ℕ := 120 / c.sizeofT

def numPsyncElemsPerPacket : ℕ := 128 / c.sizeofT

def numElemsPerStore : ℕ := 16 / c.sizeofT

def numElemsPerFlag : ℕ := 8 / c.sizeofT

def remain : ℕ := c.nelems % c.numDataElemsPerPacket

def numPackets : ℕ := (c.nelems + c.numDataElemsPerPacket - 1) / c.numDataElemsPerPacket

end Call

structure Unroll (c : Call) where
  factor : ℕ
  valid : factor = 1 ∨ factor = 4 ∧ c.nelems % (factor * 4 * c.numDataElemsPerPacket) = 0

section Registers

variable (sizeofT : ℕ) (mem : ℕ → Byte)

/-- `__funnelshift_r` of two registers by whole bytes. -/
def funnelshiftR (lower upper : ℕ → Byte) (shift : ℕ) : ℕ → Byte :=
  fun j => if j + shift < 4 then lower (j + shift) else upper (j + shift - 4)

def ld (addr : ℕ) : ℕ → Byte := fun j => mem (addr + j)

def unionOf (width : ℕ) (regs : ℕ → ℕ → Byte) : ℕ → Byte := fun j => regs (j / width) (j % width)

def destRegs (union : ℕ → Byte) (llFlag llFlagMask : BitVec 64) : ℕ → Byte := fun j =>
  if j < 8 then union j else (union j &&& wordByte llFlag (j - 8)) ||| wordByte llFlagMask (j - 8)

def ldUnaligned (src i j : ℕ) : ℕ → Byte :=
  funnelshiftR (ld mem (src - src % 4 + 4 * i)) (ld mem (src - src % 4 + 4 * j)) (src % 4)

def regs4Unaligned (src : ℕ) : ℕ → ℕ → Byte
  | 0 => ldUnaligned mem src 0 1
  | 1 => ldUnaligned mem src 1 2
  | 2 => ldUnaligned mem src 2 3
  | _ => ldUnaligned mem src 4 5

/-- One step of `nvshmemi_store_128b_register`. Packets are 120 bytes apart, so that all steps have
the same alignment. -/
def store128bRegister (llFlag llFlagMask : BitVec 64) (src : ℕ) : ℕ → Byte :=
  destRegs
    (if 8 ≤ sizeofT then unionOf 8 fun i => ld mem (src + 8 * i)
    else if sizeofT = 4 then unionOf 4 fun i => ld mem (src + 4 * i)
    else unionOf 4 (regs4Unaligned mem src))
    llFlag llFlagMask

/-- `nvshmemi_store_varlen_register`. Registers that are not loaded hold arbitrary values. -/
def storeVarlenRegister (llFlag llFlagMask : BitVec 64) (src nelems : ℕ) (junk : ℕ → Byte) :
    ℕ → Byte :=
  destRegs
    (if 8 ≤ sizeofT then
      fun j => if j / 8 < nelems then ld mem (src + 8 * (j / 8)) (j % 8) else junk j
    else if sizeofT = 4 then
      fun j => if j / 4 < nelems then ld mem (src + 4 * (j / 4)) (j % 4) else junk j
    else
      fun j => if j / 4 < nelems then ldUnaligned mem src (j / 4) (j / 4 + 1) (j % 4) else junk j)
    llFlag llFlagMask

end Registers

def loop (stride psyncStride stop : ℕ) : ℕ → ℕ → ℕ → List (ℕ × ℕ)
  | 0, _, _ => []
  | fuel + 1, offset, psyncOffset =>
    if offset < stop then
      (offset, psyncOffset) ::
        loop stride psyncStride stop fuel (offset + stride) (psyncOffset + psyncStride)
    else []

namespace Call

variable (c : Call)

section Thread

variable (numWarps unroll tid : ℕ)

/-- `source_offset` and `dest_offset`. -/
def dataOffset : ℕ :=
  tid / 8 * unroll * c.numDataElemsPerPacket + tid % 8 * c.numElemsPerStore

def psyncOffset : ℕ :=
  tid / 8 * unroll * c.numPsyncElemsPerPacket + tid % 8 * c.numElemsPerStore

def fullOffsets : List (ℕ × ℕ) :=
  (loop (numWarps * (unroll * 4 * c.numDataElemsPerPacket))
    (numWarps * (unroll * 4 * c.numPsyncElemsPerPacket)) (c.nelems - c.remain) c.nelems
    (c.dataOffset unroll tid) (c.psyncOffset unroll tid)).flatMap fun o =>
      (List.range unroll).map fun k =>
        (o.1 + k * c.numDataElemsPerPacket, o.2 + k * c.numPsyncElemsPerPacket)

def psyncEnd : ℕ :=
  c.nelems - c.remain + c.nelems / c.numDataElemsPerPacket * c.numElemsPerFlag

def HasTail : Prop := unroll = 1 ∧ c.remain ≠ 0 ∧ tid < 8

instance : Decidable (c.HasTail unroll tid) := inferInstanceAs (Decidable (_ ∧ _))

def IsFlagThread : Prop := (tid + 1) % 8 = 0

instance : Decidable (IsFlagThread tid) := inferInstanceAs (Decidable (_ = _))

def llFlag (flag : BitVec 64) : BitVec 64 :=
  if IsFlagThread tid then flag else BitVec.allOnes 64

def llFlagMask (flag : BitVec 64) : BitVec 64 := if IsFlagThread tid then flag else 0

end Thread

section Pack

variable (mem : ℕ → Byte) (source : ℕ) (flag : BitVec 64) (junk : ℕ → Byte)

def fullStore (tid : ℕ) (o : ℕ × ℕ) : Store Byte where
  addr := o.2 * c.sizeofT
  len := 16
  value := store128bRegister c.sizeofT mem (llFlag tid flag) (llFlagMask tid flag)
    (source + o.1 * c.sizeofT)

def tailStore (tid : ℕ) : Store Byte where
  addr := (c.psyncEnd + c.psyncOffset 1 tid) * c.sizeofT
  len := 16
  value :=
    let src := source + (c.nelems - c.remain + c.dataOffset 1 tid) * c.sizeofT
    if c.dataOffset 1 tid + c.numElemsPerStore ≤ c.remain then
      store128bRegister c.sizeofT mem (BitVec.allOnes 64) (llFlagMask tid flag) src
    else
      storeVarlenRegister c.sizeofT mem (llFlag tid flag) (llFlagMask tid flag) src
        (if c.remain < c.dataOffset 1 tid then 0 else c.remain - c.dataOffset 1 tid)
        fun j => junk (16 * tid + j)

/-- The stores of a thread in `nvshmemi_packLL128`, relative to the start of the packets. -/
def packLL128 (numWarps unroll tid : ℕ) : List (Store Byte) :=
  (c.fullOffsets numWarps unroll tid).map (c.fullStore mem source flag tid) ++
    if c.HasTail unroll tid then [c.tailStore mem source flag junk tid] else []

end Pack

section Recv

variable (psync : ℕ → Byte) (unroll tid : ℕ)

/-- The packets that a thread loads in `nvshmemi_recvLL128`. -/
def loads : List ℕ :=
  (c.fullOffsets 1 unroll tid).map (fun o => o.2 * c.sizeofT) ++
    if c.HasTail unroll tid then [(c.psyncEnd + c.psyncOffset 1 tid) * c.sizeofT] else []

/-- `nvshmemi_ll128_load_psync` returns. -/
def FlagsArrived (flag : BitVec 64) : Prop :=
  ∀ tid < 32, IsFlagThread tid → ∀ a ∈ c.loads unroll tid, ∀ i < 8,
    psync (a + 8 + i) = wordByte flag i

def sourceCopyLen : ℕ :=
  if c.dataOffset 1 tid + c.numElemsPerStore < c.remain then 16
  else (c.remain - c.dataOffset 1 tid) * c.sizeofT

/-- The stores of a thread in `nvshmemi_recvLL128`, relative to the destination. -/
def recvLL128 : List (Store Byte) :=
  (c.fullOffsets 1 unroll tid).map (fun o =>
    ⟨o.1 * c.sizeofT, if IsFlagThread tid then 8 else 16, ld psync (o.2 * c.sizeofT)⟩) ++
  if c.HasTail unroll tid ∧ c.dataOffset 1 tid < c.remain then
    [⟨(c.nelems - c.remain + c.dataOffset 1 tid) * c.sizeofT, c.sourceCopyLen tid,
      ld psync ((c.psyncEnd + c.psyncOffset 1 tid) * c.sizeofT)⟩]
  else []

end Recv

end Call

/-- Whatever the order of the stores: every packet has the flag, the receiver returns, and it has
copied the message and nothing else. -/
def RoundTrip (c : Call) (numWarps : ℕ) (w r : Unroll c) : Prop :=
  ∀ (mem : ℕ → Byte) (source : ℕ) (flag : BitVec 64) (junk psync dest : ℕ → Byte),
    source % c.sizeofT = 0 →
    ∀ sts, sts.Perm ((List.range (32 * numWarps)).flatMap
      (c.packLL128 mem source flag junk numWarps w.factor)) →
    (∀ k < c.numPackets, ∀ i < 8,
      Memory.applyAll psync sts (128 * k + 120 + i) = wordByte flag i) ∧
    c.FlagsArrived (Memory.applyAll psync sts) r.factor flag ∧
    ∀ sts', sts'.Perm ((List.range 32).flatMap
      (c.recvLL128 (Memory.applyAll psync sts) r.factor)) →
      ∀ b, Memory.applyAll dest sts' b =
        if b < c.nelems * c.sizeofT then mem (source + b) else dest b

end Nvshmem.LL128
