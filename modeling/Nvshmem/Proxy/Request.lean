import Mathlib

/-! # Requests on the proxy channel

A device thread describes an operation by a few 8-byte entries in a ring of `2 ^ L`
bytes. The lowest byte of every entry is left to a flag that alternates between the
laps around the ring. The entries are given here without their flags.
-/

namespace Nvshmem.Proxy

open List

def channelEntryBytes : ℕ := 8
def proxyDmaReqBytes : ℕ := 32
def proxyAmoReqBytes : ℕ := 40
def proxyInlineReqBytes : ℕ := 24
def proxyPutWithSigReqBytes : ℕ := 48

def qpDefault : BitVec 32 := 1
def qpAll : BitVec 32 := 0x7FFFFFFF
def peAll : BitVec 16 := 0x8000

/-- `nvshmemi_op_t`. -/
inductive Op where
  | put | p | putSignal | get | g | fence | amo | quiet
  | putQp | pQp | putSignalQp | getQp | gQp | fenceQp | amoQp | quietQp
deriving DecidableEq

def qpOpOffset : BitVec 8 := 100

def Op.code : Op → BitVec 8
  | .put => 1 | .p => 2 | .putSignal => 3 | .get => 4 | .g => 5 | .fence => 6 | .amo => 7
  | .quiet => 8 | .putQp => 101 | .pQp => 102 | .putSignalQp => 103 | .getQp => 104 | .gQp => 105
  | .fenceQp => 106 | .amoQp => 107 | .quietQp => 108

/-- `nvshmemi_amo_t`. -/
inductive Amo where
  | ack | inc | set | add | and | or | xor | signal | signalSet | signalAdd | endOfNonfetch
  | fetch | fetchInc | fetchAdd | fetchAnd | fetchOr | fetchXor | swap | compareSwap
deriving DecidableEq

def Amo.code : Amo → BitVec 8
  | .ack => 1 | .inc => 2 | .set => 3 | .add => 4 | .and => 5 | .or => 6 | .xor => 7
  | .signal => 8 | .signalSet => 9 | .signalAdd => 10 | .endOfNonfetch => 11 | .fetch => 12
  | .fetchInc => 13 | .fetchAdd => 14 | .fetchAnd => 15 | .fetchOr => 16 | .fetchXor => 17
  | .swap => 18 | .compareSwap => 19

/-- The operations that go through `transfer_dma`. -/
inductive DmaOp where
  | put | get | g
deriving DecidableEq

def DmaOp.op : DmaOp → Op
  | .put => .put
  | .get => .get
  | .g => .g

/-- The sizes that `convert_val_to_uint64` accepts. -/
inductive ValueSize where
  | one | two | four | eight
deriving DecidableEq

def ValueSize.bytes : ValueSize → ℕ
  | .one => 1
  | .two => 2
  | .four => 4
  | .eight => 8

/-- The arguments of `amo`. Only a compare-and-swap has a comparison operand. -/
structure AmoArgs where
  op : Amo
  size : ValueSize
  swapAdd : BitVec (8 * size.bytes)
  compare : BitVec (8 * size.bytes)
  gBufCounter : BitVec 56
  compare_eq : op ≠ .compareSwap → compare = 0
deriving DecidableEq

/-- QP handles whose request has a size that fits an `int`. -/
structure QpList where
  handles : List (BitVec 32)
  size_lt : channelEntryBytes * handles.length + channelEntryBytes < 2 ^ 31
deriving DecidableEq

/-- What a device thread can put on the channel, with the fields in the range of the format. -/
inductive Request where
  | dma (op : DmaOp) (roffset : BitVec 40) (laddr : BitVec 64) (bytes : BitVec 48)
      (pe : BitVec 16) (qp : BitVec 32)
  | inline (roffset : BitVec 40) (size : ValueSize) (value : BitVec (8 * size.bytes))
      (pe : BitVec 16) (qp : BitVec 32)
  | amo (roffset : BitVec 40) (args : AmoArgs) (pe : BitVec 16) (qp : BitVec 32)
  | putSignal (roffset : BitVec 40) (laddr : BitVec 64) (bytes : BitVec 48) (pe : BitVec 16)
      (rsigoffset : BitVec 40) (sigVal : BitVec 64) (sigOp : Amo) (qp : BitVec 32)
  | fence
  | fenceQp (pe : BitVec 16) (qps : QpList)
  | quietQp (pe : BitVec 16) (qps : QpList)
deriving DecidableEq

def qpOp (op : Op) (qp : BitVec 32) : BitVec 8 :=
  if qp ≠ qpDefault then op.code + qpOpOffset else op.code

/-- `base_request_t` with a group size of one. -/
def baseRequest (roffset : BitVec 40) (op : BitVec 8) : BitVec 64 :=
  roffset.setWidth 64 <<< 24 ||| op.setWidth 64 <<< 16 ||| 1#64 <<< 8

def transferDma (op : DmaOp) (roffset : BitVec 40) (laddr : BitVec 64) (bytes : BitVec 48)
    (pe : BitVec 16) (qp : BitVec 32) : List (BitVec 64) :=
  [baseRequest roffset (qpOp op.op qp),
    laddr &&& 0xFFFFFFFFFFFFFF00#64,
    bytes.setWidth 64 <<< 16 ||| (laddr &&& 0xFF#64) <<< 8,
    qp.setWidth 64 <<< 32 ||| pe.setWidth 64 <<< 16]

def qpEntry (qp : BitVec 32) : List (BitVec 64) :=
  if qp ≠ qpDefault then [qp.setWidth 64 <<< 32] else []

def transferInline (roffset : BitVec 40) (size : ValueSize) (value : BitVec (8 * size.bytes))
    (pe : BitVec 16) (qp : BitVec 32) : List (BitVec 64) :=
  let lvalue := value.setWidth 64
  [baseRequest roffset (if qp ≠ qpDefault then Op.pQp.code else Op.p.code),
    (lvalue &&& 0xFFFFFFFF#64) <<< 32 ||| pe.setWidth 64 <<< 16,
    lvalue &&& ~~~0xFFFFFFFF#64 ||| BitVec.ofNat 64 size.bytes <<< 16] ++ qpEntry qp

def amo (roffset : BitVec 40) (args : AmoArgs) (pe : BitVec 16) (qp : BitVec 32) :
    List (BitVec 64) :=
  let swapAdd := args.swapAdd.setWidth 64
  let compare := args.compare.setWidth 64
  [baseRequest roffset (if qp ≠ qpDefault then Op.amoQp.code else Op.amo.code),
    (swapAdd &&& 0xFFFFFFFF#64) <<< 32 ||| pe.setWidth 64 <<< 16 |||
      args.op.code.setWidth 64 <<< 8,
    swapAdd &&& ~~~0xFFFFFFFF#64 ||| BitVec.ofNat 64 args.size.bytes <<< 16 |||
      (compare &&& 0xFF#64) <<< 8,
    compare &&& ~~~0xFF#64,
    (args.gBufCounter.setWidth 64 &&& 0x00FFFFFFFFFFFFFF#64) <<< 8] ++ qpEntry qp

def putSignalNbi (roffset : BitVec 40) (laddr : BitVec 64) (bytes : BitVec 48) (pe : BitVec 16)
    (rsigoffset : BitVec 40) (sigVal : BitVec 64) (sigOp : Amo) (qp : BitVec 32) :
    List (BitVec 64) :=
  [baseRequest roffset (qpOp .putSignal qp),
    laddr &&& 0xFFFFFFFFFFFFFF00#64,
    bytes.setWidth 64 <<< 16 ||| (laddr &&& 0xFF#64) <<< 8,
    qp.setWidth 64 <<< 32 ||| pe.setWidth 64 <<< 16,
    rsigoffset.setWidth 64 <<< 24 ||| sigOp.code.setWidth 64 <<< 16 ||| (sigVal &&& 0xFF#64) <<< 8,
    sigVal &&& 0xFFFFFFFFFFFFFF00#64]

def proxyFence : List (BitVec 64) := [Op.fence.code.setWidth 64 <<< 16]

/-- `qp_sync_base_request_t`. -/
def qpSyncBase (qps : QpList) (op : Op) : BitVec 64 :=
  BitVec.ofNat 64 qps.handles.length <<< 32 ||| op.code.setWidth 64 <<< 16

/-- An entry of a QP fence has the operation at bit 16 and the PE at bit 8. -/
def fenceQpEntry (pe : BitVec 16) (qp : BitVec 32) : BitVec 64 :=
  qp.setWidth 64 <<< 32 ||| Op.fenceQp.code.setWidth 64 <<< 16 ||| pe.setWidth 64 <<< 8

def proxyFenceQp (pe : BitVec 16) (qps : QpList) : List (BitVec 64) :=
  qpSyncBase qps .fenceQp :: qps.handles.map (fenceQpEntry pe)

/-- An entry of a QP quiet has the PE at bit 16 and the operation at bit 8. -/
def qpQuietEntry (pe : BitVec 16) (qp : BitVec 32) : BitVec 64 :=
  qp.setWidth 64 <<< 32 ||| pe.setWidth 64 <<< 16 ||| Op.quietQp.code.setWidth 64 <<< 8

def proxyQpQuiet (pe : BitVec 16) (qps : QpList) : List (BitVec 64) :=
  qpSyncBase qps .quietQp :: qps.handles.map (qpQuietEntry pe)

namespace Request

def entries : Request → List (BitVec 64)
  | dma op roffset laddr bytes pe qp => transferDma op roffset laddr bytes pe qp
  | inline roffset size value pe qp => transferInline roffset size value pe qp
  | amo roffset args pe qp => Proxy.amo roffset args pe qp
  | putSignal roffset laddr bytes pe rsigoffset sigVal sigOp qp =>
    putSignalNbi roffset laddr bytes pe rsigoffset sigVal sigOp qp
  | fence => proxyFence
  | fenceQp pe qps => proxyFenceQp pe qps
  | quietQp pe qps => proxyQpQuiet pe qps

def bytes : Request → ℕ
  | dma .. => proxyDmaReqBytes
  | inline _ _ _ _ qp => proxyInlineReqBytes + if qp ≠ qpDefault then channelEntryBytes else 0
  | amo _ _ _ qp => proxyAmoReqBytes + if qp ≠ qpDefault then channelEntryBytes else 0
  | putSignal .. => proxyPutWithSigReqBytes
  | fence => channelEntryBytes
  | fenceQp _ qps | quietQp _ qps =>
    channelEntryBytes * qps.handles.length + channelEntryBytes

theorem length_qpEntry (qp : BitVec 32) :
    channelEntryBytes * (qpEntry qp).length =
      if qp ≠ qpDefault then channelEntryBytes else 0 := by
  rw [qpEntry]
  split_ifs <;> rfl

theorem bytes_eq (r : Request) : r.bytes = channelEntryBytes * r.entries.length := by
  cases r with
  | dma | putSignal | fence => rfl
  | inline roffset size value pe qp =>
    rw [entries, transferInline, length_append, Nat.mul_add, length_qpEntry]
    rfl
  | amo roffset args pe qp =>
    rw [entries, Proxy.amo, length_append, Nat.mul_add, length_qpEntry]
    rfl
  | fenceQp pe qps => rw [entries, proxyFenceQp, length_cons, length_map]; rfl
  | quietQp pe qps => rw [entries, proxyQpQuiet, length_cons, length_map]; rfl

theorem entries_ne_nil (r : Request) : r.entries ≠ [] := by
  cases r <;> exact cons_ne_nil _ _

theorem exists_first (r : Request) : ∃ payload, r.entries[0]? = some payload :=
  ⟨_, getElem?_eq_getElem (length_pos_of_ne_nil r.entries_ne_nil)⟩

theorem bytes_pos (r : Request) : 0 < r.bytes := by
  rw [bytes_eq]
  exact Nat.mul_pos (by decide) (length_pos_of_ne_nil r.entries_ne_nil)

end Request

def channelFlag (logSize idx : ℕ) : BitVec 8 := if idx >>> logSize &&& 1 = 0 then 1 else 0

def slot (logSize idx : ℕ) : ℕ := idx &&& (2 ^ logSize - 1)

def stamped (payload : BitVec 64) (flag : BitVec 8) : BitVec 64 := payload ||| flag.setWidth 64

def storeEntries (logSize : ℕ) : (ℕ → BitVec 64) → ℕ → List (BitVec 64) → ℕ → BitVec 64
  | buf, _, [] => buf
  | buf, idx, payload :: payloads =>
    storeEntries logSize
      (Function.update buf (slot logSize idx) (stamped payload (channelFlag logSize idx)))
      (idx + channelEntryBytes) payloads

end Nvshmem.Proxy
