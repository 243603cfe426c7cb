import Nvshmem.Bits.Field
import Nvshmem.Proxy.Request

/-! # The host's view of a request

The proxy finds the kind of a request in its first entry, waits for as many entries
as that kind has, and puts the operation together from the fields of the entries.
-/

namespace Nvshmem.Proxy

open Bits

/-- The functions that `progress_channels` dispatches to. -/
inductive Kind where
  | dma | inline | amo | fence | qpFence | qpQuiet | putSignal
deriving DecidableEq

/-- The dispatch on the operation of the first entry. The proxy exits on any other code. -/
def dispatch (op : BitVec 8) : Option Kind :=
  if op ∈ [Op.put.code, Op.putQp.code, Op.g.code, Op.gQp.code, Op.get.code, Op.getQp.code] then
    some .dma
  else if op ∈ [Op.p.code, Op.pQp.code] then some .inline
  else if op ∈ [Op.amo.code, Op.amoQp.code] then some .amo
  else if op = Op.fence.code then some .fence
  else if op = Op.fenceQp.code then some .qpFence
  else if op = Op.quietQp.code then some .qpQuiet
  else if op ∈ [Op.putSignal.code, Op.putSignalQp.code] then some .putSignal
  else none

inductive Posted where
  | rma (desc : BitVec 8) (roffset laddr size : BitVec 64) (pe : BitVec 16) (qp : BitVec 32)
  | inline (roffset lvalue : BitVec 64) (size : BitVec 16) (pe : BitVec 16) (qp : BitVec 32)
  | amo (desc : BitVec 8) (roffset : BitVec 64) (size : BitVec 16) (val cmp : BitVec 64)
      (gBufCounter : Option (BitVec 64)) (pe : BitVec 16) (qp : BitVec 32)
  | putSignal (roffset laddr size : BitVec 64) (pe : BitVec 16) (rsigOffset sigVal : BitVec 64)
      (sigOp : BitVec 8) (qp : BitVec 32)
  | fence
  | qpFence (pairs : List (BitVec 16 × BitVec 32))
  | qpQuiet (pairs : List (BitVec 16 × BitVec 32))
deriving DecidableEq

/-- A processed request: the operation, the bytes that `processed` advances by, and whether the
device is told at once. -/
@[ext]
structure Handled where
  posted : Posted
  bytes : ℕ
  forceUpdate : Bool
deriving DecidableEq

section Fields

variable (w : BitVec 64)

def flagByte : BitVec 8 := field 0 8 w
def baseOp : BitVec 8 := field 16 8 w
def qpCount : ℕ := (field 32 32 w).toNat

def roffset : BitVec 64 := (field 32 32 w).setWidth 64 <<< 8 ||| (field 24 8 w).setWidth 64

def highPart : BitVec 64 :=
  (field 32 32 w).setWidth 64 <<< 32 ||| (field 16 16 w).setWidth 64 <<< 16 |||
    (field 8 8 w).setWidth 64 <<< 8

def lowByte : BitVec 64 := (field 8 8 w).setWidth 64

def size48 : BitVec 64 := (field 32 32 w).setWidth 64 <<< 16 ||| (field 16 16 w).setWidth 64

def half16 : BitVec 16 := field 16 16 w
def word32 : BitVec 32 := field 32 32 w

end Fields

section Process

variable (w : ℕ → BitVec 64)

def hasQp : Bool := qpOpOffset ≤ baseOp (w 0)

def processChannelDma : Handled where
  posted := .rma (if qpOpOffset < baseOp (w 0) then baseOp (w 0) - qpOpOffset else baseOp (w 0))
    (roffset (w 0)) (highPart (w 1) ||| lowByte (w 2)) (size48 (w 2)) (half16 (w 3))
    (if hasQp w then word32 (w 3) else qpDefault)
  bytes := proxyDmaReqBytes
  forceUpdate := false

def processChannelInline : Handled where
  posted := .inline (roffset (w 0))
    (if half16 (w 2) = 8 then (word32 (w 1)).setWidth 64 ||| (word32 (w 2)).setWidth 64 <<< 32
      else (word32 (w 1)).setWidth 64)
    (half16 (w 2)) (half16 (w 1)) (if hasQp w then word32 (w 3) else qpDefault)
  bytes := if hasQp w then proxyInlineReqBytes + channelEntryBytes else proxyInlineReqBytes
  forceUpdate := false

def processChannelAmo : Handled where
  posted :=
    let amoOp := field 8 8 (w 1)
    .amo amoOp (roffset (w 0)) (half16 (w 2))
      ((word32 (w 1)).setWidth 64 ||| (word32 (w 2)).setWidth 64 <<< 32)
      (if amoOp = Amo.compareSwap.code then (w 3 &&& 0xFFFFFFFFFFFFFF00#64) ||| lowByte (w 2)
        else 0)
      (if Amo.endOfNonfetch.code < amoOp then some ((w 4 &&& 0xFFFFFFFFFFFFFF00#64) >>> 8)
        else none)
      (half16 (w 1)) (if hasQp w then word32 (w 5) else qpDefault)
  bytes := if hasQp w then proxyAmoReqBytes + channelEntryBytes else proxyAmoReqBytes
  forceUpdate := false

def processChannelPutSignal : Handled where
  posted := .putSignal (roffset (w 0)) (highPart (w 1) ||| lowByte (w 2)) (size48 (w 2))
    (half16 (w 3)) (roffset (w 4)) (highPart (w 5) ||| lowByte (w 4)) (field 16 8 (w 4))
    (if hasQp w then word32 (w 3) else qpDefault)
  bytes := proxyPutWithSigReqBytes
  forceUpdate := false

def processChannelFence : Handled where
  posted := .fence
  bytes := channelEntryBytes
  forceUpdate := false

def qpPairs : List (BitVec 16 × BitVec 32) :=
  (List.range (qpCount (w 0))).map fun i => (half16 (w (i + 1)), word32 (w (i + 1)))

def processChannelQpFence : Handled where
  posted := .qpFence (qpPairs w)
  bytes := channelEntryBytes * qpCount (w 0) + channelEntryBytes
  forceUpdate := false

def processChannelQpQuiet : Handled where
  posted := .qpQuiet (qpPairs w)
  bytes := channelEntryBytes * qpCount (w 0) + channelEntryBytes
  forceUpdate := true

def process : Kind → Handled
  | .dma => processChannelDma w
  | .inline => processChannelInline w
  | .amo => processChannelAmo w
  | .fence => processChannelFence
  | .qpFence => processChannelQpFence w
  | .qpQuiet => processChannelQpQuiet w
  | .putSignal => processChannelPutSignal w

end Process

def awaited (base : BitVec 64) : Kind → ℕ
  | .dma => 4
  | .inline => if qpOpOffset ≤ baseOp base then 4 else 3
  | .amo => if qpOpOffset ≤ baseOp base then 6 else 5
  | .fence => 1
  | .qpFence | .qpQuiet => qpCount base + 1
  | .putSignal => 6

end Nvshmem.Proxy
