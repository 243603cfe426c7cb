import Nvshmem.Buffers.Multisend

/-! # A put with a signal in chunks

The proxy collects the chunks of the put in three vectors. A transport without an operation of its
own writes them one after the other and then adds the signal.
-/

namespace Nvshmem.Buffers

open Handles Intervals Option List

variable {H : Type}

/-- The vectors of local descriptors, of remote descriptors and of lengths. -/
structure Writes (H : Type) where
  localDesc : List (ℕ × H)
  remoteDesc : List (ℕ × H × Option ℕ)
  nelems : List ℕ

namespace Writes

def ofOps (ops : List (Op H)) : Writes H where
  localDesc := ops.map fun op => (op.localPtr, op.localHandle)
  remoteDesc := ops.map fun op => (op.remotePtr, op.remoteHandle, op.remoteOffset)
  nelems := ops.map Op.nelems

def append (w w' : Writes H) : Writes H :=
  ⟨w.localDesc ++ w'.localDesc, w.remoteDesc ++ w'.remoteDesc, w.nelems ++ w'.nelems⟩

def push (w : Writes H) (op : Op H) : Writes H := w.append (ofOps [op])

theorem append_ofOps_nil (w : Writes H) : w.append (ofOps []) = w := by
  simp only [append, ofOps, map_nil, append_nil]

theorem push_append_ofOps (w : Writes H) (op : Op H) (ops : List (Op H)) :
    (w.push op).append (ofOps ops) = w.append (ofOps (op :: ops)) := by
  simp only [push, append, ofOps, map_cons, map_nil, append_assoc,
    singleton_append]

theorem nil_append (w : Writes H) : append ⟨[], [], []⟩ w = w := rfl

end Writes

namespace Sender

variable {x : Sender H}

/-- The loop of `process_channel_put_signal`, with the number of iterations. -/
def writeChunks (x : Sender H) (pe : ℕ) : ℕ → ℕ → ℕ → ℕ → Writes H → Option (Writes H)
  | 0, _, _, sizeRemaining, w => if sizeRemaining = 0 then some w else none
  | fuel + 1, rwritePtr, lwritePtr, sizeRemaining, w =>
    if sizeRemaining = 0 then some w
    else
      (x.getLocalMemHandle lwritePtr sizeRemaining).bind fun (localHandle, localChunkSize) =>
        (x.getRemoteMemHandle rwritePtr sizeRemaining pe).bind
          fun (remoteHandle, remoteOffset, remoteChunkSize) =>
            let chunkSize := min localChunkSize (min remoteChunkSize sizeRemaining)
            writeChunks x pe fuel (rwritePtr + chunkSize) (lwritePtr + chunkSize)
              (sizeRemaining - chunkSize)
              (w.push ⟨pe, lwritePtr, localHandle, x.unmappedPtrPeTranslate rwritePtr pe,
                remoteHandle, remoteOffset, chunkSize⟩)

/-- What `process_channel_put_signal` hands to the transport. -/
def processChannelPutSignal (x : Sender H) (pe rwriteOffset lwritePtr size : ℕ) :
    Option (Writes H) :=
  x.writeChunks pe size (x.layout.heapBase + rwriteOffset) lwritePtr size ⟨[], [], []⟩

theorem writeChunks_eq (pe fuel rptr lptr size : ℕ) (w : Writes H) :
    x.writeChunks pe fuel rptr lptr size w =
      (x.sendChunks pe fuel rptr lptr size).map fun ops => w.append (.ofOps ops) := by
  induction fuel generalizing rptr lptr size w with
  | zero =>
    rw [writeChunks, sendChunks]
    split_ifs
    · rw [Option.map_some, Writes.append_ofOps_nil]
    · rfl
  | succ fuel ih =>
    rw [writeChunks, sendChunks]
    split_ifs
    · rw [Option.map_some, Writes.append_ofOps_nil]
    · cases x.getLocalMemHandle lptr size with
      | none => rfl
      | some l =>
        cases x.getRemoteMemHandle rptr size pe with
        | none => simp only [Option.bind_some, Option.bind_none, Option.map_none]
        | some r =>
          simp only [Option.bind_some, ih, Option.map_map, Function.comp_def,
            Writes.push_append_ofOps]

end Sender

/-- The calls that `nvshmemt_put_signal` makes. -/
inductive Call
  | rma (i : ℕ)
  | fence
  | amo
  deriving DecidableEq

/-- What the functions of a transport return: `rma` by the number of the chunk, `fence` if there is
one. Zero is success. -/
structure HostOps where
  rma : ℕ → ℤ
  fence : Option ℤ
  amo : ℤ

namespace HostOps

/-- `NVSHMEMX_ERROR_INTERNAL`. -/
def errorInternal : ℤ := 7

variable (ops : HostOps) (n : ℕ)

def required : List Call :=
  (List.range n).map .rma ++ (if ops.fence.isSome then [.fence] else []) ++ [.amo]

def returned : Call → ℤ
  | .rma i => ops.rma i
  | .fence => ops.fence.getD 0
  | .amo => ops.amo

/-- The loop of `nvshmemt_put_signal`: each write sets the status. -/
def writeAll : List Call × ℤ :=
  (List.range n).foldl (fun s i => (s.1 ++ [.rma i], ops.rma i)) ([], 0)

/-- `nvshmemt_put_signal` for `n` chunks: the calls made and the status returned. -/
def putSignal : List Call × ℤ :=
  let s := match ops.fence with
    | some status => ((ops.writeAll n).1 ++ [Call.fence], status)
    | none => ops.writeAll n
  if s.2 ≠ 0 then (s.1, errorInternal)
  else (s.1 ++ [.amo], if ops.amo ≠ 0 then errorInternal else ops.amo)

/-- What the last call before the signal returned. -/
def lastStatus : ℤ :=
  ops.fence.getD (if n = 0 then 0 else ops.rma (n - 1))

/-- Success is returned only when every call was made and succeeded, and the signal is not issued
after a write that failed. -/
def Propagates : Prop :=
  ((ops.putSignal n).2 = 0 →
    ∀ c ∈ ops.required n, c ∈ (ops.putSignal n).1 ∧ ops.returned c = 0) ∧
  (.amo ∈ (ops.putSignal n).1 → ∀ i < n, ops.rma i = 0)

variable {ops n}

theorem writeAll_eq :
    ops.writeAll n = ((range n).map .rma, if n = 0 then 0 else ops.rma (n - 1)) := by
  induction n with
  | zero => rfl
  | succ n ih =>
    rw [writeAll, range_succ, foldl_append, ← writeAll, ih, map_append]
    rfl

theorem putSignal_eq : ops.putSignal n =
    if ops.lastStatus n ≠ 0 then ((ops.required n).dropLast, errorInternal)
    else (ops.required n, if ops.amo ≠ 0 then errorInternal else 0) := by
  have hamo : (if ops.amo ≠ 0 then errorInternal else ops.amo) =
      if ops.amo ≠ 0 then errorInternal else 0 := by
    split_ifs with h
    · rfl
    · exact not_not.mp h
  rw [putSignal, writeAll_eq, lastStatus, required, dropLast_concat, hamo]
  cases ops.fence with
  | none => simp only [getD_none, isSome_none, Bool.false_eq_true, if_false,
      append_nil]
  | some status => simp only [getD_some, isSome_some, if_true]

theorem amo_notMem_dropLast : Call.amo ∉ (ops.required n).dropLast := by
  rw [required, dropLast_concat]
  cases ops.fence <;> simp

theorem returned_of_mem_required (hwrites : ∀ i < n, ops.rma i = 0) (hlast : ops.lastStatus n = 0)
    (hamo : ops.amo = 0) {c : Call} (hc : c ∈ ops.required n) : ops.returned c = 0 := by
  cases c with
  | rma i =>
    refine hwrites i ?_
    rw [required] at hc
    cases hf : ops.fence <;> simp_all
  | fence =>
    rw [returned]
    cases hf : ops.fence with
    | none => rfl
    | some status => rwa [lastStatus, hf] at hlast
  | amo => exact hamo

theorem errorInternal_ne_zero : errorInternal ≠ 0 := by decide

/-- The status is overwritten by every write and by the fence: a failed write goes unnoticed unless
the last call before the signal fails as well. -/
theorem propagates_iff (ops : HostOps) (n : ℕ) :
    ops.Propagates n ↔ (∀ i < n, ops.rma i = 0) ∨ ops.lastStatus n ≠ 0 := by
  rw [Propagates, putSignal_eq]
  by_cases hlast : ops.lastStatus n ≠ 0
  · simp only [if_pos hlast]
    exact ⟨fun _ => .inr hlast, fun _ => ⟨fun h => absurd h errorInternal_ne_zero,
      fun h => absurd h amo_notMem_dropLast⟩⟩
  · rw [if_neg hlast]
    constructor
    · rintro ⟨-, h⟩
      exact .inl (h mem_concat_self)
    · rintro (hwrites | h)
      · refine ⟨fun hstatus c hc => ⟨hc, ?_⟩, fun _ => hwrites⟩
        have hamo : ops.amo = 0 := by
          by_contra hne
          exact errorInternal_ne_zero ((if_pos hne).symm.trans hstatus)
        exact returned_of_mem_required hwrites (not_not.mp hlast) hamo hc
      · exact absurd h hlast

def firstFails : HostOps := ⟨fun i => if i = 0 then errorInternal else 0, none, 0⟩

theorem not_propagates_firstFails : ¬ firstFails.Propagates 2 := by
  intro h
  exact absurd (h.2 (by decide) 0 Nat.two_pos) (by decide)

end HostOps

end Nvshmem.Buffers
