import Nvshmem.Loops.Strided

/-! # Queue pairs of a PE

A PE has for every other PE a number of default RC queue pairs and those that the user created. They
stand in one array, and a handle selects one for a target: the default handle and the handle for any
queue pair take the next one in turn, a user's handle is the position of the queue pair for PE 0.
-/

namespace Nvshmem.Ibgda

open Nat

def intMax : ℕ := 2 ^ 31 - 1

/-- `NVSHMEMX_QP_DEFAULT` -/
def qpDefault : ℕ := 1

/-- `NVSHMEMX_QP_ANY` -/
def qpAny : ℕ := intMax

/-- `NVSHMEMX_QP_ALL` -/
def qpAll : ℕ := intMax

/-- `NVSHMEMX_PE_ANY` and `NVSHMEMX_PE_ALL` -/
def peAny : ℕ := 1 <<< 15

/-- What the queue pairs of a PE depend on. The number of queue pairs is an `int`. -/
structure Device where
  npes : ℕ
  mype : ℕ
  numDevicesInitialized : ℕ
  numDefaultRcPerPe : ℕ
  numUserQps : ℕ
  mype_lt : mype < npes
  numDevicesInitialized_pos : 0 < numDevicesInitialized
  numDefaultRcPerPe_pos : 0 < numDefaultRcPerPe
  numRcHandles_le : (numDefaultRcPerPe * numDevicesInitialized + numUserQps) * npes ≤ intMax

/-- `qp_group_switches` -/
abbrev Switches := ℕ → UInt8

namespace Device

variable (d : Device)

def numDefault : ℕ := d.numDefaultRcPerPe * d.numDevicesInitialized

def numRcHandles : ℕ := (d.numDefault + d.numUserQps) * d.npes

def numRcPerPe : ℕ := d.numRcHandles / d.numDevicesInitialized / d.npes

/-- The handle that `ibgda_connect_rc_only` gives out for a queue pair. -/
def handle (k : ℕ) : ℕ := (d.numDefault + k) * d.npes

def rcModulo (qpIndex : ℕ) : ℕ :=
  if qpIndex = qpAny then d.numRcPerPe * d.numDevicesInitialized
  else d.numDefaultRcPerPe * d.numDevicesInitialized

def qpSwitchGroup (qpIndex : ℕ) : ℕ := if qpIndex = qpAny then 1 else 0

/-- `ibgda_get_rc`: the position of the queue pair, and the switches after the call. -/
def getRc (switches : Switches) (pe qpIndex : ℕ) : ℕ × Switches :=
  if qpIndex = qpDefault ∨ qpIndex = qpAny then
    let group := qpSwitchGroup qpIndex
    let next := switches group + 1
    (next.toNat % d.rcModulo qpIndex * d.npes + pe, Function.update switches group next)
  else (qpIndex + pe, switches)

def Valid (qpIndex : ℕ) : Prop :=
  qpIndex = qpDefault ∨ qpIndex = qpAny ∨ ∃ k < d.numUserQps, qpIndex = d.handle k

instance (qpIndex : ℕ) : Decidable (d.Valid qpIndex) :=
  inferInstanceAs (Decidable (_ ∨ _ ∨ ∃ k < _, _))

def Selects (qpIndex qp : ℕ) : Prop :=
  if qpIndex = qpDefault ∨ qpIndex = qpAny then qp < d.rcModulo qpIndex
  else qp * d.npes = qpIndex

end Device

namespace Device

variable {d : Device} {pe pe' qp qp' qpIndex k : ℕ} {switches : Switches}

theorem npes_pos : 0 < d.npes := zero_lt_of_lt d.mype_lt

theorem numDefault_pos : 0 < d.numDefault :=
  Nat.mul_pos d.numDefaultRcPerPe_pos d.numDevicesInitialized_pos

theorem numRcPerPe_mul : d.numRcPerPe * d.numDevicesInitialized =
    d.numDefault + d.numUserQps / d.numDevicesInitialized * d.numDevicesInitialized := by
  rw [numRcPerPe, numRcHandles, Nat.div_div_eq_div_mul, Nat.mul_div_mul_right _ _ d.npes_pos,
    numDefault, Nat.mul_comm d.numDefaultRcPerPe, mul_add_div d.numDevicesInitialized_pos]
  ring

theorem rcModulo_pos : 0 < d.rcModulo qpIndex := by
  have := d.numDefault_pos
  rw [rcModulo]
  split
  · rw [numRcPerPe_mul]
    omega
  · exact this

theorem position_inj (hpe : pe < d.npes) (hpe' : pe' < d.npes)
    (h : qp * d.npes + pe = qp' * d.npes + pe') : qp = qp' ∧ pe = pe' := by
  have hmod := congrArg (· % d.npes) h
  simp only [mul_add_mod_self_right, mod_eq_of_lt hpe, mod_eq_of_lt hpe'] at hmod
  rw [hmod] at h
  exact ⟨eq_of_mul_eq_mul_right d.npes_pos (Nat.add_right_cancel h), hmod⟩

theorem handle_lt (hk : k < d.numUserQps) : d.handle k < intMax := by
  have hle := d.numRcHandles_le
  have hmul := Nat.mul_le_mul_right d.npes (show d.numDefault + k + 1 ≤
    d.numDefaultRcPerPe * d.numDevicesInitialized + d.numUserQps by rw [numDefault]; omega)
  have := d.npes_pos
  rw [Nat.add_mul] at hmul
  rw [handle]
  omega

theorem handle_ne_qpDefault (hnpes : 1 < d.npes) : d.handle k ≠ qpDefault := by
  intro h
  exact hnpes.ne' (eq_one_of_mul_eq_one_left h)

theorem handle_ne_qpAny (hk : k < d.numUserQps) : d.handle k ≠ qpAny := (handle_lt hk).ne

theorem selects_handle (hnpes : 1 < d.npes) (hk : k < d.numUserQps) :
    d.Selects (d.handle k) qp ↔ qp = d.numDefault + k := by
  rw [Selects, if_neg (not_or.mpr ⟨handle_ne_qpDefault hnpes, handle_ne_qpAny hk⟩), handle]
  exact ⟨eq_of_mul_eq_mul_right d.npes_pos, fun h => by rw [h]⟩

theorem selects_qpDefault : d.Selects qpDefault qp ↔ qp < d.numDefault := by
  rw [Selects, if_pos (.inl rfl), rcModulo, if_neg (by decide), numDefault]

theorem selects_qpAny : d.Selects qpAny qp ↔ qp < d.numRcPerPe * d.numDevicesInitialized := by
  rw [Selects, if_pos (.inr rfl), rcModulo, if_pos rfl]

theorem getRc_eq (h : d.Valid qpIndex) :
    ∃ qp, d.Selects qpIndex qp ∧ (d.getRc switches pe qpIndex).1 = qp * d.npes + pe := by
  unfold getRc Selects
  split
  · next hreserved =>
    exact ⟨_, mod_lt _ rcModulo_pos, rfl⟩
  · next hreserved =>
    obtain ⟨k, -, rfl⟩ : ∃ k < d.numUserQps, qpIndex = d.handle k := by
      unfold Valid at h
      tauto
    exact ⟨d.numDefault + k, rfl, rfl⟩

theorem getRc_handle (hnpes : 1 < d.npes) (hk : k < d.numUserQps) :
    d.getRc switches pe (d.handle k) = ((d.numDefault + k) * d.npes + pe, switches) := by
  rw [getRc, if_neg (not_or.mpr ⟨handle_ne_qpDefault hnpes, handle_ne_qpAny hk⟩), handle]

end Device

end Nvshmem.Ibgda
