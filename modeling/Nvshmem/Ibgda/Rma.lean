import Nvshmem.Ibgda.PutSignal

/-! # Transfers on a queue pair of the user

The first warp of a group selects the queue pair, counts the chunks that the registrations cut the
transfer into, and posts one of them per lane. If there are more chunks than lanes, its first thread
makes the transfer alone and selects a queue pair anew.
-/

namespace Nvshmem.Ibgda

open List Function

/-- A put or get of a warp or block towards another PE through `ibgda_rma`, with the handle of a
queue pair that the user created. -/
structure Rma where
  dev : Device
  pe : ℕ
  userQp : ℕ
  lptr : ℕ
  rptr : ℕ
  bytes : ℕ
  isGet : Bool
  nbi : Bool
  maySkipCst : Bool
  /-- The device of the queue pair at a position. -/
  devIdx : ℕ → ℕ
  /-- What is left of the registration with a device at a local address. -/
  lchunkSize : ℕ → ℕ → ℕ
  /-- What is left of the registration with a device at a remote address. -/
  rchunkSize : ℕ → ℕ → ℕ
  pe_lt : pe < dev.npes
  pe_ne : pe ≠ dev.mype
  userQp_lt : userQp < dev.numUserQps
  lchunkSize_pos : ∀ d addr, 0 < lchunkSize d addr
  rchunkSize_pos : ∀ d addr, 0 < rchunkSize d addr

namespace Rma

inductive Wqe where
  | rdma (laddr raddr size : ℕ)
  | dump
deriving DecidableEq

variable (c : Rma)

def needImmediateCst : Bool := !c.nbi && (c.isGet && !c.maySkipCst)

def extraWqe : List Wqe := if c.needImmediateCst then [.dump] else []

def chunks (d : ℕ) : ℕ → ℕ → ℕ → ℕ → List Wqe
  | 0, _, _, _ => []
  | fuel + 1, lptr, rptr, remaining =>
    if 0 < remaining then
      let size := calTransferSize (c.lchunkSize d) (c.rchunkSize d) remaining lptr rptr
      .rdma lptr rptr size :: chunks d fuel (lptr + size) (rptr + size) (remaining - size)
    else []

def allChunks (qp : ℕ) : List Wqe := c.chunks (c.devIdx qp) c.bytes c.lptr c.rptr c.bytes

/-- `ibgda_rma_thread` of one thread: what it posts, and on which queue pair. -/
def rmaThread (switches : Switches) (qpIndex : ℕ) : List (ℕ × Wqe) :=
  let qp := (c.dev.getRc switches c.pe qpIndex).1
  ((c.allChunks qp).flatMap fun w => w :: c.extraWqe).map (qp, ·)

/-- `ibgda_rma`, where the delegation leaves out the handle. -/
def rma (switches : Switches) : List (ℕ × Wqe) :=
  let next := c.dev.getRc switches c.pe (c.dev.handle c.userQp)
  if c.bytes = 0 then []
  else if 32 < (c.allChunks next.1).length then c.rmaThread next.2 qpDefault
  else (c.allChunks next.1 ++ c.extraWqe).map (next.1, ·)

def chosen : ℕ := (c.dev.numDefault + c.userQp) * c.dev.npes + c.pe

def OnChosen (switches : Switches) : Prop := ∀ w ∈ c.rma switches, w.1 = c.chosen

def nextCut (x : ℕ) : ℕ :=
  let d := c.devIdx c.chosen
  x + min maxTransferSize (min (c.rchunkSize d (c.rptr + x)) (c.lchunkSize d (c.lptr + x)))

def Few : Prop := c.bytes ≤ c.nextCut^[32] 0


variable {c}

theorem length_chunks_le {fuel n x remaining : ℕ} (h : remaining ≤ fuel) :
    (c.chunks (c.devIdx c.chosen) fuel (c.lptr + x) (c.rptr + x) remaining).length ≤ n ↔
      x + remaining ≤ c.nextCut^[n] x := by
  have hle : ∀ n x, x ≤ c.nextCut^[n] x :=
    id_le_iterate_of_id_le fun x => Nat.le_add_right x _
  induction fuel generalizing n x remaining with
  | zero =>
    obtain rfl : remaining = 0 := by omega
    exact iff_of_true (Nat.zero_le n) (hle n x)
  | succ fuel ih =>
    rcases Nat.eq_zero_or_pos remaining with rfl | hpos
    · exact iff_of_true (Nat.zero_le n) (hle n x)
    rw [chunks, if_pos hpos, length_cons]
    cases n with
    | zero =>
      rw [iterate_zero_apply]
      omega
    | succ n =>
      rw [Nat.succ_le_succ_iff, iterate_succ_apply, Nat.add_assoc, Nat.add_assoc]
      have hl := c.lchunkSize_pos (c.devIdx c.chosen) (c.lptr + x)
      have hr := c.rchunkSize_pos (c.devIdx c.chosen) (c.rptr + x)
      have hmax : 0 < maxTransferSize := by decide
      have hlt : x < c.nextCut x := by
        rw [nextCut]
        omega
      have hcut : calTransferSize (c.lchunkSize (c.devIdx c.chosen))
          (c.rchunkSize (c.devIdx c.chosen)) remaining (c.lptr + x) (c.rptr + x) =
          min remaining (c.nextCut x - x) := by
        rw [calTransferSize, nextCut]
        omega
      have hfuel : remaining - min remaining (c.nextCut x - x) ≤ fuel := by omega
      rw [hcut]
      refine (ih hfuel).trans ?_
      rcases Nat.le_total remaining (c.nextCut x - x) with hrem | hrem
      · have := hle n (c.nextCut x)
        rw [Nat.min_eq_left hrem, Nat.sub_self]
        exact iff_of_true (hle n (x + remaining)) (by omega)
      · have hsum : c.nextCut x + (remaining - (c.nextCut x - x)) = x + remaining := by omega
        rw [Nat.min_eq_right hrem, Nat.add_sub_cancel' hlt.le, hsum]

theorem allChunks_ne_nil {qp : ℕ} (h : c.bytes ≠ 0) : c.allChunks qp ≠ [] := by
  obtain ⟨n, hn⟩ := Nat.exists_eq_succ_of_ne_zero h
  rw [allChunks, hn, chunks, if_pos (Nat.succ_pos n)]
  exact cons_ne_nil _ _

def bytewise (bytes : ℕ) : Rma where
  dev := acrossRegistrations.dev
  pe := 1
  userQp := 0
  lptr := 0
  rptr := 0
  bytes := bytes
  isGet := false
  nbi := true
  maySkipCst := true
  devIdx _ := 0
  lchunkSize _ _ := 1
  rchunkSize _ _ := 1
  pe_lt := by decide
  pe_ne := by decide
  userQp_lt := by decide
  lchunkSize_pos _ _ := Nat.one_pos
  rchunkSize_pos _ _ := Nat.one_pos

end Rma

end Nvshmem.Ibgda
