import Nvshmem.Coll.Allreduce
import Nvshmem.Radix.Flip

/-! # Neighbours and scratch space of the allreduces

With radix 2 the neighbour of a PE in a phase has the other binary digit, so the phases combine
the sources of all PEs. Within a call every packet has a place of its own, and calls in different
halves of the scratch space share no place.
-/

namespace Nvshmem.Allreduce

open Nat Call Radix

open Combine (combine)

namespace Call

variable {c : Call} {x y z x' y' : ℕ → Byte} {e b : ℕ}

theorem lt_nbytes_iff : b < c.nbytes ↔ b / c.sizeofT < c.nreduce :=
  (Nat.div_lt_iff_lt_mul c.sizeofT_pos).symm

theorem elem_index_div (i : Fin c.sizeofT) : (e * c.sizeofT + i) / c.sizeofT = e := by
  rw [Nat.mul_comm, mul_add_div c.sizeofT_pos, div_eq_of_lt i.isLt, Nat.add_zero]

theorem elem_linearReduce : c.elem (c.linearReduce x y) e = c.op (c.elem x e) (c.elem y e) := by
  funext i
  have hmod : (e * c.sizeofT + i) % c.sizeofT = i := by
    rw [Nat.mul_comm, mul_add_mod, mod_eq_of_lt i.isLt]
  simp only [elem, linearReduce, elem_index_div, hmod]

theorem linearReduce_assoc :
    c.linearReduce (c.linearReduce x y) z = c.linearReduce x (c.linearReduce y z) := by
  funext b
  rw [linearReduce, linearReduce, elem_linearReduce, elem_linearReduce, c.op_assoc]

theorem linearReduce_comm : c.linearReduce x y = c.linearReduce y x := by
  funext b
  rw [linearReduce, linearReduce, c.op_comm]

theorem linearReduce_congr
    (hx : ∀ b', b' / c.sizeofT = b / c.sizeofT → x b' = x' b')
    (hy : ∀ b', b' / c.sizeofT = b / c.sizeofT → y b' = y' b') :
    c.linearReduce x y b = c.linearReduce x' y' b := by
  have hex : c.elem x (b / c.sizeofT) = c.elem x' (b / c.sizeofT) :=
    funext fun i => hx _ (elem_index_div i)
  have hey : c.elem y (b / c.sizeofT) = c.elem y' (b / c.sizeofT) :=
    funext fun i => hy _ (elem_index_div i)
  rw [linearReduce, linearReduce, hex, hey]

end Call

namespace Config

variable {cfg : Config} {c i j pe x y b slot : ℕ} {p q : Packet} {r r' : Signal}

section Neighbours

theorem sized : RecExch.Sized 2 cfg.size 2 cfg.m where
  radix := by
    rw [RecExch.effectiveK]
    split_ifs <;> omega
  two_le := le_rfl
  le := le_rfl
  lt := Nat.pow_lt_pow_right Nat.one_lt_two (lt_succ_self _)

theorem realPe_eq : RecExch.realPe 2 (RecExch.rem 2 cfg.size) b = b := by
  rw [cfg.sized.rem_eq, size, Nat.sub_self, RecExch.realPe]
  simp

theorem tables_eq : ∀ i < cfg.size, cfg.tables (id i) = RecExch.getNeighbors id 2 cfg.size i :=
  fun _ _ => rfl

theorem step2Nphases_eq (hpe : pe < cfg.size) : cfg.step2Nphases pe = cfg.m :=
  cfg.sized.length_step2Nbrs tables_eq hpe

theorem nbr_eq (hpe : pe < cfg.size) (hi : i < cfg.m) : cfg.nbr pe i = Radix.flip i pe := by
  have h := cfg.sized.nbrs_realPe tables_eq hpe hi
  simp only [realPe_eq, id_eq] at h
  rw [nbr, show (cfg.tables pe).step2Nbrs.getD i [] = _ from h, Radix.flip]
  have := Radix.digit_two_lt (t := i) (a := pe)
  obtain hd | hd : Radix.digit 2 i pe = 0 ∨ Radix.digit 2 i pe = 1 := by omega
  all_goals simp [hd, List.range_succ]

variable (hpe : pe < cfg.size) (hi : i < cfg.m)
include hpe hi

theorem nbr_lt : cfg.nbr pe i < cfg.size := by
  rw [nbr_eq hpe hi]
  exact flip_lt hpe hi

theorem nbr_nbr : cfg.nbr (cfg.nbr pe i) i = pe := by
  rw [nbr_eq (nbr_lt hpe hi) hi, nbr_eq hpe hi, Radix.flip_flip]

theorem eq_of_nbr_eq (hj : j < cfg.m) (h : cfg.nbr pe i = cfg.nbr pe j) : i = j := by
  rw [nbr_eq hpe hi, nbr_eq hpe hj] at h
  exact flip_left_injective h

theorem div_eq_or_nbr (h : y / 2 ^ (i + 1) = pe / 2 ^ (i + 1)) :
    y / 2 ^ i = pe / 2 ^ i ∨ y / 2 ^ i = cfg.nbr pe i / 2 ^ i := by
  rw [nbr_eq hpe hi]
  exact div_eq_or_flip h

end Neighbours

theorem part_eq_combine (hpe : pe < cfg.size) :
    cfg.part c cfg.m pe = combine (cfg.call c).linearReduce (cfg.call c).source cfg.size :=
  exchange_flip (W := cfg.part c) (fun _ _ _ => linearReduce_assoc)
    (fun _ _ => linearReduce_comm) (fun t ht a ha => by rw [part, nbr_eq ha ht]) hpe

section Layout

structure Valid (cfg : Config) (p : Packet) : Prop where
  isCall : cfg.IsCall p.call
  phase_lt : p.phase < cfg.m
  src_lt : p.src < cfg.size
  byte_lt : p.byte < (cfg.call p.call).nbytes

structure ValidSignal (cfg : Config) (r : Signal) : Prop where
  isCall : cfg.IsCall r.call
  phase_lt : r.phase < cfg.m
  src_lt : r.src < cfg.size

theorem Valid.validSignal (hp : cfg.Valid p) : cfg.ValidSignal ⟨p.call, p.phase, p.src⟩ :=
  ⟨hp.isCall, hp.phase_lt, hp.src_lt⟩

theorem call_mem (hc : cfg.IsCall c) : cfg.call c ∈ cfg.calls := by
  obtain ⟨hpos, hle⟩ := hc
  rw [call, List.getD_eq_getElem _ _ (show c - 1 < cfg.calls.length by omega)]
  exact List.getElem_mem _

def half (cfg : Config) : ℕ := 8 * (cfg.reduceScratchSize / 2 / 8)

theorem pWrk_eq : cfg.pWrk c = cfg.half * ((cfg.rdxnCount + c) % 2) := (Nat.mul_assoc _ _ _).symm

def holder (cfg : Config) (p : Packet) : ℕ := if p.isCopy then p.src else cfg.nbr p.src p.phase

def block (cfg : Config) (p : Packet) : ℕ :=
  if p.isCopy then 1 + 2 * cfg.m + p.phase
  else 1 + 2 * p.phase + numSmall p.src (cfg.nbr p.src p.phase)

def offset (cfg : Config) (p : Packet) : ℕ :=
  cfg.block p * (cfg.call p.call).nbytes + p.byte

theorem numSmall_le : numSmall x y ≤ 1 := by
  rw [numSmall]
  split_ifs <;> omega

theorem slotOffset_eq : cfg.slotOffset c i slot = (1 + 2 * i + slot) * (cfg.call c).nreduce := by
  rw [slotOffset]
  ring

theorem place_eq (hp : cfg.Valid p) :
    cfg.place p = (cfg.holder p,
      ((cfg.half * ((cfg.rdxnCount + p.call) % 2) + cfg.offset p : ℕ) : ℤ)) := by
  cases hcopy : p.isCopy with
  | true =>
    simp only [place, holder, offset, block, hcopy, if_true, sendAddr, pWrk_eq, nbytes,
      step2Nphases_eq hp.src_lt, Prod.mk.injEq, true_and]
    push_cast
    ring
  | false =>
    simp only [place, holder, offset, block, hcopy, Bool.false_eq_true, if_false, slotAddr,
      slotOffset_eq, pWrk_eq, nbytes, Prod.mk.injEq, true_and]
    push_cast
    ring

theorem block_le (hp : cfg.Valid p) : cfg.block p ≤ 3 * cfg.m := by
  have := hp.phase_lt
  have := numSmall_le (x := p.src) (y := cfg.nbr p.src p.phase)
  rw [block]
  split_ifs <;> omega

theorem offset_lt (hp : cfg.Valid p) : cfg.offset p < cfg.half := by
  have hfits := cfg.fits _ (call_mem hp.isCall)
  calc cfg.offset p
      < cfg.block p * (cfg.call p.call).nbytes + (cfg.call p.call).nbytes :=
        Nat.add_lt_add_left hp.byte_lt _
    _ = (cfg.block p + 1) * (cfg.call p.call).nbytes := (succ_mul _ _).symm
    _ ≤ (3 * cfg.m + 1) * (cfg.call p.call).nbytes :=
        Nat.mul_le_mul_right _ (succ_le_succ (block_le hp))
    _ = ((cfg.call p.call).nreduce + 2 * cfg.m * (cfg.call p.call).nreduce +
          cfg.m * (cfg.call p.call).nreduce) * (cfg.call p.call).sizeofT := by
        rw [nbytes]
        ring
    _ ≤ cfg.half := hfits

variable (hp : cfg.Valid p) (hq : cfg.Valid q) (h : cfg.place p = cfg.place q)
include hp hq h

theorem offset_eq_of_place : (cfg.rdxnCount + p.call) % 2 = (cfg.rdxnCount + q.call) % 2 ∧
    cfg.offset p = cfg.offset q := by
  have hpos : 0 < cfg.half := zero_lt_of_lt (offset_lt hp)
  rw [place_eq hp, place_eq hq] at h
  have haddr := Int.ofNat.inj (Prod.mk.inj h).2
  have hdiv := congrArg (· / cfg.half) haddr
  simp only [mul_add_div hpos, div_eq_of_lt (offset_lt hp),
    div_eq_of_lt (offset_lt hq), Nat.add_zero] at hdiv
  rw [hdiv] at haddr
  exact ⟨hdiv, Nat.add_left_cancel haddr⟩

theorem two_le_of_place (hlt : p.call < q.call) : p.call + 2 ≤ q.call := by
  have := (offset_eq_of_place hp hq h).1
  omega

theorem eq_of_place (hcall : p.call = q.call) : p = q := by
  obtain ⟨-, hoff⟩ := offset_eq_of_place hp hq h
  have hholder : cfg.holder p = cfg.holder q := by
    rw [place_eq hp, place_eq hq] at h
    exact (Prod.mk.inj h).1
  obtain ⟨c, i, x, k, b⟩ := p
  obtain ⟨c', i', x', k', b'⟩ := q
  obtain rfl : c = c' := hcall
  have hb : b < (cfg.call c).nbytes := hp.byte_lt
  have hb' : b' < (cfg.call c).nbytes := hq.byte_lt
  have hpos : 0 < (cfg.call c).nbytes := by omega
  have hblock : cfg.block ⟨c, i, x, k, b⟩ = cfg.block ⟨c, i', x', k', b'⟩ := by
    have hdiv := congrArg (· / (cfg.call c).nbytes) hoff
    simpa only [offset, Nat.mul_comm _ (cfg.call c).nbytes, mul_add_div hpos,
      div_eq_of_lt hb, div_eq_of_lt hb', Nat.add_zero] using hdiv
  have hbyte : b = b' := by
    rw [offset, hblock] at hoff
    exact Nat.add_left_cancel hoff
  have hi : i < cfg.m := hp.phase_lt
  have hi' : i' < cfg.m := hq.phase_lt
  have hsmall := numSmall_le (x := x) (y := cfg.nbr x i)
  have hsmall' := numSmall_le (x := x') (y := cfg.nbr x' i')
  -- The copies of a PE lie behind all of its slots.
  cases k <;> cases k' <;>
    simp only [block, holder, Bool.false_eq_true, if_false, if_true] at hblock hholder
  · obtain rfl : i = i' := by omega
    have hx : x < cfg.size := hp.src_lt
    have hx' : x' < cfg.size := hq.src_lt
    rw [← nbr_nbr hx hi, hholder, nbr_nbr hx' hi, hbyte]
  · omega
  · omega
  · obtain rfl : i = i' := by omega
    rw [hholder, hbyte]

end Layout

section Signals

variable (hr : cfg.ValidSignal r) (hr' : cfg.ValidSignal r')
  (h : cfg.signalPlace r = cfg.signalPlace r')
include hr hr' h

theorem src_phase_of_signalPlace : r.src = r'.src ∧ r.phase = r'.phase := by
  obtain ⟨hnbr, hrest⟩ := Prod.mk.inj h
  obtain ⟨-, hsrc⟩ := Prod.mk.inj hrest
  rw [← hsrc] at hnbr
  exact ⟨hsrc, eq_of_nbr_eq hr.src_lt hr.phase_lt hr'.phase_lt hnbr⟩

omit hr' in
theorem two_le_of_signalPlace (hlt : r.call < r'.call) : r.call + 2 ≤ r'.call := by
  have hpar : (cfg.syncCounter + (r.call - 1)) % 2 = (cfg.syncCounter + (r'.call - 1)) % 2 :=
    (Prod.mk.inj (Prod.mk.inj h).2).1
  have := hr.isCall.1
  omega

theorem eq_of_signalPlace (hcall : r.call = r'.call) : r = r' := by
  obtain ⟨hsrc, hphase⟩ := src_phase_of_signalPlace hr hr' h
  obtain ⟨c, i, x⟩ := r
  obtain ⟨c', i', x'⟩ := r'
  obtain rfl : c = c' := hcall
  obtain rfl : x = x' := hsrc
  obtain rfl : i = i' := hphase
  rfl

end Signals

section Read

/-- The offsets of all slots fit an `int`. -/
def Narrow (cfg : Config) : Prop := ∀ c ∈ cfg.calls, 2 * cfg.m * c.nreduce < 2 ^ 31

instance (cfg : Config) : Decidable cfg.Narrow := inferInstanceAs (Decidable (∀ c ∈ cfg.calls, _))

variable (hn : cfg.Narrow) (hc : cfg.IsCall c) (hi : i < cfg.m)
include hn hc hi

theorem readAddr_eq (hslot : slot ≤ 1) : cfg.readAddr c i slot = cfg.slotAddr c i slot := by
  have hle : cfg.slotOffset c i slot ≤ 2 * cfg.m * (cfg.call c).nreduce := by
    rw [slotOffset_eq]
    exact Nat.mul_le_mul_right _ (by omega)
  rw [readAddr, slotAddr, Wrap.toInt_natCast (hle.trans_lt (hn _ (call_mem hc)))]

theorem slot_eq {s : State cfg} (hx : x < cfg.size) :
    s.slot (cfg.nbr x i) c i b = s.scratch.mem (cfg.place ⟨c, i, x, false, b⟩) := by
  have hslot : recvSlot (cfg.nbr x i) x = numSmall x (cfg.nbr x i) := rfl
  rw [State.slot, nbr_nbr hx hi, hslot, readAddr_eq hn hc hi numSmall_le]
  rfl

theorem reduceCount_eq : (cfg.call c).reduceCount = (cfg.call c).nreduce := by
  have hlt := hn _ (call_mem hc)
  have hle : 1 * (cfg.call c).nreduce ≤ 2 * cfg.m * (cfg.call c).nreduce :=
    Nat.mul_le_mul_right _ (by omega)
  rw [reduceCount]
  omega

end Read

end Config

end Nvshmem.Allreduce
