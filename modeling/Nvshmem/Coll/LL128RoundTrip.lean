import Nvshmem.Coll.LL128

/-! # Round trip of LL128 packets

Both the writer and the reader go through every lane of every packet, whatever the number of
warps and the unrolling. The reader gets back the bytes that the writer has put in a lane.
With 2-byte elements a full store reads its last register from the wrong place.
-/

namespace Nvshmem.LL128

open List Nat Call

open Memory (Store applyAll)

variable {c : Call} {mem junk psync dest : ℕ → Byte} {source src : ℕ} {flag : BitVec 64}
  {i j k l tid b : ℕ} {κ nw : ℕ} {union : ℕ → Byte} {f g : BitVec 64}

theorem wordByte_allOnes (hi : i < 8) : wordByte (BitVec.allOnes 64) i = BitVec.allOnes 8 := by
  ext k hk
  rw [wordByte, BitVec.getElem_extractLsb', BitVec.getLsbD_allOnes, BitVec.getElem_allOnes]
  exact decide_eq_true (by omega)

theorem and_or_self (x f : Byte) : x &&& f ||| f = f := by
  ext k hk
  simp

theorem destRegs_data (hj : j < 16) : destRegs union (BitVec.allOnes 64) 0 j = union j := by
  unfold destRegs
  split
  · rfl
  · rw [wordByte_allOnes (by omega), BitVec.and_allOnes]
    simp [wordByte]

theorem destRegs_low (hj : j < 8) : destRegs union f g j = union j :=
  if_pos hj

theorem destRegs_flag : destRegs union flag flag (8 + i) = wordByte flag i := by
  rw [destRegs, if_neg (by omega), Nat.add_sub_cancel_left, and_or_self]

theorem ldUnaligned_succ : ldUnaligned mem src i (i + 1) j = mem (src + 4 * i + j) := by
  unfold ldUnaligned funnelshiftR ld
  split <;> congr 1 <;> omega

theorem unionOf_ld {width : ℕ} :
    unionOf width (fun i => ld mem (src + width * i)) j = mem (src + j) := by
  rw [unionOf, ld, add_assoc, div_add_mod]

theorem store128bRegister_of_ne (h : c.sizeofT ≠ 2) :
    store128bRegister c.sizeofT mem f g src = destRegs (fun j => mem (src + j)) f g := by
  have hmem := c.sizeofT_mem
  simp only [mem_cons, not_mem_nil, or_false, h, false_or] at hmem
  unfold store128bRegister
  congr 1
  funext j
  rcases hmem with h | h <;> rw [h]
  · exact unionOf_ld
  · exact unionOf_ld

theorem store128bRegister_two (hj : j < 4) :
    store128bRegister 2 mem f g src (12 + j) =
      (mem (src + 16 + j) &&& wordByte f (4 + j)) ||| wordByte g (4 + j) := by
  have hunion : unionOf 4 (regs4Unaligned mem src) (12 + j) = mem (src + 16 + j) := by
    rw [unionOf, show (12 + j) / 4 = 3 by omega, show (12 + j) % 4 = j by omega]
    exact ldUnaligned_succ
  unfold store128bRegister
  rw [if_neg (by decide), if_neg (by decide), destRegs, if_neg (by omega), hunion,
    show 12 + j - 8 = 4 + j by omega]

theorem storeVarlenRegister_of_lt {nelems : ℕ} (hj : j < 16) (h : j < nelems * c.sizeofT) :
    storeVarlenRegister c.sizeofT mem f g src nelems junk j =
      destRegs (fun j => mem (src + j)) f g j := by
  have hmem := c.sizeofT_mem
  simp only [mem_cons, not_mem_nil, or_false] at hmem
  have hunion : ∀ union union' : ℕ → Byte, union j = union' j →
      destRegs union f g j = destRegs union' f g j := by
    intro union union' heq
    rw [destRegs, destRegs, heq]
  refine hunion _ _ ?_
  rcases hmem with hsize | hsize | hsize <;> rw [hsize] at h ⊢
  · rw [if_neg (by decide), if_neg (by decide), if_pos (by omega), ldUnaligned_succ, add_assoc,
      div_add_mod]
  · rw [if_neg (by decide), if_pos rfl, if_pos (by omega), ld, add_assoc, div_add_mod]
  · rw [if_pos (by decide), if_pos (by omega), ld, add_assoc, div_add_mod]

theorem sizes (c : Call) : 0 < c.sizeofT ∧ c.numDataElemsPerPacket * c.sizeofT = 120 ∧
    c.numPsyncElemsPerPacket * c.sizeofT = 128 ∧ c.numElemsPerStore * c.sizeofT = 16 ∧
    c.numElemsPerFlag * c.sizeofT = 8 ∧
    c.numPsyncElemsPerPacket = c.numDataElemsPerPacket + c.numElemsPerFlag ∧
    c.numDataElemsPerPacket = 7 * c.numElemsPerStore + c.numElemsPerFlag ∧
    0 < c.numElemsPerFlag := by
  have hmem := c.sizeofT_mem
  simp only [mem_cons, not_mem_nil, or_false] at hmem
  unfold numDataElemsPerPacket numPsyncElemsPerPacket numElemsPerStore
    numElemsPerFlag
  rcases hmem with h | h | h <;> rw [h] <;> decide

theorem isFlagThread_iff : IsFlagThread tid ↔ tid % 8 = 7 := by
  unfold IsFlagThread
  omega

theorem sub_remain : c.nelems - c.remain = c.nelems / c.numDataElemsPerPacket *
    c.numDataElemsPerPacket := by
  have := div_add_mod' c.nelems c.numDataElemsPerPacket
  unfold remain
  omega

theorem numDataElemsPerPacket_pos : 0 < c.numDataElemsPerPacket := by
  obtain ⟨-, -, -, -, -, -, h, hpos⟩ := sizes c
  omega

theorem nelems_mul_sizeofT : c.nelems * c.sizeofT =
    120 * (c.nelems / c.numDataElemsPerPacket) + c.remain * c.sizeofT := by
  obtain ⟨-, hE, -⟩ := sizes c
  calc c.nelems * c.sizeofT
      = (c.nelems / c.numDataElemsPerPacket * c.numDataElemsPerPacket + c.remain) * c.sizeofT := by
        rw [remain, div_add_mod']
    _ = 120 * (c.nelems / c.numDataElemsPerPacket) + c.remain * c.sizeofT := by
        rw [add_mul, mul_assoc, hE, mul_comm 120]

theorem data_addr : (k * c.numDataElemsPerPacket + l * c.numElemsPerStore) * c.sizeofT =
    120 * k + 16 * l := by
  obtain ⟨-, hE, -, hS, -⟩ := sizes c
  rw [add_mul, mul_assoc, mul_assoc, hE, hS, mul_comm k, mul_comm l]

theorem psync_addr : (k * c.numPsyncElemsPerPacket + l * c.numElemsPerStore) * c.sizeofT =
    128 * k + 16 * l := by
  obtain ⟨-, -, hP, hS, -⟩ := sizes c
  rw [add_mul, mul_assoc, mul_assoc, hP, hS, mul_comm k, mul_comm l]

theorem dataOffset_one (hl : l < 8) : c.dataOffset 1 l = l * c.numElemsPerStore := by
  rw [dataOffset, div_eq_of_lt hl, mod_eq_of_lt hl, zero_mul, zero_mul, zero_add]

theorem tail_psync_addr (hl : l < 8) : (c.psyncEnd + c.psyncOffset 1 l) * c.sizeofT =
    128 * (c.nelems / c.numDataElemsPerPacket) + 16 * l := by
  obtain ⟨-, -, -, -, -, hPE, -⟩ := sizes c
  rw [← psync_addr, psyncEnd, psyncOffset, sub_remain, ← mul_add, ← hPE,
    div_eq_of_lt hl, mod_eq_of_lt hl, zero_mul, zero_mul, zero_add]

theorem tail_data_addr (hl : l < 8) : (c.nelems - c.remain + c.dataOffset 1 l) * c.sizeofT =
    120 * (c.nelems / c.numDataElemsPerPacket) + 16 * l := by
  rw [sub_remain, dataOffset_one hl, data_addr]

theorem lane_lt (hl : l < 8) : l * c.numElemsPerStore < c.numDataElemsPerPacket := by
  obtain ⟨-, -, -, -, -, -, h, hpos⟩ := sizes c
  have := Nat.mul_le_mul_right c.numElemsPerStore (le_pred_of_lt hl)
  simp only [pred_eq_sub_one, reduceSub] at this
  omega

theorem mem_loop {d n E P off fuel : ℕ} {x : ℕ × ℕ} (hd : 0 < d) (hoff : off < E)
    (hfuel : n ≤ fuel + κ) :
    x ∈ loop (d * E) (d * P) (n * E) fuel (κ * E + off) (κ * P + off) ↔
      ∃ q, κ + q * d < n ∧ x = ((κ + q * d) * E + off, (κ + q * d) * P + off) := by
  have hlt : ∀ {κ}, κ * E + off < n * E ↔ κ < n := by
    intro κ
    constructor
    · intro h
      by_contra hle
      have := Nat.mul_le_mul_right E (not_lt.mp hle)
      omega
    · intro h
      have := Nat.mul_le_mul_right E (succ_le_of_lt h)
      rw [succ_mul] at this
      omega
  induction fuel generalizing κ with
  | zero =>
    simp only [loop, not_mem_nil, false_iff]
    rintro ⟨q, hq, -⟩
    omega
  | succ fuel ih =>
    rw [loop]
    simp only [hlt]
    split
    next h =>
      have hnext := ih (κ := κ + d) (by omega)
      rw [add_mul, add_mul, add_right_comm _ _ off, add_right_comm _ _ off] at hnext
      rw [mem_cons]
      refine (or_congr_right hnext).trans ?_
      constructor
      · rintro (rfl | ⟨q, hq, rfl⟩)
        · exact ⟨0, by omega, by rw [zero_mul, add_zero]⟩
        · refine ⟨q + 1, ?_, ?_⟩ <;> rw [add_mul q, one_mul, add_comm (q * _), ← add_assoc]
          exact hq
      · rintro ⟨_ | q, hq, rfl⟩
        · exact .inl (by rw [zero_mul, add_zero])
        · rw [add_mul q, one_mul, add_comm (q * _), ← add_assoc] at hq ⊢
          exact .inr ⟨q, hq, rfl⟩
    next h =>
      simp only [not_mem_nil, false_iff]
      rintro ⟨q, hq, -⟩
      omega

theorem Unroll.add_lt (u : Unroll c) (hκ : u.factor ∣ κ)
    (h : κ < c.nelems / c.numDataElemsPerPacket) (hk : k < u.factor) :
    κ + k < c.nelems / c.numDataElemsPerPacket := by
  rcases u.valid with hu | ⟨hu, hmod⟩
  · omega
  · obtain ⟨m, hm⟩ := dvd_of_mod_eq_zero hmod
    have hdiv : c.nelems / c.numDataElemsPerPacket = u.factor * 4 * m := by
      rw [hm, mul_right_comm, Nat.mul_div_cancel _ numDataElemsPerPacket_pos]
    rw [hdiv] at h ⊢
    obtain ⟨q, rfl⟩ := hκ
    rw [hu] at h hk ⊢
    omega

theorem fullOffsets_eq {u : ℕ} : c.fullOffsets nw u tid =
    (loop (nw * (u * 4) * c.numDataElemsPerPacket) (nw * (u * 4) * c.numPsyncElemsPerPacket)
      (c.nelems / c.numDataElemsPerPacket * c.numDataElemsPerPacket) c.nelems
      (tid / 8 * u * c.numDataElemsPerPacket + tid % 8 * c.numElemsPerStore)
      (tid / 8 * u * c.numPsyncElemsPerPacket + tid % 8 * c.numElemsPerStore)).flatMap fun o =>
        (range u).map fun k =>
          (o.1 + k * c.numDataElemsPerPacket, o.2 + k * c.numPsyncElemsPerPacket) := by
  rw [← sub_remain, mul_assoc nw, mul_assoc nw]
  rfl

theorem Unroll.factor_eq_one (u : Unroll c) (h : c.remain ≠ 0) : u.factor = 1 := by
  refine u.valid.resolve_right fun ⟨_, hmod⟩ => h ?_
  exact mod_eq_zero_of_dvd ((Nat.dvd_mul_left _ _).trans (dvd_of_mod_eq_zero hmod))

theorem Unroll.of_mem_fullOffsets (u : Unroll c) (hw : 0 < nw) {o : ℕ × ℕ}
    (h : o ∈ c.fullOffsets nw u.factor tid) :
    ∃ κ < c.nelems / c.numDataElemsPerPacket,
      o = (κ * c.numDataElemsPerPacket + tid % 8 * c.numElemsPerStore,
        κ * c.numPsyncElemsPerPacket + tid % 8 * c.numElemsPerStore) := by
  have hu : 0 < u.factor := by
    rcases u.valid with h | ⟨h, -⟩ <;> omega
  have hlane := @lane_lt c _ (mod_lt tid (by decide : 0 < 8))
  rw [fullOffsets_eq, mem_flatMap] at h
  obtain ⟨o', ho', hmap⟩ := h
  obtain ⟨k, hk, rfl⟩ := mem_map.mp hmap
  have hd : 0 < nw * (u.factor * 4) :=
    Nat.mul_pos hw (Nat.mul_pos hu (by decide))
  obtain ⟨q, hq, rfl⟩ := (mem_loop hd hlane
    ((Nat.div_le_self _ _).trans (Nat.le_add_right _ _))).mp ho'
  refine ⟨tid / 8 * u.factor + q * (nw * (u.factor * 4)) + k, ?_, ?_⟩
  · refine u.add_lt (Nat.dvd_add (Nat.dvd_mul_left _ _) ?_) hq (mem_range.mp hk)
    exact ((Nat.dvd_mul_right u.factor 4).mul_left _).mul_left _
  · rw [add_mul _ k, add_mul _ k]
    exact Prod.ext (add_right_comm _ _ _) (add_right_comm _ _ _)

theorem Unroll.exists_mem_fullOffsets (u : Unroll c) (hw : 0 < nw)
    (h : κ < c.nelems / c.numDataElemsPerPacket) (hl : l < 8) :
    ∃ tid < 32 * nw, tid % 8 = l ∧
      (κ * c.numDataElemsPerPacket + l * c.numElemsPerStore,
        κ * c.numPsyncElemsPerPacket + l * c.numElemsPerStore) ∈
          c.fullOffsets nw u.factor tid := by
  have hu : 0 < u.factor := by
    rcases u.valid with h | ⟨h, -⟩ <;> omega
  -- the packets go round by quarters of a warp
  have hquarter := mod_lt (κ / u.factor) (by omega : 0 < 4 * nw)
  have hdiv : (8 * (κ / u.factor % (4 * nw)) + l) / 8 = κ / u.factor % (4 * nw) := by
    omega
  have hmod : (8 * (κ / u.factor % (4 * nw)) + l) % 8 = l := by omega
  have hκ : κ / u.factor % (4 * nw) * u.factor +
      κ / u.factor / (4 * nw) * (nw * (u.factor * 4)) + κ % u.factor = κ := by
    have h₁ := mod_add_div (κ / u.factor) (4 * nw)
    have h₂ := div_add_mod' κ u.factor
    rw [← h₁, add_mul] at h₂
    rw [show κ / u.factor / (4 * nw) * (nw * (u.factor * 4)) =
      4 * nw * (κ / u.factor / (4 * nw)) * u.factor by ring]
    exact h₂
  refine ⟨8 * (κ / u.factor % (4 * nw)) + l, by omega, hmod, ?_⟩
  rw [fullOffsets_eq, mem_flatMap, hdiv, hmod]
  have hd : 0 < nw * (u.factor * 4) := Nat.mul_pos hw (Nat.mul_pos hu (by decide))
  refine ⟨_, (mem_loop hd (lane_lt hl) ((Nat.div_le_self _ _).trans (Nat.le_add_right _ _))).mpr
    ⟨κ / u.factor / (4 * nw), by omega, rfl⟩, ?_⟩
  refine mem_map.mpr ⟨κ % u.factor, mem_range.mpr (mod_lt _ hu), ?_⟩
  rw [add_right_comm _ _ (_ * c.numDataElemsPerPacket),
    add_right_comm _ _ (_ * c.numPsyncElemsPerPacket), ← add_mul, ← add_mul, hκ]

theorem lt_numPackets_iff : k < c.numPackets ↔ k < c.nelems / c.numDataElemsPerPacket ∨
    k = c.nelems / c.numDataElemsPerPacket ∧ c.remain ≠ 0 := by
  have hpos := @numDataElemsPerPacket_pos c
  have hdiv := div_add_mod' c.nelems c.numDataElemsPerPacket
  have hmod := mod_lt c.nelems hpos
  unfold numPackets remain
  rw [lt_iff_add_one_le, Nat.le_div_iff_mul_le hpos, Nat.add_one_mul k]
  rcases Nat.lt_trichotomy k (c.nelems / c.numDataElemsPerPacket) with h | h | h
  · have := Nat.mul_le_mul_right c.numDataElemsPerPacket (succ_le_of_lt h)
    rw [succ_mul] at this
    exact iff_of_true (by omega) (.inl h)
  · subst h
    constructor
    · exact fun h => .inr ⟨rfl, by omega⟩
    · rintro (h | ⟨-, h⟩) <;> omega
  · have := Nat.mul_le_mul_right c.numDataElemsPerPacket (succ_le_of_lt h)
    rw [succ_mul] at this
    exact iff_of_false (by omega) (by omega)

def storeAt (c : Call) (mem : ℕ → Byte) (source : ℕ) (flag : BitVec 64) (junk : ℕ → Byte)
    (k l : ℕ) : Store Byte :=
  if k < c.nelems / c.numDataElemsPerPacket then
    c.fullStore mem source flag l
      (k * c.numDataElemsPerPacket + l * c.numElemsPerStore,
        k * c.numPsyncElemsPerPacket + l * c.numElemsPerStore)
  else c.tailStore mem source flag junk l

theorem storeAt_addr (hk : k < c.numPackets) (hl : l < 8) :
    (storeAt c mem source flag junk k l).addr = 128 * k + 16 * l := by
  unfold storeAt
  split
  next => exact psync_addr
  next h =>
    obtain rfl := ((lt_numPackets_iff.mp hk).resolve_left h).1
    exact tail_psync_addr hl

theorem storeAt_len : (storeAt c mem source flag junk k l).len = 16 := by
  unfold storeAt
  split <;> rfl

theorem fullStore_mod {o : ℕ × ℕ} :
    c.fullStore mem source flag (tid % 8) o = c.fullStore mem source flag tid o := by
  have hflag : IsFlagThread (tid % 8) ↔ IsFlagThread tid := by
    rw [isFlagThread_iff, isFlagThread_iff, mod_mod]
  unfold fullStore llFlag llFlagMask
  simp only [hflag]

theorem mem_packLL128_iff (w : Unroll c) (hw : 0 < nw) {st : Store Byte} :
    st ∈ (range (32 * nw)).flatMap (c.packLL128 mem source flag junk nw w.factor) ↔
      ∃ k < c.numPackets, ∃ l < 8, st = storeAt c mem source flag junk k l := by
  simp only [mem_flatMap, mem_range, packLL128, mem_append, mem_map]
  constructor
  · rintro ⟨tid, htid, ⟨o, ho, rfl⟩ | htail⟩
    · obtain ⟨k, hk, rfl⟩ := w.of_mem_fullOffsets hw ho
      refine ⟨k, lt_numPackets_iff.mpr (.inl hk), tid % 8, mod_lt _ (by decide), ?_⟩
      rw [storeAt, if_pos hk, fullStore_mod]
    · split at htail
      next h =>
        obtain rfl := mem_singleton.mp htail
        exact ⟨_, lt_numPackets_iff.mpr (.inr ⟨rfl, h.2.1⟩), tid, h.2.2,
          (if_neg (lt_irrefl _)).symm⟩
      next => exact absurd htail not_mem_nil
  · rintro ⟨k, hk, l, hl, rfl⟩
    unfold storeAt
    split
    next h =>
      obtain ⟨tid, htid, hmod, hmem⟩ := w.exists_mem_fullOffsets hw h hl
      refine ⟨tid, htid, .inl ⟨_, hmem, ?_⟩⟩
      rw [← fullStore_mod, hmod]
    next h =>
      obtain ⟨-, hremain⟩ := (lt_numPackets_iff.mp hk).resolve_left h
      refine ⟨l, by omega, .inr ?_⟩
      rw [if_pos ⟨w.factor_eq_one hremain, hremain, hl⟩]
      exact mem_singleton_self _

theorem applyAll_packLL128 (w : Unroll c) (hw : 0 < nw) {sts : List (Store Byte)}
    (hperm : sts.Perm ((List.range (32 * nw)).flatMap (c.packLL128 mem source flag junk nw
      w.factor))) (hk : k < c.numPackets) (hl : l < 8) (hj : j < 16) :
    applyAll psync sts (128 * k + 16 * l + j) = (storeAt c mem source flag junk k l).value j := by
  have hagree : ∀ st ∈ sts, ∀ j < st.len, st.value j =
      (storeAt c mem source flag junk ((st.addr + j) / 128) ((st.addr + j) % 128 / 16)).value
        ((st.addr + j) % 16) := by
    intro st hst j hj
    obtain ⟨k, hk, l, hl, rfl⟩ := (mem_packLL128_iff w hw).mp (hperm.mem_iff.mp hst)
    rw [storeAt_len] at hj
    rw [storeAt_addr hk hl]
    simp only [show (128 * k + 16 * l + j) / 128 = k by omega,
      show (128 * k + 16 * l + j) % 128 / 16 = l by omega,
      show (128 * k + 16 * l + j) % 16 = j by omega]
  refine (Memory.applyAll_of_agree
    (g := fun b => (storeAt c mem source flag junk (b / 128) (b % 128 / 16)).value (b % 16))
    hagree ⟨storeAt c mem source flag junk k l, ?_, ?_⟩).trans ?_
  · exact hperm.mem_iff.mpr ((mem_packLL128_iff w hw).mpr ⟨k, hk, l, hl, rfl⟩)
  · rw [Store.Covers, storeAt_addr hk hl, storeAt_len]
    omega
  · simp only [show (128 * k + 16 * l + j) / 128 = k by omega,
      show (128 * k + 16 * l + j) % 128 / 16 = l by omega,
      show (128 * k + 16 * l + j) % 16 = j by omega]

theorem storeAt_flag : (storeAt c mem source flag junk k 7).value (8 + i) = wordByte flag i := by
  have hflag : llFlag 7 flag = flag := if_pos rfl
  have hmask : llFlagMask 7 flag = flag := if_pos rfl
  obtain ⟨-, -, -, hS, hF, -, hE, hpos⟩ := sizes c
  have hrem : c.remain < c.numDataElemsPerPacket := mod_lt _ numDataElemsPerPacket_pos
  unfold storeAt
  split
  · exact destRegs_flag
  · have hoff : c.dataOffset 1 7 = 7 * c.numElemsPerStore := by simp [dataOffset]
    have hle : ¬ c.dataOffset 1 7 + c.numElemsPerStore ≤ c.remain := by
      have : c.numElemsPerFlag ≤ c.numElemsPerStore :=
        Nat.le_of_mul_le_mul_right (by omega) (sizes c).1
      omega
    rw [tailStore, if_neg hle]
    exact destRegs_flag

theorem destRegs_lane (hj : j < 16) (h : 16 * l + j < 120) (hl : l < 8) :
    destRegs union (llFlag l flag) (llFlagMask l flag) j = union j := by
  by_cases h7 : l = 7
  · exact destRegs_low (by omega)
  · have hnot : ¬ IsFlagThread l := by
      rw [isFlagThread_iff]
      omega
    rw [llFlag, llFlagMask, if_neg hnot, if_neg hnot]
    exact destRegs_data hj

theorem llFlagMask_of_lt (hl : l < 7) : llFlagMask l flag = 0 :=
  if_neg fun h => by
    rw [isFlagThread_iff] at h
    omega

theorem storeAt_data (hc : c.sizeofT ≠ 2 ∨ c.nelems ≤ 4) (hk : k < c.numPackets) (hj : j < 16)
    (h : 16 * l + j < 120) (hb : 120 * k + 16 * l + j < c.nelems * c.sizeofT) :
    (storeAt c mem source flag junk k l).value j = mem (source + (120 * k + 16 * l + j)) := by
  have hl : l < 8 := by omega
  obtain ⟨hsz, hE, -, hS, hF, -, hES, -⟩ := sizes c
  have hremlt : c.remain < c.numDataElemsPerPacket := mod_lt _ numDataElemsPerPacket_pos
  unfold storeAt
  split
  next hfull =>
    have hne : c.sizeofT ≠ 2 := by
      refine hc.elim id fun hn h2 => ?_
      rw [div_eq_of_lt (by rw [h2] at hE; omega)] at hfull
      exact Nat.not_lt_zero k hfull
    simp only [fullStore, store128bRegister_of_ne hne]
    rw [destRegs_lane hj h hl, data_addr, add_assoc]
  next hfull =>
    obtain ⟨rfl, -⟩ := (lt_numPackets_iff.mp hk).resolve_left hfull
    simp only [tailStore, tail_data_addr hl]
    simp only [dataOffset_one hl]
    split
    next hle =>
      have hne : c.sizeofT ≠ 2 := by
        refine hc.elim id fun hn h2 => ?_
        have hrem : c.remain ≤ c.nelems := mod_le _ _
        rw [h2] at hS
        omega
      have hl7 : l < 7 := by
        by_contra h7
        obtain rfl : l = 7 := by omega
        have : c.numElemsPerFlag ≤ c.numElemsPerStore := Nat.le_of_mul_le_mul_right (by omega) hsz
        omega
      rw [store128bRegister_of_ne hne, llFlagMask_of_lt hl7, destRegs_data hj, add_assoc]
    next hle =>
      -- the lane has only part of its elements
      have hlane : l * c.numElemsPerStore * c.sizeofT = 16 * l := by
        rw [mul_assoc, hS, mul_comm]
      rw [nelems_mul_sizeofT] at hb
      have hlt : l * c.numElemsPerStore < c.remain :=
        Nat.lt_of_mul_lt_mul_right (a := c.sizeofT) (by omega)
      have hcount : j < (if c.remain < l * c.numElemsPerStore then 0 else
          c.remain - l * c.numElemsPerStore) * c.sizeofT := by
        rw [if_neg hlt.not_gt, Nat.sub_mul]
        omega
      rw [storeVarlenRegister_of_lt hj hcount, destRegs_lane hj h hl, add_assoc]

theorem storeAt_two (h2 : c.sizeofT = 2) (hn : 4 < c.nelems) :
    (storeAt c mem source flag junk 0 0).value 12 = mem (source + 16) := by
  have hmask : llFlagMask 0 flag = 0 := llFlagMask_of_lt (by decide)
  have hflag : llFlag 0 flag = BitVec.allOnes 64 := if_neg (by decide)
  have hword : store128bRegister 2 mem (BitVec.allOnes 64) 0 source 12 = mem (source + 16) := by
    rw [store128bRegister_two (j := 0) (by decide), wordByte_allOnes (by decide),
      BitVec.and_allOnes]
    simp [wordByte]
  unfold storeAt
  split
  next =>
    simp only [fullStore, hmask, hflag, h2, zero_mul, add_zero]
    exact hword
  next hfull =>
    have hS : c.numElemsPerStore = 8 := by rw [numElemsPerStore, h2]
    have hremain : c.remain = c.nelems := by
      refine mod_eq_of_lt (lt_of_not_ge fun hge => hfull ?_)
      exact Nat.div_pos hge numDataElemsPerPacket_pos
    have hle : 8 ≤ c.nelems := by
      rcases c.accepted with h | ⟨-, h⟩ <;> omega
    simp only [tailStore, dataOffset_one (by decide : 0 < 8), hremain, hS, hmask, h2, hle,
      zero_mul, add_zero, zero_add, Nat.sub_self, if_true]
    exact hword

theorem of_mem_recvLL128 (r : Unroll c) {st : Store Byte}
    (h : st ∈ (range 32).flatMap (c.recvLL128 psync r.factor)) :
    ∃ k < c.numPackets, ∃ l < 8, st.addr = 120 * k + 16 * l ∧ 16 * l + st.len ≤ 120 ∧
      120 * k + 16 * l + st.len ≤ c.nelems * c.sizeofT ∧ st.len ≤ 16 ∧
      st.value = ld psync (128 * k + 16 * l) := by
  obtain ⟨-, hE, -, hS, -⟩ := sizes c
  obtain ⟨tid, -, h⟩ := mem_flatMap.mp h
  rcases mem_append.mp h with hfull | htail
  · obtain ⟨o, ho, rfl⟩ := mem_map.mp hfull
    obtain ⟨k, hk, rfl⟩ := r.of_mem_fullOffsets Nat.one_pos ho
    have hlen : 16 * (tid % 8) + (if IsFlagThread tid then 8 else 16) ≤ 120 := by
      simp only [isFlagThread_iff]
      split <;> omega
    refine ⟨k, lt_numPackets_iff.mpr (.inl hk), tid % 8, mod_lt _ (by decide), data_addr,
      hlen, ?_, ?_, ?_⟩
    · rw [nelems_mul_sizeofT]
      dsimp only
      omega
    · dsimp only
      split <;> omega
    · exact congrArg (ld psync) psync_addr
  · split at htail
    next htid =>
      obtain rfl := mem_singleton.mp htail
      obtain ⟨⟨-, hremain, hl⟩, hlt⟩ := htid
      have hlane : tid * c.numElemsPerStore * c.sizeofT = 16 * tid := by
        rw [mul_assoc, hS, mul_comm]
      have hrem : c.remain * c.sizeofT ≤ 120 :=
        (Nat.mul_le_mul_right _ (mod_lt _ numDataElemsPerPacket_pos).le).trans hE.le
      have hlen : 16 * tid + c.sourceCopyLen tid ≤ c.remain * c.sizeofT ∧
          c.sourceCopyLen tid ≤ 16 := by
        rw [dataOffset_one hl] at hlt
        unfold sourceCopyLen
        rw [dataOffset_one hl]
        split
        next hle =>
          have := Nat.mul_le_mul_right c.sizeofT hle.le
          rw [add_mul] at this
          omega
        next hle =>
          have hle' := Nat.mul_le_mul_right c.sizeofT (not_lt.mp hle)
          have hlt' := Nat.mul_le_mul_right c.sizeofT hlt.le
          rw [add_mul] at hle'
          rw [Nat.sub_mul]
          omega
      refine ⟨_, lt_numPackets_iff.mpr (.inr ⟨rfl, hremain⟩), tid, hl, tail_data_addr hl,
        hlen.1.trans hrem, ?_, hlen.2, congrArg (ld psync) (tail_psync_addr hl)⟩
      rw [nelems_mul_sizeofT, add_assoc]
      exact Nat.add_le_add_left hlen.1 _
    next => exact absurd htail not_mem_nil

theorem exists_mem_recvLL128 (r : Unroll c) (hb : b < c.nelems * c.sizeofT) :
    ∃ st ∈ (range 32).flatMap (c.recvLL128 psync r.factor), st.Covers b := by
  obtain ⟨hsz, hE, -, hS, -⟩ := sizes c
  rw [nelems_mul_sizeofT] at hb
  have hrem : c.remain * c.sizeofT ≤ 120 :=
    (Nat.mul_le_mul_right _ (mod_lt _ numDataElemsPerPacket_pos).le).trans hE.le
  have hl : b % 120 / 16 < 8 := by omega
  by_cases hfull : b / 120 < c.nelems / c.numDataElemsPerPacket
  · obtain ⟨tid, htid, hmod, hmem⟩ := r.exists_mem_fullOffsets Nat.one_pos hfull hl
    refine ⟨_, mem_flatMap.mpr ⟨tid, mem_range.mpr htid,
      mem_append_left _ (mem_map_of_mem hmem)⟩, ?_⟩
    simp only [Store.Covers, isFlagThread_iff, data_addr]
    split <;> omega
  · have hlane : b % 120 / 16 * c.numElemsPerStore * c.sizeofT = 16 * (b % 120 / 16) := by
      rw [mul_assoc, hS, mul_comm]
    have hlt : b % 120 / 16 * c.numElemsPerStore < c.remain :=
      Nat.lt_of_mul_lt_mul_right (a := c.sizeofT) (by omega)
    have hne : c.remain ≠ 0 := by omega
    refine ⟨⟨(c.nelems - c.remain + c.dataOffset 1 (b % 120 / 16)) * c.sizeofT,
        c.sourceCopyLen (b % 120 / 16),
        ld psync ((c.psyncEnd + c.psyncOffset 1 (b % 120 / 16)) * c.sizeofT)⟩,
      mem_flatMap.mpr ⟨b % 120 / 16, mem_range.mpr (by omega),
        mem_append_right _ ?_⟩, ?_⟩
    · rw [if_pos ⟨⟨r.factor_eq_one hne, hne, hl⟩, by rwa [dataOffset_one hl]⟩]
      exact mem_singleton_self _
    · unfold Store.Covers sourceCopyLen
      dsimp only
      rw [tail_data_addr hl, dataOffset_one hl]
      split
      · omega
      · rw [Nat.sub_mul]
        omega

theorem applyAll_recvLL128 (r : Unroll c) {sts : List (Store Byte)}
    (hperm : sts.Perm ((List.range 32).flatMap (c.recvLL128 psync r.factor))) :
    applyAll dest sts b =
      if b < c.nelems * c.sizeofT then psync (128 * (b / 120) + b % 120) else dest b := by
  split
  next hb =>
    refine Memory.applyAll_of_agree (g := fun b => psync (128 * (b / 120) + b % 120)) ?_ ?_
    · intro st hst j hj
      obtain ⟨k, hk, l, hl, haddr, hlen, -, -, hvalue⟩ :=
        of_mem_recvLL128 r (hperm.mem_iff.mp hst)
      rw [hvalue, ld]
      congr 1
      omega
    · obtain ⟨st, hst, hcov⟩ := exists_mem_recvLL128 r hb
      exact ⟨st, hperm.mem_iff.mpr hst, hcov⟩
  next hb =>
    refine Memory.applyAll_of_forall_not_covers fun st hst hcov => hb ?_
    obtain ⟨k, hk, l, hl, haddr, -, hlen, -⟩ := of_mem_recvLL128 r (hperm.mem_iff.mp hst)
    unfold Store.Covers at hcov
    omega

theorem of_mem_loads (r : Unroll c) {a : ℕ} (htid : IsFlagThread tid)
    (h : a ∈ c.loads r.factor tid) : ∃ k < c.numPackets, a = 128 * k + 16 * 7 := by
  have hlane : tid % 8 = 7 := isFlagThread_iff.mp htid
  rcases mem_append.mp h with hfull | htail
  · obtain ⟨o, ho, rfl⟩ := mem_map.mp hfull
    obtain ⟨k, hk, rfl⟩ := r.of_mem_fullOffsets Nat.one_pos ho
    exact ⟨k, lt_numPackets_iff.mpr (.inl hk), by rw [hlane, psync_addr]⟩
  · split at htail
    next htail' =>
      obtain ⟨-, hremain, hl⟩ := htail'
      obtain rfl : tid = 7 := by omega
      refine ⟨_, lt_numPackets_iff.mpr (.inr ⟨rfl, hremain⟩), ?_⟩
      rw [mem_singleton.mp htail, tail_psync_addr hl]
    next => exact absurd htail not_mem_nil

section RoundTrip

variable {nw : ℕ} {sts : List (Store Byte)}

theorem applyAll_flag (w : Unroll c) (hw : 0 < nw)
    (hperm : sts.Perm ((range (32 * nw)).flatMap
      (c.packLL128 mem source flag junk nw w.factor)))
    (hk : k < c.numPackets) (hi : i < 8) :
    applyAll psync sts (128 * k + 16 * 7 + 8 + i) = wordByte flag i := by
  rw [add_assoc, applyAll_packLL128 w hw hperm hk (by decide) (by omega), storeAt_flag]

theorem applyAll_data (hc : c.sizeofT ≠ 2 ∨ c.nelems ≤ 4) (w : Unroll c) (hw : 0 < nw)
    (hperm : sts.Perm ((range (32 * nw)).flatMap
      (c.packLL128 mem source flag junk nw w.factor))) (hb : b < c.nelems * c.sizeofT) :
    applyAll psync sts (128 * (b / 120) + b % 120) = mem (source + b) := by
  have hk : b / 120 < c.numPackets := by
    obtain ⟨hsz, hE, -⟩ := sizes c
    rw [nelems_mul_sizeofT] at hb
    have hrem : c.remain * c.sizeofT < 120 := by
      rw [← hE]
      exact Nat.mul_lt_mul_of_pos_right (mod_lt _ numDataElemsPerPacket_pos) hsz
    refine lt_numPackets_iff.mpr (or_iff_not_imp_left.mpr fun hge => ⟨by omega, fun h0 => ?_⟩)
    rw [h0] at hb
    omega
  have hsplit : 128 * (b / 120) + b % 120 =
      128 * (b / 120) + 16 * (b % 120 / 16) + b % 120 % 16 := by omega
  have hsource : 120 * (b / 120) + 16 * (b % 120 / 16) + b % 120 % 16 = b := by omega
  rw [hsplit, applyAll_packLL128 w hw hperm hk (by omega) (by omega),
    storeAt_data hc hk (by omega) (by omega) (by omega), hsource]

theorem not_roundTrip_of_two (h2 : c.sizeofT = 2) (hn : 4 < c.nelems) (hw : 0 < nw)
    (w r : Unroll c) : ¬ RoundTrip c nw w r := by
  intro h
  have hpackets : 0 < c.numPackets :=
    Nat.div_pos (by omega) numDataElemsPerPacket_pos
  have hlen : 12 < c.nelems * c.sizeofT := by
    rw [h2]
    rcases c.accepted with h | ⟨-, h⟩ <;> omega
  obtain ⟨-, -, hdest⟩ := h (fun b => if b = 16 then 1 else 0) 0 0 (fun _ => 0) (fun _ => 0)
    (fun _ => 0) (zero_mod _) _ (List.Perm.refl _)
  have hbyte := hdest _ (List.Perm.refl _) 12
  rw [applyAll_recvLL128 r (List.Perm.refl _), if_pos hlen, if_pos hlen] at hbyte
  have hlane := @applyAll_packLL128 c (fun b => if b = 16 then 1 else 0) (fun _ => 0) (fun _ => 0)
    0 0 12 0 0 nw w hw _ (List.Perm.refl _) hpackets (by decide) (by decide)
  rw [storeAt_two h2 hn] at hlane
  exact absurd (hlane.symm.trans hbyte) (by decide)

/-- Messages arrive as they were sent, in one or several packets, except for messages of 2-byte
elements that fill a store. -/
theorem roundTrip_iff (c : Call) (nw : ℕ) (hw : 0 < nw) (w r : Unroll c) :
    RoundTrip c nw w r ↔ c.sizeofT ≠ 2 ∨ c.nelems ≤ 4 := by
  constructor
  · intro h
    by_contra hc
    push Not at hc
    exact not_roundTrip_of_two hc.1 hc.2 hw w r h
  · intro hc mem source flag junk psync dest hsource sts hperm
    refine ⟨fun k hk i hi => applyAll_flag w hw hperm hk hi, ?_, ?_⟩
    · intro tid htid hflag a ha i hi
      obtain ⟨k, hk, rfl⟩ := of_mem_loads r hflag ha
      exact applyAll_flag w hw hperm hk hi
    · intro sts' hperm' b
      rw [applyAll_recvLL128 r hperm']
      split
      next hb => exact applyAll_data hc w hw hperm hb
      next => rfl

/-- 32 elements of 4 bytes: a full packet and a shorter one. -/
theorem roundTrip_iff_twoPackets :
    RoundTrip ⟨4, 32, by decide, by decide⟩ 2 ⟨1, .inl rfl⟩ ⟨1, .inl rfl⟩ :=
  (roundTrip_iff _ 2 (by decide) _ _).mpr (.inl (by decide))

/-- 8 elements of 2 bytes. -/
theorem not_roundTrip_eightHalves :
    ¬ RoundTrip ⟨2, 8, by decide, by decide⟩ 1 ⟨1, .inl rfl⟩ ⟨1, .inl rfl⟩ :=
  not_roundTrip_of_two rfl (by decide) (by decide) _ _

end RoundTrip

end Nvshmem.LL128
