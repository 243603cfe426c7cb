import Nvshmem.Coll.FcollectLL

/-! # Words of low-latency collects are not confused

A PE that has returned from a call with data has read words of all PEs in it, so all have
entered it and have finished the calls before. If calls with data alternate between the
halves of the psync area, a word is written only when all PEs have finished the previous
call in its half. Therefore words stay until they are read, and a flag that matches belongs
to the word that the reader waits for.
-/

namespace Nvshmem.FcollectLL

open Transition Mailbox Option Function Nat

section Layout

variable {size threshold : ℕ} {c : Call size threshold} {count pe pe' i j : ℕ}

theorem Call.psyncRemoteWriteElements_mul :
    c.psyncRemoteWriteElements * c.sizeofT = 8 * c.numSubelems := by
  have heven := c.even
  unfold psyncRemoteWriteElements numSubelems teamRoundUp
  rcases c.sizeofT_eq with h | h <;> rw [h] <;> omega

theorem Call.wordAddr_eq (hthr : threshold % 8 = 0) :
    c.wordAddr count pe j =
      2 * size * threshold * (count % 2) + 8 * (pe * c.numSubelems + j) := by
  have hdvd : threshold / c.sizeofT * c.sizeofT = threshold := by
    rcases c.sizeofT_eq with h | h <;> rw [h] <;> omega
  calc c.wordAddr count pe j
      = 2 * size * (threshold / c.sizeofT * c.sizeofT) * (count % 2) +
          pe * (c.psyncRemoteWriteElements * c.sizeofT) + 8 * j := by
        unfold wordAddr
        ring
    _ = 2 * size * threshold * (count % 2) + 8 * (pe * c.numSubelems + j) := by
        rw [hdvd, psyncRemoteWriteElements_mul]
        ring

theorem Call.block_lt (hpe : pe < size) (hj : j < c.numSubelems) :
    8 * (pe * c.numSubelems + j) < 2 * size * threshold := by
  have hle : 4 * c.numSubelems ≤ threshold :=
    (mul_div_le _ _).trans c.fits
  calc 8 * (pe * c.numSubelems + j) < 8 * ((pe + 1) * c.numSubelems) := by
        rw [add_mul pe, one_mul]
        omega
    _ ≤ 8 * (size * c.numSubelems) := by
        exact Nat.mul_le_mul_left _ (Nat.mul_le_mul_right _ hpe)
    _ = 2 * size * (4 * c.numSubelems) := by ring
    _ ≤ 2 * size * threshold := Nat.mul_le_mul_left _ hle

end Layout

namespace Config

variable {cfg : Config} {p q : Packet cfg.size}

def Valid (cfg : Config) (p : Packet cfg.size) : Prop := p.idx < cfg.words p.call

theorem Valid.exists_call (h : cfg.Valid p) :
    ∃ c, cfg.call? p.call = some c ∧ p.idx < c.numSubelems := by
  unfold Valid words at h
  cases hc : cfg.call? p.call with
  | none =>
    rw [hc] at h
    exact absurd h (Nat.not_lt_zero _)
  | some c =>
    rw [hc] at h
    exact ⟨c, rfl, h⟩

theorem Valid.call_pos (h : cfg.Valid p) : 0 < p.call := by
  obtain ⟨c, hc, -⟩ := h.exists_call
  refine Nat.pos_of_ne_zero fun h0 => ?_
  rw [call?, if_pos h0] at hc
  exact some_ne_none _ hc.symm

theorem Valid.call_le (h : cfg.Valid p) : p.call ≤ cfg.calls.length := by
  obtain ⟨c, hc, -⟩ := h.exists_call
  have hpos := h.call_pos
  rw [call?, if_neg hpos.ne'] at hc
  have := (List.getElem?_eq_some_iff.mp hc).1
  omega

theorem Valid.toNat_llFlag (h : cfg.Valid p) : (llFlag p.call).toNat = p.call := by
  have := h.call_le
  have := cfg.length_lt
  exact mod_eq_of_lt (by omega)

theorem Valid.of_place_eq (hp : cfg.Valid p) (hq : cfg.Valid q)
    (h : cfg.place p = cfg.place q) : p.call % 2 = q.call % 2 ∧ (p.call = q.call → p = q) := by
  obtain ⟨c, hc, hpc⟩ := hp.exists_call
  obtain ⟨d, hd, hqd⟩ := hq.exists_call
  obtain ⟨hdst, haddr⟩ := Prod.mk.inj h
  rw [hc, hd] at haddr
  simp only [elim_some, Call.wordAddr_eq cfg.threshold_mod] at haddr
  have hlt := Call.block_lt p.src.isLt hpc
  have hlt' := Call.block_lt q.src.isLt hqd
  have hpar : p.call % 2 = q.call % 2 := by
    rcases mod_two_eq_zero_or_one p.call with h₁ | h₁ <;>
      rcases mod_two_eq_zero_or_one q.call with h₂ | h₂ <;>
      rw [h₁, h₂] at haddr ⊢ <;> omega
  refine ⟨hpar, fun hcall => ?_⟩
  obtain rfl : c = d := by
    rw [hcall, hd] at hc
    exact (some.inj hc).symm
  rw [hpar] at haddr
  have hpos : 0 < c.numSubelems := by omega
  have hsum : p.src * c.numSubelems + p.idx = q.src * c.numSubelems + q.idx := by omega
  have hdiv : ∀ {a j : ℕ}, j < c.numSubelems → (a * c.numSubelems + j) / c.numSubelems = a := by
    intro a j hj
    rw [mul_comm, mul_add_div hpos, div_eq_of_lt hj, add_zero]
  have hsrc : (p.src : ℕ) = q.src :=
    (hdiv hpc).symm.trans ((congrArg (· / c.numSubelems) hsum).trans (hdiv hqd))
  have hidx : p.idx = q.idx := by
    rw [hsrc] at hsum
    exact Nat.add_left_cancel hsum
  cases p
  cases q
  simp_all [Fin.ext_iff]

end Config

namespace State

variable {cfg : Config} {s t : State cfg} {a : Action cfg} {p q : Packet cfg.size}

def Retired (s : State cfg) (p : Packet cfg.size) : Prop := ∀ pe, p.call < s.fcollectCount pe

structure Inv (s : State cfg) : Prop where
  box : Mailbox.Inv cfg.place cfg.content (fun _ => ⟨0, 0⟩) s.Retired s.box
  sent_le : ∀ {p}, s.box.status p ≠ .idle → cfg.Valid p ∧ p.call ≤ s.fcollectCount p.src
  sent : ∀ {p}, cfg.Valid p → p.call < s.fcollectCount p.src → s.box.status p ≠ .idle
  accepted : ∀ {p v}, s.dest p = some v → cfg.Valid p ∧ p.call ≤ s.fcollectCount p.dst ∧
    s.box.status p = .arrived ∧ v = cfg.sourceWord p
  received : ∀ {p}, cfg.Valid p → p.call < s.fcollectCount p.dst → s.dest p ≠ none
  packed : ∀ {p}, s.box.status p = .posted → s.box.status p.own = .arrived
  count_le : ∀ pe, s.fcollectCount pe ≤ cfg.calls.length + 1

theorem Inv.init : (State.init cfg).Inv where
  box := ⟨fun h => by simp [State.init] at h, fun _ => .inl rfl, fun h => by simp [State.init] at h⟩
  sent_le h := absurd rfl h
  sent _ h := absurd h (Nat.not_lt_zero _)
  accepted h := by simp [State.init] at h
  received _ h := absurd h (Nat.not_lt_zero _)
  packed h := by simp [State.init] at h
  count_le _ := Nat.zero_le _

section Facts

variable (hi : s.Inv)
include hi

theorem Inv.arrived_of_lt (hp : cfg.Valid p) (h : p.call < s.fcollectCount p.dst) :
    s.box.status p = .arrived := by
  obtain ⟨v, hv⟩ := ne_none_iff_exists'.mp (hi.received hp h)
  exact (hi.accepted hv).2.2.1

theorem Inv.le_count {d : ℕ} (hd : 0 < cfg.words d) {pe : Fin cfg.size}
    (h : d < s.fcollectCount pe) (pe' : Fin cfg.size) : d ≤ s.fcollectCount pe' := by
  have harr : s.box.status ⟨d, pe', pe, 0⟩ = .arrived := hi.arrived_of_lt hd h
  exact (hi.sent_le (by rw [harr]; simp)).2

theorem Inv.retired_of_sent (halt : cfg.Alternating) (hp : s.box.status p ≠ .idle)
    (hq : cfg.Valid q) (hpar : q.call % 2 = p.call % 2) (hlt : q.call < p.call) : s.Retired q := by
  obtain ⟨hvalid, hle⟩ := hi.sent_le hp
  intro pe
  rcases halt with hone | halt
  · obtain rfl : pe = p.src := Fin.ext (by omega)
    omega
  · obtain ⟨d, hde, hcd, hd⟩ := halt _ hvalid.call_le _ hlt
      ⟨hpar, zero_lt_of_lt hq, zero_lt_of_lt hvalid⟩
    have := hi.le_count hd (Nat.lt_of_lt_of_le hde hle) pe
    omega

end Facts

section Steps

variable (hi : s.Inv)
include hi

theorem Inv.of_status (hcount : t.fcollectCount = s.fcollectCount) (hdest : t.dest = s.dest)
    (hbox : Mailbox.Inv cfg.place cfg.content (fun _ => ⟨0, 0⟩) s.Retired t.box)
    (hst : ∀ q, q ≠ p → t.box.status q = s.box.status q) (hp : t.box.status p ≠ .idle)
    (hsent : cfg.Valid p ∧ p.call ≤ s.fcollectCount p.src) (hprev : s.box.status p ≠ .arrived)
    (hposted : t.box.status p = .posted → s.box.status p.own = .arrived) : t.Inv := by
  have harr : ∀ {q}, s.box.status q = .arrived → t.box.status q = .arrived := by
    intro q hq
    rw [hst q fun heq => hprev (heq ▸ hq), hq]
  have hret : t.Retired = s.Retired := by
    funext q
    rw [Retired, Retired, hcount]
  constructor
  · rw [hret]
    exact hbox
  · intro q hq
    rw [hcount]
    by_cases heq : q = p
    · exact heq ▸ hsent
    · exact hi.sent_le (hst q heq ▸ hq)
  · intro q hq hlt
    rw [hcount] at hlt
    by_cases heq : q = p
    · exact heq ▸ hp
    · exact hst q heq ▸ hi.sent hq hlt
  · intro q v hv
    rw [hdest] at hv
    obtain ⟨hq, hle, hqarr, hval⟩ := hi.accepted hv
    exact ⟨hq, hcount ▸ hle, harr hqarr, hval⟩
  · rw [hcount, hdest]
    exact hi.received
  · intro q hq
    refine harr ?_
    by_cases heq : q = p
    · subst heq
      exact hposted hq
    · exact hi.packed (hst q heq ▸ hq)
  · rw [hcount]
    exact hi.count_le

theorem Inv.store (he : s.Enabled (.store p)) (ok : s.PutsPacked (.store p)) :
    (s.effect (.store p)).Inv := by
  obtain ⟨hcall, hvalid, hidle⟩ := he
  have hprev : s.box.status p ≠ .arrived := by
    rw [hidle]
    simp
  have hst : (s.effect (.store p)).box.status p =
      if cfg.direct p.src p.dst then .flying (cfg.content p) else .posted :=
    update_self ..
  refine hi.of_status rfl rfl (hi.box.setStatus hprev ?_ ?_)
    (fun q hq => update_of_ne hq ..) ?_ ⟨hvalid, hcall.le⟩ hprev ?_
  · split <;> simp
  · intro w hw
    split at hw
    · exact (Status.flying.inj hw).symm
    · exact absurd hw (by simp)
  · rw [hst]
    split <;> simp
  · intro hposted
    refine ok.resolve_left fun hdir => ?_
    rw [hst, if_pos hdir] at hposted
    exact absurd hposted (by simp)

theorem Inv.fetch (he : s.Enabled (.fetch p)) : (s.effect (.fetch p)).Inv := by
  have hprev : s.box.status p = .posted := he
  obtain ⟨hvalid, hle⟩ := hi.sent_le (p := p) (by rw [hprev]; simp)
  have hnot : ¬ s.Retired p.own := by
    intro hret
    have harr := hi.arrived_of_lt hvalid (hret p.dst)
    rw [hprev] at harr
    exact absurd harr (by simp)
  have hmem : s.box.mem (cfg.place p.own) = cfg.content p := hi.box.kept (hi.packed hprev) hnot
  refine hi.of_status rfl rfl (hi.box.setStatus (by rw [hprev]; simp) (by simp) ?_)
    (fun q hq => update_of_ne hq ..) ?_ ⟨hvalid, hle⟩ (by rw [hprev]; simp) ?_
  · intro w hw
    rw [← hmem]
    exact (Status.flying.inj hw).symm
  · simp [effect, Box.fetch]
  · simp [effect, Box.fetch]

theorem Inv.deliver (halt : cfg.Alternating) (he : s.Enabled (.deliver p)) :
    (s.effect (.deliver p)).Inv := by
  have hfly : (s.box.status p).IsFlying := he
  have hne : s.box.status p ≠ .idle ∧ s.box.status p ≠ .arrived := by
    obtain ⟨w, hw⟩ := Status.isFlying_iff.mp hfly
    simp [hw]
  obtain ⟨hvalid, hle⟩ := hi.sent_le hne.1
  have hst : ∀ q, (s.effect (.deliver p)).box.status q =
      if q = p then .arrived else s.box.status q := fun q => Box.status_deliver hfly
  refine hi.of_status (p := p) rfl rfl (hi.box.deliver hfly ?_) (fun q hq => ?_) ?_ ⟨hvalid, hle⟩
    hne.2 ?_
  · intro q hq hplace harr
    have hqsent : s.box.status q ≠ .idle := by
      rw [harr]
      simp
    obtain ⟨hpar, hcall⟩ := (hi.sent_le hqsent).1.of_place_eq hvalid hplace
    rcases Nat.lt_trichotomy q.call p.call with hlt | heq | hlt
    · exact hi.retired_of_sent halt hne.1 (hi.sent_le hqsent).1 hpar hlt
    · exact absurd (hcall heq) hq
    · -- a later word has arrived, so that all PEs have read this one
      have hret := hi.retired_of_sent halt hqsent hvalid hpar.symm hlt
      exact absurd (hi.arrived_of_lt hvalid (hret p.dst)) hne.2
  · rw [hst, if_neg hq]
  · rw [hst]
    simp
  · rw [hst]
    simp

theorem Inv.arrived_of_flag (hvalid : cfg.Valid p)
    (hflag : (s.box.mem (cfg.place p)).flag = Config.llFlag p.call) :
    s.box.status p = .arrived ∧ s.box.mem (cfg.place p) = cfg.content p := by
  refine hi.box.arrived_of_accept (·.flag = Config.llFlag p.call) hflag ?_ ?_
  · intro h
    have := congrArg BitVec.toNat h
    rw [hvalid.toNat_llFlag] at this
    exact hvalid.call_pos.ne this
  · intro q hq hplace hqflag
    have hqvalid := (hi.sent_le (p := q) (by rw [hq]; simp)).1
    refine (hqvalid.of_place_eq hvalid hplace).2 ?_
    rw [← hqvalid.toNat_llFlag, ← hvalid.toNat_llFlag]
    exact congrArg BitVec.toNat hqflag

theorem Inv.recv (he : s.Enabled (.recv p)) : (s.effect (.recv p)).Inv := by
  obtain ⟨hcall, hvalid, hnone, hflag⟩ := he
  obtain ⟨harr, hmem⟩ := hi.arrived_of_flag hvalid hflag
  refine ⟨hi.box, hi.sent_le, hi.sent, ?_, ?_, hi.packed, hi.count_le⟩
  · intro q v hv
    simp only [effect, update_apply] at hv
    split at hv
    next heq =>
      subst heq
      refine ⟨hvalid, hcall.le, harr, ?_⟩
      rw [← some.inj hv, hmem]
      rfl
    next => exact hi.accepted hv
  · intro q hq hlt
    simp only [effect, update_apply]
    split
    · simp
    · exact hi.received hq hlt

theorem Inv.next {pe : Fin cfg.size} (he : s.Enabled (.next pe)) : (s.effect (.next pe)).Inv := by
  obtain ⟨hle, hdone⟩ := he
  have hcount : ∀ i, (s.effect (.next pe)).fcollectCount i =
      if i = pe then s.fcollectCount pe + 1 else s.fcollectCount i := fun i =>
    update_apply ..
  have hmono : ∀ i, s.fcollectCount i ≤ (s.effect (.next pe)).fcollectCount i := by
    intro i
    rw [hcount]
    split
    next heq => exact heq ▸ le_succ _
    next => exact le_rfl
  have hlt : ∀ {i c}, c < (s.effect (.next pe)).fcollectCount i →
      c < s.fcollectCount i ∨ i = pe ∧ c = s.fcollectCount pe := by
    intro i c hc
    rw [hcount] at hc
    split at hc
    next heq =>
      subst heq
      omega
    next => exact .inl hc
  constructor
  · exact hi.box.mono fun q hret i => (hret i).trans_le (hmono i)
  · exact fun hq => ⟨(hi.sent_le hq).1, (hi.sent_le hq).2.trans (hmono _)⟩
  · intro q hq hcall
    rcases hlt hcall with hcall | ⟨rfl, hcall⟩
    · exact hi.sent hq hcall
    · have := (hdone q.dst q.idx (hcall ▸ hq)).1
      rwa [← hcall] at this
  · intro q v hv
    obtain ⟨hq, hqle, hrest⟩ := hi.accepted hv
    exact ⟨hq, hqle.trans (hmono _), hrest⟩
  · intro q hq hcall
    rcases hlt hcall with hcall | ⟨rfl, hcall⟩
    · exact hi.received hq hcall
    · have := (hdone q.src q.idx (hcall ▸ hq)).2
      rwa [← hcall] at this
  · exact hi.packed
  · intro i
    rw [hcount]
    split
    · omega
    · exact hi.count_le i

theorem Inv.step (halt : cfg.Alternating) (ok : s.PutsPacked a) (h : step cfg s a = some t) :
    t.Inv := by
  obtain ⟨he, rfl⟩ := step_eq_some.mp h
  cases a with
  | store p => exact hi.store he ok
  | fetch p => exact hi.fetch he
  | deliver p => exact hi.deliver halt he
  | recv p => exact hi.recv he
  | next pe => exact hi.next he

theorem Inv.correct : s.Correct where
  accepted p v hv := (hi.accepted hv).2.2
  complete p hlt hvalid := by
    obtain ⟨v, hv⟩ := ne_none_iff_exists'.mp (hi.received hvalid hlt)
    rw [hv, (hi.accepted hv).2.2.2]
  unread p harr hnone := by
    refine hi.box.kept harr fun hret => ?_
    have hvalid := (hi.sent_le (p := p) (by rw [harr]; simp)).1
    exact hi.received hvalid (hret p.dst) hnone

end Steps

end State

end Nvshmem.FcollectLL
