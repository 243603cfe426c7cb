import Nvshmem.Coll.AlltoallSignals

/-! # Alltoalls deliver every block

A block is on its way or has arrived when its sender is past the puts, and it has arrived when the
signal that follows it has. So a member that has waited for the signals of all the others has all
their blocks, and nothing else is ever stored.
-/

namespace Nvshmem.Alltoall

open Phases Tables Transition List Option Nat Call Config Packet

variable {cfg : Config} {pe pe' x y : Fin cfg.size} {t t' c c' p i b : ℕ} {op op' : Op}
  {threads : Fin cfg.size → ℕ → Thread Instr} {rest : List Instr} {instr : Instr}
  {s s' : State cfg.size}

theorem copier_lt {w : ℕ} (hw : 0 < w) (ks : List ℕ) (dst src len b : ℕ) :
    copier w ks dst src len b < w := by
  induction ks generalizing dst src len b with
  | nil => exact mod_lt _ hw
  | cons k ks ih =>
    rw [copier]
    split_ifs
    · exact mod_lt _ hw
    · exact ih ..
    · exact ih ..

theorem Op.member_of_target (h : op.target = some i) : op.member = i := by
  cases op with
  | putSignal j | put _ j => exact some.inj h
  | _ => exact nomatch h

theorem Op.phase_of_target (h : op.target = some i) : op.phase = 0 := by
  cases op with
  | putSignal j | put _ j => rfl
  | _ => exact nomatch h

namespace Config

def msgsize (cfg : Config) (c : ℕ) : ℕ := cfg.nelems c * cfg.sizeofT c

def blockAddr (cfg : Config) (c : ℕ) (x : Fin cfg.size) (b : ℕ) : ℤ := (cfg.msgsize c * x + b : ℕ)

theorem blockAddr_inj {b' : ℕ} (hb : b < cfg.msgsize c) (hb' : b' < cfg.msgsize c) :
    cfg.blockAddr c x b = cfg.blockAddr c y b' ↔ x = y ∧ b = b' := by
  constructor
  · intro h
    have h : cfg.msgsize c * x + b = cfg.msgsize c * y + b' := Int.natCast_inj.mp h
    have hx : (x : ℕ) = y := by
      have := congrArg (· / cfg.msgsize c) h
      have hpos : 0 < cfg.msgsize c := zero_lt_of_lt hb
      simpa [mul_add_div hpos, div_eq_of_lt hb, div_eq_of_lt hb'] using this
    rw [hx] at h
    exact ⟨Fin.ext hx, Nat.add_left_cancel h⟩
  · rintro ⟨rfl, rfl⟩
    rfl

def packet (cfg : Config) (c : ℕ) (x y : Fin cfg.size) (b : ℕ) : Packet cfg.size where
  call := c
  src := x
  dst := y
  fromAddr := cfg.blockAddr c y b
  toAddr := cfg.blockAddr c x b
  value := if cfg.direct x y then some (cfg.source c x (cfg.blockAddr c y b)) else none

theorem offset_mul_add (hsound : cfg.Sound) (hc : c < cfg.calls) (pe x : Fin cfg.size) :
    (cfg.call pe c).offset x * cfg.sizeofT c + b = cfg.blockAddr c x b := by
  rw [offset_eq x.isLt (hsound.offset_lt c hc), blockAddr, msgsize]
  change ((cfg.nelems c * (x : ℕ) : ℕ) : ℤ) * _ + _ = _
  push_cast
  ring

theorem packets_eq (hsound : cfg.Sound) (hc : c < cfg.calls) :
    cfg.packets pe t c op (cfg.direct pe (cfg.next pe op.member)) =
      (cfg.bytes pe t c op).map (cfg.packet c pe (cfg.next pe op.member)) := by
  refine map_congr_left fun b _ => ?_
  have hsrc := offset_mul_add (b := b) hsound hc pe (cfg.next pe op.member)
  have hdst := offset_mul_add (b := b) hsound hc pe pe
  rw [packet, ← hsrc, ← hdst]
  rfl

theorem mem_bytes : b ∈ cfg.bytes pe t c op ↔ b < cfg.msgsize c ∧
    copier (op.width (cfg.group pe)) chunks (cfg.address c pe op.member).1
      (cfg.address c pe op.member).2 (cfg.msgsize c) b = t % op.width (cfg.group pe) := by
  rw [bytes, mem_filter, mem_range, decide_eq_true_eq]
  rfl

end Config

def Covers (cfg : Config) (threads : Fin cfg.size → ℕ → Thread Instr) (c : ℕ)
    (x y : Fin cfg.size) (b : ℕ) : Prop :=
  ∃ t < cfg.groupSize x, ∃ op : Op, op.target = some (cfg.dist x y) ∧ Did cfg threads x t c op ∧
    b ∈ cfg.bytes x t c op

section Covers

variable (h : Phases.Inv cfg.prog sync cfg.groupSize threads)

include h

theorem covers_of_lt (hc : c < cfg.calls) (ht : t < cfg.groupSize x)
    (hlt : 6 * c + 1 < (threads x t).phase) (hb : b < cfg.msgsize c) :
    Covers cfg threads c x y b := by
  obtain ⟨op, htarget, hputs⟩ := exists_puts (c := cfg.call x c) (i := cfg.dist x y)
    dist_lt
  obtain ⟨t', ht', hmem, hlane⟩ := hputs _ (copier_lt (Op.width_pos _ op) chunks
    (cfg.address c x op.member).1 (cfg.address c x op.member).2 (cfg.msgsize c) b)
  have hphase := Op.phase_of_target htarget
  refine ⟨t', ht', op, htarget, did_of_lt h (by omega) ht (by omega) ht' hc ?_, ?_⟩
  · rw [hphase]
    exact hmem
  · exact mem_bytes.mpr ⟨hb, hlane.symm⟩

theorem covers_of_posted (hposted : Posted cfg threads c x y) (hb : b < cfg.msgsize c) :
    Covers cfg threads c x y b := by
  rw [Posted, signalOp] at hposted
  split_ifs at hposted with hdirect
  · refine covers_of_lt h hposted.mem.1 threadOf_lt (lt_of_lt_of_le ?_ hposted.le_phase) hb
    rw [Op.phase]
    omega
  · refine ⟨_, threadOf_lt, _, rfl, hposted, mem_bytes.mpr ⟨hb, ?_⟩⟩
    -- the network carries the block as a whole
    exact (lt_one_iff.mp (copier_lt Nat.one_pos ..)).trans (mod_one _).symm

theorem not_posted_of_put (ht : t < cfg.groupSize pe)
    (htodo : (threads pe t).todo = .op op :: rest) (htarget : op.target = some i)
    (hposted : Posted cfg threads ((threads pe t).phase / 6) pe (cfg.next pe i)) : False := by
  obtain ⟨hcall, hphase, hmem⟩ := phase_of_todo h htodo
  have hzero := Op.phase_of_target htarget
  rw [Posted, signalOp] at hposted
  split_ifs at hposted with hdirect
  · -- the signal is sent after the puts
    have hle := phase_le_of_todo h htodo (by omega) ht
      (threadOf_lt (x := pe) (y := cfg.next pe i))
    have := hposted.le_phase
    rw [Op.phase] at this
    omega
  · cases op with
    | putSignal j =>
      obtain rfl := some.inj htarget
      obtain ⟨-, hj, hthread, -⟩ := (mem_phase_putSignal ht).mp hmem
      rw [threadOf, dist_next hj] at hposted
      obtain rfl : j % cfg.groupSize pe = t := hthread
      exact not_did_of_todo h htodo hposted
    | put scope j =>
      obtain rfl := some.inj htarget
      exact hdirect (of_mem_phase_put ht hmem).2.2
    | _ => exact some_ne_none i htarget.symm

end Covers

/-- The bytes on their way are those of the blocks, and only they have been stored. A byte that has
been put is on its way or stored. Nothing of a block is on its way when the signal that follows it
has arrived, and nothing that the network carries when its sender has executed a quiet. -/
structure Data (cfg : Config) (s : State cfg.size) : Prop where
  flying : ∀ p ∈ s.flying, ∃ c x y b, c < cfg.calls ∧ b < cfg.msgsize c ∧ p = cfg.packet c x y b
  dest : ∀ c y a v, s.dest c y a = some v → ∃ x b, b < cfg.msgsize c ∧ a = cfg.blockAddr c x b ∧
    v = cfg.source c x (cfg.blockAddr c y b)
  covered : ∀ c x y b, Covers cfg s.threads c x y b →
    cfg.packet c x y b ∈ s.flying ∨ s.dest c y (cfg.blockAddr c x b) ≠ none
  settled : ∀ c x y, cfg.signal c x y ∈ s.arrived →
    ∀ p ∈ s.flying, ¬ (p.call = c ∧ p.src = x ∧ p.dst = y)
  quieted : ∀ x, ∀ t < cfg.groupSize x, ∀ c scope, Did cfg s.threads x t c (.quiet scope) →
    ∀ p ∈ s.flying, p.call = c → p.src = x → p.value ≠ none

namespace Data

theorem start : Data cfg (State.start cfg) where
  flying := fun _ hp => absurd hp not_mem_nil
  dest := fun _ _ _ _ hv => nomatch hv
  covered := by
    rintro c x y b ⟨t, -, op, -, hdid, -⟩
    exact absurd hdid did_start
  settled := fun _ _ _ hg => absurd hg not_mem_nil
  quieted := fun _ _ _ _ _ hdid => absurd hdid did_start

variable (hd : Data cfg s)

include hd

theorem of_did_imp {threads' : Fin cfg.size → ℕ → Thread Instr}
    (hput : ∀ x t c op, op.phase = 0 → Did cfg threads' x t c op → Did cfg s.threads x t c op)
    (hquiet : ∀ x, ∀ t < cfg.groupSize x, ∀ c scope, Did cfg threads' x t c (.quiet scope) →
      ∀ p ∈ s.flying, p.call = c → p.src = x → p.value ≠ none) :
    Data cfg { s with threads := threads' } where
  flying := hd.flying
  dest := hd.dest
  covered := by
    rintro c x y b ⟨t, ht, op, htarget, hdid, hb⟩
    exact hd.covered c x y b
      ⟨t, ht, op, htarget, hput x t c op (Op.phase_of_target htarget) hdid, hb⟩
  settled := hd.settled
  quieted := hquiet

section Step

variable (h : Phases.Inv cfg.prog sync cfg.groupSize s.threads)

include h

theorem exec_get (ht : t < cfg.groupSize pe) (htodo : (s.threads pe t).todo = instr :: rest)
    (hinstr : instr = .getPsync ∨ instr = .getPwrk) :
    Data cfg { s with threads := exec s.threads pe t } :=
  hd.of_did_imp (fun _ _ _ _ _ hdid => (did_exec_get_iff h ht htodo hinstr).mp hdid)
    fun x t' ht' c scope hdid =>
      hd.quieted x t' ht' c scope ((did_exec_get_iff h ht htodo hinstr).mp hdid)

theorem exec (ht : t < cfg.groupSize pe) (htodo : (s.threads pe t).todo = .op op :: rest)
    (hop : op.phase ≠ 0)
    (hquiet : ∀ scope, op = .quiet scope → ∀ p ∈ s.flying, p.src = pe → p.value ≠ none) :
    Data cfg { s with threads := exec s.threads pe t } := by
  refine hd.of_did_imp (fun x t' c op' hop' hdid => ?_) ?_
  · refine ((did_exec_iff h ht htodo).mp hdid).resolve_right ?_
    rintro ⟨-, -, -, rfl⟩
    exact hop hop'
  · intro x t' ht' c scope hdid p hp hcall hsrc
    rcases (did_exec_iff h ht htodo).mp hdid with hdid | ⟨rfl, -, -, hop⟩
    · exact hd.quieted x t' ht' c scope hdid p hp hcall hsrc
    · exact hquiet scope hop.symm p hp hsrc

theorem put (hsound : cfg.Sound) (hs : Signals cfg s) (ht : t < cfg.groupSize pe)
    (htodo : (s.threads pe t).todo = .op op :: rest) (htarget : op.target = some i) :
    Data cfg { s with
      threads := Phases.exec s.threads pe t
      flying := s.flying ++ cfg.packets pe t (s.callOf cfg pe t) op
        (cfg.direct pe (cfg.next pe op.member)) } := by
  obtain ⟨hcall, hphase, hmem⟩ := phase_of_todo h htodo
  have hzero := Op.phase_of_target htarget
  have hmember := Op.member_of_target htarget
  rw [packets_eq hsound (c := s.callOf cfg pe t) hcall, hmember]
  have hnew : ∀ p ∈ s.flying ++ (cfg.bytes pe t (s.callOf cfg pe t) op).map
      (cfg.packet (s.callOf cfg pe t) pe (cfg.next pe i)), p ∈ s.flying ∨
        ∃ b < cfg.msgsize (s.callOf cfg pe t),
          p = cfg.packet (s.callOf cfg pe t) pe (cfg.next pe i) b := by
    intro p hp
    refine (mem_append.mp hp).imp_right fun hp => ?_
    obtain ⟨b, hb, rfl⟩ := mem_map.mp hp
    exact ⟨b, (mem_bytes.mp hb).1, rfl⟩
  constructor
  · intro p hp
    rcases hnew p hp with hp | ⟨b, hb, rfl⟩
    · exact hd.flying p hp
    · exact ⟨_, pe, _, b, hcall, hb, rfl⟩
  · exact hd.dest
  · rintro c x y b ⟨t', ht', op', htarget', hdid, hb⟩
    rcases (did_exec_iff h ht htodo).mp hdid with hdid | ⟨rfl, rfl, rfl, rfl⟩
    · exact (hd.covered c x y b ⟨t', ht', op', htarget', hdid, hb⟩).imp_left
        (mem_append_left _)
    · obtain rfl : i = cfg.dist x y := some.inj (htarget.symm.trans htarget')
      rw [next_dist]
      exact Or.inl (mem_append_right _ (mem_map_of_mem hb))
  · intro c x y harrived p hp hpacket
    rcases hnew p hp with hp | ⟨b, hb, rfl⟩
    · exact hd.settled c x y harrived p hp hpacket
    · obtain ⟨rfl, rfl, rfl⟩ := hpacket
      exact not_posted_of_put h ht htodo htarget (hs.posted harrived)
  · intro x t' ht' c scope hdid p hp hc hsrc
    have hdid : Did cfg s.threads x t' c (.quiet scope) := by
      refine ((did_exec_iff h ht htodo).mp hdid).resolve_right ?_
      rintro ⟨-, -, -, rfl⟩
      exact nomatch htarget
    rcases hnew p hp with hp | ⟨b, hb, rfl⟩
    · exact hd.quieted x t' ht' c scope hdid p hp hc hsrc
    · -- the quiet is executed after the puts
      obtain rfl : s.callOf cfg pe t = c := hc
      obtain rfl : pe = x := hsrc
      have hle := phase_le_of_todo h htodo (by omega) ht ht'
      have := hdid.le_phase
      rw [Op.phase, State.callOf] at this
      omega

/-- The network reads a block before `source` can be reused. -/
theorem read_packet (hsound : cfg.Sound) (hc : c < cfg.calls)
    (hmem : cfg.packet c x y b ∈ s.flying) {other : BitVec 8} :
    s.read cfg (cfg.packet c x y b) other = cfg.source c x (cfg.blockAddr c y b) := by
  by_cases hdirect : cfg.direct x y = true
  · have hvalue : (cfg.packet c x y b).value = some (cfg.source c x (cfg.blockAddr c y b)) :=
      if_pos hdirect
    rw [State.read, hvalue]
  · have hvalue : (cfg.packet c x y b).value = none := if_neg hdirect
    rw [State.read, hvalue]
    refine if_neg ?_
    rintro ⟨t, ht, hle⟩
    obtain ⟨t', ht', scope, hquiet⟩ := exists_quiet (c := cfg.call x c)
      (hsound.quiets x ⟨y, Bool.eq_false_iff.mpr hdirect⟩)
    have hle : 6 * (c + 1) ≤ (s.threads x t).phase := hle
    have hpast : 6 * c + (3 + 1) < (s.threads x t).phase := by omega
    have hdid : Did cfg s.threads x t' c (.quiet scope) :=
      did_of_lt h (lt_succ_self 3) ht hpast ht' hc hquiet
    exact hd.quieted x t' ht' c scope hdid _ hmem rfl rfl hvalue

theorem deliver (hsound : cfg.Sound) {k : ℕ} {p : Packet cfg.size} {other : BitVec 8}
    (hk : s.flying[k]? = some p) :
    Data cfg { s with
      flying := s.flying.eraseIdx k
      dest := set₃ s.dest p.call p.dst p.toAddr (some (s.read cfg p other)) } := by
  have hmem := mem_of_getElem? hk
  obtain ⟨c, x, y, b, hc, hb, rfl⟩ := hd.flying p hmem
  have hperm : (cfg.packet c x y b :: s.flying.eraseIdx k).Perm s.flying := by
    obtain ⟨hlt, heq⟩ := List.getElem?_eq_some_iff.mp hk
    rw [← heq]
    exact getElem_cons_eraseIdx_perm hlt
  have hsub : ∀ p ∈ s.flying.eraseIdx k, p ∈ s.flying := fun p hp =>
    hperm.mem_iff.mp (mem_cons_of_mem _ hp)
  constructor
  · exact fun p hp => hd.flying p (hsub p hp)
  · intro c' y' a v hv
    dsimp only at hv
    rw [set₃_apply] at hv
    split_ifs at hv with heq
    · obtain ⟨rfl, rfl, rfl⟩ := heq
      rw [hd.read_packet h hsound hc hmem] at hv
      exact ⟨x, b, hb, rfl, (some.inj hv).symm⟩
    · exact hd.dest c' y' a v hv
  · intro c' x' y' b' hcovers
    dsimp only
    rw [set₃_apply]
    split_ifs with heq
    · exact Or.inr (some_ne_none _)
    · refine (hd.covered c' x' y' b' hcovers).imp_left fun hpacket => ?_
      refine (mem_cons.mp (hperm.mem_iff.mpr hpacket)).resolve_left fun hpacket => heq ?_
      exact ⟨congrArg call hpacket, congrArg dst hpacket,
        congrArg toAddr hpacket⟩
  · exact fun c x y harrived p hp => hd.settled c x y harrived p (hsub p hp)
  · exact fun x t ht c scope hdid p hp => hd.quieted x t ht c scope hdid p (hsub p hp)

omit h in
theorem deliverSignal {k : ℕ} {g : Signal cfg.size} (hdeliver : s.CanDeliver cfg g) :
    Data cfg { s with
      signals := s.signals.eraseIdx k
      psync := set₂ s.psync g.dst g.index ((s.psync g.dst g.index + 1) % 2 ^ 64)
      arrived := s.arrived ++ [g] } where
  flying := hd.flying
  dest := hd.dest
  covered := hd.covered
  settled := by
    intro c x y harrived p hp
    rcases mem_append.mp harrived with harrived | harrived
    · exact hd.settled c x y harrived p hp
    · rw [← mem_singleton.mp harrived] at hdeliver
      exact hdeliver p hp
  quieted := hd.quieted

theorem step (hsound : cfg.Sound) (hs : Signals cfg s) (hmoved : s.Moved cfg s') :
    Data cfg s' := by
  cases hmoved with
  | getPsync ht htodo _ =>
    have h' := hd.exec_get h ht htodo (Or.inl rfl)
    exact ⟨h'.flying, h'.dest, h'.covered, h'.settled, h'.quieted⟩
  | getPwrk ht htodo _ =>
    have h' := hd.exec_get h ht htodo (Or.inr rfl)
    exact ⟨h'.flying, h'.dest, h'.covered, h'.settled, h'.quieted⟩
  | @putSignal pe t i rest ht htodo =>
    have hdirect : cfg.direct pe (cfg.next pe i) = false :=
      ((mem_phase_putSignal ht).mp (phase_of_todo h htodo).2.2).2.2.2
    have h' := hd.put h hsound hs ht htodo rfl
    rw [Op.member, hdirect] at h'
    exact ⟨h'.flying, h'.dest, h'.covered, h'.settled, h'.quieted⟩
  | @put pe t i scope rest ht htodo =>
    have hdirect : cfg.direct pe (cfg.next pe i) = true :=
      (of_mem_phase_put ht (phase_of_todo h htodo).2.2).2.2
    have h' := hd.put h hsound hs ht htodo rfl
    rw [Op.member, hdirect] at h'
    exact h'
  | addPwrk ht htodo | signal ht htodo | wait ht htodo _ | addCount ht htodo =>
    have h' := hd.exec h ht htodo (succ_ne_zero _) fun _ => (nomatch ·)
    exact ⟨h'.flying, h'.dest, h'.covered, h'.settled, h'.quieted⟩
  | quiet ht htodo hflying =>
    exact hd.exec h ht htodo (succ_ne_zero _) fun _ _ => hflying
  | pass _ _ hpass =>
    exact hd.of_did_imp (fun _ _ _ _ _ hdid => (did_pass_iff hpass.1).mp hdid)
      fun x t ht c scope hdid => hd.quieted x t ht c scope ((did_pass_iff hpass.1).mp hdid)
  | deliver hk => exact hd.deliver h hsound hk
  | deliverSignal _ hdeliver => exact hd.deliverSignal hdeliver

end Step

end Data

structure Inv (cfg : Config) (s : State cfg.size) : Prop where
  counters : Counters cfg s
  signals : Signals cfg s
  data : Data cfg s

namespace Inv

theorem start : Inv cfg (State.start cfg) := ⟨.start, .start, .start⟩

theorem step (h : Inv cfg s) (hsound : cfg.Sound) (hmoved : s.Moved cfg s') : Inv cfg s' where
  counters := h.counters.step hmoved
  signals := h.signals.step h.counters hsound hmoved
  data := h.data.step h.counters.phases hsound h.signals hmoved

end Inv

/-- A member that has returned from a call has the block of every member for it, and no byte of the
call is on its way to it any more. Only bytes of the blocks are stored, at their places. A member
past its puts has sent every byte of every block. A wait that is over has been for the signal of its
own call. -/
structure State.Correct (cfg : Config) (s : State cfg.size) : Prop where
  returned : ∀ c < cfg.calls, ∀ y, s.Returned cfg y c → ∀ x, ∀ b < cfg.msgsize c,
    s.dest c y (cfg.blockAddr c x b) = some (cfg.source c x (cfg.blockAddr c y b))
  settled : ∀ c < cfg.calls, ∀ y, s.Returned cfg y c →
    ∀ p ∈ s.flying, ¬ (p.call = c ∧ p.dst = y)
  stored : ∀ c y a v, s.dest c y a = some v → ∃ x, ∃ b < cfg.msgsize c, a = cfg.blockAddr c x b ∧
    v = cfg.source c x (cfg.blockAddr c y b)
  sent : ∀ c < cfg.calls, ∀ x, (∃ t < cfg.groupSize x, 6 * c + 1 < (s.threads x t).phase) →
    ∀ y, ∀ b < cfg.msgsize c, s.dest c y (cfg.blockAddr c x b) ≠ none ∨
      ∃ p ∈ s.flying, p.call = c ∧ p.src = x ∧ p.dst = y ∧ p.toAddr = cfg.blockAddr c x b
  waited : ∀ y, ∀ t < cfg.groupSize y, ∀ c i, Did cfg s.threads y t c (.wait i) →
    ∃ g ∈ s.arrived, g.call = c ∧ g.src = cfg.next y i ∧ g.dst = y

namespace Inv

variable (h : Inv cfg s)

include h

theorem mem_arrived_of_returned (hc : c < cfg.calls) (hreturned : s.Returned cfg y c)
    (x : Fin cfg.size) : cfg.signal c x y ∈ s.arrived := by
  obtain ⟨t, ht, hle⟩ := hreturned
  have hmem : Op.wait (cfg.dist y x) ∈ (cfg.call y c).phase (cfg.threadOf y x) 3 :=
    (mem_phase_wait threadOf_lt).mpr ⟨rfl, dist_lt, rfl⟩
  have hpast : 6 * c + (3 + 1) < (s.threads y t).phase := by omega
  have hwait : Did cfg s.threads y (cfg.threadOf y x) c (.wait (cfg.dist y x)) :=
    did_of_lt h.counters.phases (lt_succ_self 3) ht hpast threadOf_lt hc hmem
  have harrived := h.signals.waited y _ threadOf_lt c _ hwait
  rwa [next_dist] at harrived

theorem dest_of_arrived (harrived : cfg.signal c x y ∈ s.arrived) (hb : b < cfg.msgsize c) :
    s.dest c y (cfg.blockAddr c x b) = some (cfg.source c x (cfg.blockAddr c y b)) := by
  have hcovers := covers_of_posted h.counters.phases (h.signals.posted harrived) hb
  rcases h.data.covered c x y b hcovers with hflying | hdest
  · exact absurd ⟨rfl, rfl, rfl⟩ (h.data.settled c x y harrived _ hflying)
  · obtain ⟨v, hv⟩ := ne_none_iff_exists'.mp hdest
    obtain ⟨x', b', hb', haddr, rfl⟩ := h.data.dest c y _ v hv
    obtain ⟨rfl, rfl⟩ := (blockAddr_inj hb hb').mp haddr
    exact hv

theorem correct : s.Correct cfg where
  returned := fun _ hc _ hreturned x _ hb =>
    h.dest_of_arrived (h.mem_arrived_of_returned hc hreturned x) hb
  settled := by
    rintro c hc y hreturned p hp ⟨rfl, rfl⟩
    exact h.data.settled _ _ _ (h.mem_arrived_of_returned hc hreturned p.src) p hp ⟨rfl, rfl, rfl⟩
  stored := by
    intro c y a v hv
    obtain ⟨x, b, hb, ha, hv⟩ := h.data.dest c y a v hv
    exact ⟨x, b, hb, ha, hv⟩
  sent := by
    rintro c hc x ⟨t, ht, hlt⟩ y b hb
    have hcovers := covers_of_lt h.counters.phases (y := y) hc ht hlt hb
    refine (h.data.covered c x y b hcovers).symm.imp_right fun hflying => ?_
    exact ⟨_, hflying, rfl, rfl, rfl, rfl⟩
  waited := fun y t ht c i hdid => ⟨_, h.signals.waited y t ht c i hdid, rfl, rfl, rfl⟩

end Inv

end Nvshmem.Alltoall
