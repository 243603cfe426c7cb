import Nvshmem.Coll.Broadcast
import Nvshmem.Lists.Update

/-! # Words of tree broadcasts are not confused

Every PE but the root has one parent in the tree. Without a barrier broadcasts take
different pieces of the psync area, and a PE passes a barrier only when all PEs have
finished the broadcasts before. So words stay until all PEs have finished their broadcast.
As long as the flags do not wrap around, words and signals of one broadcast are not taken
for those of another one.
-/

namespace Nvshmem.Broadcast

open Transition Mailbox Option Function List Nat Bcast Config Status

section Tree

variable {size : ℕ} {b : Bcast size} {k m i : ℕ} {pe dst : Fin size}

def Bcast.rel (b : Bcast size) (pe : Fin size) : ℕ := (pe + (size - b.root)) % size

theorem Bcast.rel_lt : b.rel pe < size := mod_lt _ pe.pos

theorem Bcast.rel_of_lt (hm : m < size) :
    b.rel ⟨(m + b.root) % size, mod_lt _ (zero_lt_of_lt hm)⟩ = m := by
  rw [rel, mod_add_mod, show m + b.root + (size - b.root) = m + size by omega,
    add_mod_right, mod_eq_of_lt hm]

theorem Bcast.rel_add_root : (b.rel pe + b.root) % size = pe := by
  rw [rel, mod_add_mod, show pe + (size - b.root) + b.root = pe + size by omega,
    add_mod_right, mod_eq_of_lt pe.isLt]

theorem Bcast.rel_injective : Function.Injective b.rel := by
  intro pe pe' h
  apply Fin.ext
  rw [← @rel_add_root size b pe, h, rel_add_root]

theorem Bcast.rel_eq_zero_iff : b.rel pe = 0 ↔ pe = b.root := by
  have hroot : b.rel b.root = 0 := by
    rw [rel, Nat.add_sub_cancel' b.root.isLt.le, mod_self]
  rw [← hroot]
  exact b.rel_injective.eq_iff

theorem Bcast.mem_loop {a n : ℕ} :
    i ∈ (range k).takeWhile (a + · + 1 < n) ↔ i < k ∧ a + i + 1 < n := by
  have hpred : (fun i => decide (a + i + 1 < n)) = fun i => decide (i < n - (a + 1)) := by
    funext i
    exact decide_eq_decide.mpr (by omega)
  rw [hpred, Lists.mem_takeWhile_lt (pairwise_lt_range.imp Nat.le_of_lt), mem_range]
  omega

theorem Bcast.mem_children_iff :
    dst ∈ b.children k pe ↔ ∃ i < k, b.rel dst = b.rel pe * k + i + 1 := by
  unfold children
  rw [List.mem_map]
  constructor
  · rintro ⟨i, hi, rfl⟩
    obtain ⟨hik, hlt⟩ := mem_loop.mp hi
    exact ⟨i, hik, rel_of_lt hlt⟩
  · rintro ⟨i, hik, hrel⟩
    refine ⟨i, mem_loop.mpr ⟨hik, ?_⟩, ?_⟩
    · exact (hrel ▸ rel_lt :)
    · apply Fin.ext
      change (b.rel pe * k + i + 1 + b.root) % size = dst
      rw [← hrel, rel_add_root]

theorem Bcast.nodup_children : (b.children k pe).Nodup := by
  refine List.Nodup.map_on ?_ (nodup_range.sublist (takeWhile_sublist _))
  intro i hi j hj heq
  obtain ⟨-, hlt⟩ := mem_loop.mp hi
  obtain ⟨-, hlt'⟩ := mem_loop.mp hj
  have hrel := (rel_of_lt hlt).symm.trans ((congrArg b.rel heq).trans (rel_of_lt hlt'))
  omega

theorem Bcast.rel_parent (h : dst ∈ b.children k pe) :
    b.rel dst ≠ 0 ∧ b.rel pe = (b.rel dst - 1) / k := by
  obtain ⟨i, hi, hrel⟩ := mem_children_iff.mp h
  rw [hrel, Nat.add_sub_cancel, mul_comm, mul_add_div (zero_lt_of_lt hi),
    div_eq_of_lt hi]
  exact ⟨succ_ne_zero _, rfl⟩

theorem Bcast.existsUnique_parent (hk : 0 < k) (h : dst ≠ b.root) :
    ∃! pe, dst ∈ b.children k pe := by
  have hpos : b.rel dst ≠ 0 := mt rel_eq_zero_iff.mp h
  have hlt : (b.rel dst - 1) / k < size := by
    have := @rel_lt size b dst
    exact (Nat.div_le_self _ _).trans_lt (by omega)
  refine ⟨⟨((b.rel dst - 1) / k + b.root) % size, mod_lt _ dst.pos⟩, ?_, ?_⟩
  · refine mem_children_iff.mpr ⟨(b.rel dst - 1) % k, mod_lt _ hk, ?_⟩
    rw [rel_of_lt hlt, div_add_mod']
    omega
  · intro pe hpe
    apply b.rel_injective
    rw [rel_of_lt hlt, (rel_parent hpe).2]

theorem Bcast.root_notMem_children : b.root ∉ b.children k pe := fun h =>
  (rel_parent h).1 (rel_eq_zero_iff.mpr rfl)

theorem Bcast.rel_lt_of_mem_children (h : dst ∈ b.children k pe) : b.rel pe < b.rel dst := by
  obtain ⟨i, hi, hrel⟩ := mem_children_iff.mp h
  have := Nat.le_mul_of_pos_right (b.rel pe) (zero_lt_of_lt hi)
  omega

theorem Bcast.eq_root_of_mem_children (h : dst ∈ b.children (size - 1) pe) : pe = b.root := by
  obtain ⟨i, hi, hrel⟩ := mem_children_iff.mp h
  have hlt := @rel_lt size b dst
  refine rel_eq_zero_iff.mp (Nat.eq_zero_of_not_pos fun hpos => ?_)
  have := Nat.le_mul_of_pos_left (size - 1) hpos
  omega

end Tree

section Layout

variable {size : ℕ} {b : Bcast size} {offset c d : ℕ}

theorem Bcast.words_le_increment : 8 * b.words ≤ b.increment := by
  unfold words increment
  split
  · rw [mul_comm b.sizeofT]
    omega
  · decide

theorem Bcast.units_eq_words (h : b.algo = .tree) : b.units = b.words := by
  obtain ⟨hmod, -⟩ := b.fits h
  obtain ⟨m, hm⟩ := dvd_of_mod_eq_zero hmod
  unfold units words
  rw [h, hm, mul_left_comm]
  dsimp only
  omega

end Layout

namespace Config

variable {cfg : Config} {p q : Packet cfg.size} {b : Bcast cfg.size} {c d : ℕ}
  {pe dst : Fin cfg.size}

theorem pos_of_bcast (h : cfg.bcast? c = some b) : 0 < c := by
  refine Nat.pos_of_ne_zero fun h0 => ?_
  rw [bcast?, if_pos h0] at h
  exact some_ne_none _ h.symm

theorem le_of_bcast (h : cfg.bcast? c = some b) : c ≤ cfg.bcasts.length := by
  have hpos := pos_of_bcast h
  rw [bcast?, if_neg hpos.ne'] at h
  have := (List.getElem?_eq_some_iff.mp h).1
  omega

def Valid (cfg : Config) (p : Packet cfg.size) : Prop := p.idx < cfg.words p.bcast

theorem Valid.exists_bcast (h : cfg.Valid p) :
    ∃ b, cfg.bcast? p.bcast = some b ∧ p.idx < b.words := by
  unfold Valid words at h
  cases hb : cfg.bcast? p.bcast with
  | none =>
    rw [hb] at h
    exact absurd h (Nat.not_lt_zero _)
  | some b =>
    rw [hb] at h
    exact ⟨b, rfl, h⟩

theorem bcastSyncOffset_le (hcd : c ≤ d) (h : ∀ e, c < e → e ≤ d → ¬ cfg.Barrier e) :
    cfg.bcastSyncOffset c ≤ cfg.bcastSyncOffset d := by
  induction d, hcd using le_induction with
  | base => exact le_rfl
  | succ d hcd ih =>
    refine (ih fun e he hle => h e he (by omega)).trans ?_
    rw [bcastSyncOffset]
    cases hb : cfg.bcast? (d + 1) with
    | none => exact le_rfl
    | some b =>
      have hnot : ¬ b.TakesBarrier (cfg.bcastSyncOffset d) := fun hbar =>
        h (d + 1) (by omega) le_rfl ⟨b, hb, hbar⟩
      rw [elim_some, recvOffset, if_neg hnot]
      exact Nat.le_add_right _ _

/-- Packets for the same word are the same if they belong to the same broadcast, and otherwise
there has been a barrier in between. -/
theorem Valid.of_place_eq (hp : cfg.Valid p) (hq : cfg.Valid q)
    (h : cfg.place p = cfg.place q) (hle : p.bcast ≤ q.bcast) :
    p = q ∨ p.bcast < q.bcast ∧ ∃ d, p.bcast < d ∧ d ≤ q.bcast ∧ cfg.Barrier d := by
  obtain ⟨b, hb, hpb⟩ := hp.exists_bcast
  obtain ⟨b', hb', hqb⟩ := hq.exists_bcast
  obtain ⟨hdst, haddr⟩ := Prod.mk.inj h
  rw [hb, hb', elim_some, elim_some] at haddr
  rcases Nat.lt_or_eq_of_le hle with hlt | heq
  · refine .inr ⟨hlt, ?_⟩
    by_contra hnone
    push Not at hnone
    have hpos := pos_of_bcast hb
    have hmono : cfg.bcastSyncOffset p.bcast ≤ cfg.bcastSyncOffset (q.bcast - 1) :=
      bcastSyncOffset_le (by omega) fun e he hle => hnone e he (by omega)
    have hnot : ¬ b'.TakesBarrier (cfg.bcastSyncOffset (q.bcast - 1)) := fun hbar =>
      hnone q.bcast hlt le_rfl ⟨b', hb', hbar⟩
    have hsucc : cfg.bcastSyncOffset p.bcast =
        b.recvOffset (cfg.bcastSyncOffset (p.bcast - 1)) + b.increment := by
      obtain ⟨c, hc⟩ := Nat.exists_eq_add_of_lt hpos
      rw [hc] at hb ⊢
      rw [bcastSyncOffset, hb]
      rfl
    have hwords := b.words_le_increment
    rw [show b'.recvOffset (cfg.bcastSyncOffset (q.bcast - 1)) = _ from if_neg hnot] at haddr
    omega
  · refine .inl ?_
    rw [← heq, hb] at hb'
    cases hb'
    cases p
    cases q
    simp_all

section Flags

variable (hlen : cfg.bcasts.length + 1 < 2 ^ 32)
include hlen

theorem toNat_llFlag (h : cfg.bcast? c = some b) : (llFlag c).toNat = c + 1 := by
  have := le_of_bcast h
  exact mod_eq_of_lt (by omega)

theorem llFlag_ne_zero (h : cfg.bcast? c = some b) : llFlag c ≠ 0 := by
  intro h0
  have := toNat_llFlag hlen h
  rw [h0] at this
  exact succ_ne_zero c this.symm

theorem llFlag_inj {b' : Bcast cfg.size} (h : cfg.bcast? c = some b)
    (h' : cfg.bcast? d = some b') (heq : llFlag c = llFlag d) : c = d := by
  have := congrArg BitVec.toNat heq
  rw [toNat_llFlag hlen h, toNat_llFlag hlen h'] at this
  omega

theorem Valid.not_accepts_init (hp : cfg.Valid p) : cfg.accepts p ⟨0, 0⟩ ≠ true := by
  obtain ⟨b, hb, -⟩ := hp.exists_bcast
  have hne := llFlag_ne_zero hlen hb
  rw [accepts, hb, any_some, Bcast.accepts]
  split <;> simpa using hne.symm

theorem Valid.bcast_eq_of_accepts (hp : cfg.Valid p) (hq : cfg.Valid q)
    (h : cfg.accepts p (cfg.content q) = true) : q.bcast = p.bcast := by
  obtain ⟨b, hb, -⟩ := hp.exists_bcast
  obtain ⟨b', hb', -⟩ := hq.exists_bcast
  rw [accepts, content, hb, hb', any_some, elim_some, Bcast.accepts,
    Bcast.word] at h
  refine llFlag_inj hlen hb' hb ?_
  cases halgo : b.algo <;> cases halgo' : b'.algo <;>
    simp only [halgo, halgo', decide_eq_true_eq, Word.mk.injEq] at h
  · exact h
  · exact absurd h.symm (llFlag_ne_zero hlen hb)
  · exact absurd h.2 (llFlag_ne_zero hlen hb')
  · exact h.1

end Flags

def rank (cfg : Config) (c : ℕ) (pe : Fin cfg.size) : ℕ := (cfg.bcast? c).elim 0 fun b => b.rel pe

theorem mem_children (hb : cfg.bcast? c = some b) :
    dst ∈ cfg.children c pe ↔ dst ∈ b.children (b.radix cfg.bcastTreeKval) pe := by
  rw [children, hb]
  rfl

theorem exists_bcast_of_mem_children (h : dst ∈ cfg.children c pe) :
    ∃ b, cfg.bcast? c = some b := by
  cases hb : cfg.bcast? c with
  | none =>
    rw [children, hb] at h
    exact absurd h not_mem_nil
  | some b => exact ⟨b, rfl⟩

theorem isRoot_iff (hb : cfg.bcast? c = some b) : cfg.IsRoot c pe ↔ b.root = pe := by
  simp [IsRoot, hb]

theorem isTree_iff (hb : cfg.bcast? c = some b) : cfg.IsTree c ↔ b.algo = .tree := by
  simp [IsTree, hb]

theorem not_isRoot_of_mem_children (h : dst ∈ cfg.children c pe) : ¬ cfg.IsRoot c dst := by
  obtain ⟨b, hb⟩ := exists_bcast_of_mem_children h
  rw [mem_children hb] at h
  rw [isRoot_iff hb]
  rintro rfl
  exact root_notMem_children h

theorem existsUnique_parent (hb : cfg.bcast? c = some b) (h : ¬ cfg.IsRoot c dst) :
    ∃! pe, dst ∈ cfg.children c pe := by
  have hne : dst ≠ b.root := fun heq => h ((isRoot_iff hb).mpr heq.symm)
  have hradix : 0 < b.radix cfg.bcastTreeKval := by
    unfold Bcast.radix
    split
    · exact cfg.kval_pos
    · omega
  simp only [mem_children hb]
  exact Bcast.existsUnique_parent hradix hne

theorem rank_lt_of_mem_children (h : dst ∈ cfg.children c pe) : cfg.rank c pe < cfg.rank c dst := by
  obtain ⟨b, hb⟩ := exists_bcast_of_mem_children h
  rw [mem_children hb] at h
  rw [rank, rank, hb]
  exact rel_lt_of_mem_children h

theorem isRoot_of_mem_children (htree : ¬ cfg.IsTree c) (h : dst ∈ cfg.children c pe) :
    cfg.IsRoot c pe := by
  obtain ⟨b, hb⟩ := exists_bcast_of_mem_children h
  rw [mem_children hb] at h
  rw [isTree_iff hb] at htree
  rw [isRoot_iff hb]
  unfold radix at h
  split at h
  next halgo => exact absurd halgo htree
  next => exact (eq_root_of_mem_children h).symm

end Config

namespace State

variable {cfg : Config} {s t : State cfg} {a : Action cfg} {p q : Packet cfg.size} {c d : ℕ}
  {pe dst : Fin cfg.size}

def Started (s : State cfg) (c : ℕ) (pe : Fin cfg.size) : Prop :=
  c < s.bcastCount pe ∨ c = s.bcastCount pe ∧ s.passed pe = true

def Retired (s : State cfg) (p : Packet cfg.size) : Prop := ∀ pe, p.bcast < s.bcastCount pe

def Sent (s : State cfg) (p : Packet cfg.size) : Prop :=
  cfg.IsRoot p.bcast p.dst ∧ cfg.IsTree p.bcast ∧ s.Started p.bcast p.dst ∨
    ∃ pe, p.dst ∈ cfg.children p.bcast pe ∧ s.Started p.bcast pe ∧ s.HasMessage p.bcast pe

structure Inv (s : State cfg) : Prop where
  box : Mailbox.Inv cfg.place cfg.content (fun _ => ⟨0, 0⟩) s.Retired s.box
  valid : ∀ {p}, s.box.status p ≠ .idle → cfg.Valid p
  sent : ∀ {p}, s.box.status p ≠ .idle → s.Sent p
  posted : ∀ {p}, s.box.status p = .posted → ¬ cfg.IsRoot p.bcast p.dst
  accepted : ∀ {p}, s.received p = true → ¬ cfg.IsRoot p.bcast p.dst ∧ s.box.status p = .arrived
  holds : ∀ {c pe}, c < s.bcastCount pe → s.HasMessage c pe
  forwarded : ∀ {p pe}, p.bcast < s.bcastCount pe → p.dst ∈ cfg.children p.bcast pe →
    cfg.Valid p → s.box.status p ≠ .idle
  barrier : ∀ {d pe}, cfg.Barrier d → s.Started d pe → ∀ pe', d ≤ s.bcastCount pe'
  count_le : ∀ pe, s.bcastCount pe ≤ cfg.bcasts.length + 1

structure Copied (s : State cfg) : Prop where
  tree : ∀ {p}, cfg.IsTree p.bcast → s.received p = true →
    s.dest p.bcast p.dst p.idx = some (cfg.source p.bcast p.idx)
  signal : ∀ {p}, ¬ cfg.IsTree p.bcast → s.box.status p ≠ .idle → s.box.status p ≠ .posted →
    ∀ j < cfg.units p.bcast, s.dest p.bcast p.dst j = some (cfg.source p.bcast j)
  root : ∀ {c pe}, cfg.IsRoot c pe → c < s.bcastCount pe → ∀ j < cfg.units c,
    s.dest c pe j = some (cfg.source c j)

structure Extends (s t : State cfg) : Prop where
  count_le : ∀ pe, s.bcastCount pe ≤ t.bcastCount pe
  started : ∀ {c pe}, s.Started c pe → t.Started c pe
  arrived : ∀ {p}, s.box.status p = .arrived → t.box.status p = .arrived
  received : ∀ {p}, s.received p = true → t.received p = true

theorem Extends.hasMessage (h : s.Extends t) (hm : s.HasMessage c pe) : t.HasMessage c pe := by
  intro j hj
  have := hm j hj
  split at this
  next hroot =>
    rw [if_pos hroot]
    exact fun htree => h.arrived (this htree)
  next hroot =>
    rw [if_neg hroot]
    exact h.received this

theorem Extends.sent (h : s.Extends t) (hs : s.Sent p) : t.Sent p := by
  rcases hs with ⟨hroot, htree, hstart⟩ | ⟨pe, hmem, hstart, hm⟩
  · exact .inl ⟨hroot, htree, h.started hstart⟩
  · exact .inr ⟨pe, hmem, h.started hstart, h.hasMessage hm⟩

theorem Extends.of_eq (hcount : t.bcastCount = s.bcastCount) (hpassed : t.passed = s.passed)
    (harr : ∀ {p}, s.box.status p = .arrived → t.box.status p = .arrived)
    (hrec : ∀ {p}, s.received p = true → t.received p = true) : s.Extends t where
  count_le pe := by rw [hcount]
  started h := by rwa [Started, hcount, hpassed]
  arrived := harr
  received := hrec

theorem Inv.init : (State.init cfg).Inv := by
  constructor
  · exact ⟨fun h => by simp [State.init] at h, fun _ => .inl rfl,
      fun h => by simp [State.init] at h⟩
  · exact fun h => absurd rfl h
  · exact fun h => absurd rfl h
  · exact fun h => by simp [State.init] at h
  · exact fun h => by simp [State.init] at h
  · exact fun h => absurd h (Nat.not_lt_zero _)
  · exact fun h => absurd h (Nat.not_lt_zero _)
  · rintro d pe ⟨b, hb, -⟩ (hlt | ⟨rfl, -⟩)
    · exact absurd hlt (Nat.not_lt_zero _)
    · exact absurd (pos_of_bcast hb) (Nat.lt_irrefl _)
  · exact fun _ => Nat.zero_le _

theorem Copied.init : (State.init cfg).Copied where
  tree _ h := by simp [State.init] at h
  signal _ h := absurd rfl h
  root _ h := absurd h (Nat.not_lt_zero _)

section Facts

variable (hi : s.Inv)
include hi

theorem Inv.arrived_of_hasMessage (hvalid : cfg.Valid p) (hm : s.HasMessage p.bcast p.dst)
    (h : cfg.IsRoot p.bcast p.dst → cfg.IsTree p.bcast) : s.box.status p = .arrived := by
  have := hm p.idx hvalid
  split at this
  next hroot => exact this (h hroot)
  next => exact (hi.accepted this).2

theorem Inv.isTree_of_isRoot (hp : s.box.status p ≠ .idle) (h : cfg.IsRoot p.bcast p.dst) :
    cfg.IsTree p.bcast := by
  rcases hi.sent hp with ⟨-, htree, -⟩ | ⟨pe, hmem, -⟩
  · exact htree
  · exact absurd h (not_isRoot_of_mem_children hmem)

theorem Inv.arrived_of_lt (hp : s.box.status p ≠ .idle) (h : p.bcast < s.bcastCount p.dst) :
    s.box.status p = .arrived :=
  hi.arrived_of_hasMessage (hi.valid hp) (hi.holds h) (hi.isTree_of_isRoot hp)

theorem Inv.retired_of_sent (hp : s.box.status p ≠ .idle) (hbar : cfg.Barrier d)
    (hlt : q.bcast < d) (hle : d ≤ p.bcast) : s.Retired q := by
  have hstarted : ∃ pe, s.Started p.bcast pe := by
    rcases hi.sent hp with ⟨-, -, h⟩ | ⟨pe, -, h, -⟩
    · exact ⟨_, h⟩
    · exact ⟨pe, h⟩
  obtain ⟨pe, hpe⟩ := hstarted
  have hd : s.Started d pe := by
    rcases Nat.lt_or_eq_of_le hle with hlt | rfl
    · rcases hpe with hpe | ⟨hpe, -⟩
      · exact .inl (hlt.trans hpe)
      · exact .inl (hpe ▸ hlt)
    · exact hpe
  exact fun pe' => hlt.trans_le (hi.barrier hbar hd pe')

end Facts

section Steps

variable (hi : s.Inv)
include hi

theorem Inv.of_status (hcount : t.bcastCount = s.bcastCount) (hpassed : t.passed = s.passed)
    (hrec : t.received = s.received)
    (hbox : Mailbox.Inv cfg.place cfg.content (fun _ => ⟨0, 0⟩) s.Retired t.box)
    (hst : ∀ q, q ≠ p → t.box.status q = s.box.status q) (hp : t.box.status p ≠ .idle)
    (hprev : s.box.status p ≠ .arrived) (hvalid : cfg.Valid p) (hsent : s.Sent p)
    (hposted : t.box.status p = .posted → ¬ cfg.IsRoot p.bcast p.dst) : t.Inv := by
  have harr : ∀ {q}, s.box.status q = .arrived → t.box.status q = .arrived := by
    intro q hq
    rw [hst q fun heq => hprev (heq ▸ hq), hq]
  have hext : s.Extends t := .of_eq hcount hpassed harr fun h => hrec ▸ h
  have hret : t.Retired = s.Retired := by
    funext q
    rw [Retired, Retired, hcount]
  constructor
  · rw [hret]
    exact hbox
  · intro q hq
    by_cases heq : q = p
    · exact heq ▸ hvalid
    · exact hi.valid (hst q heq ▸ hq)
  · intro q hq
    apply hext.sent
    by_cases heq : q = p
    · exact heq ▸ hsent
    · exact hi.sent (hst q heq ▸ hq)
  · intro q hq
    by_cases heq : q = p
    · subst heq
      exact hposted hq
    · exact hi.posted (hst q heq ▸ hq)
  · intro q hq
    obtain ⟨hroot, hqarr⟩ := hi.accepted (hrec ▸ hq)
    exact ⟨hroot, harr hqarr⟩
  · intro c pe hlt
    exact hext.hasMessage (hi.holds (hcount ▸ hlt))
  · intro q pe hlt hmem hq
    by_cases heq : q = p
    · exact heq ▸ hp
    · exact hst q heq ▸ hi.forwarded (hcount ▸ hlt) hmem hq
  · intro d pe hbar hstart pe'
    rw [Started, hcount, hpassed] at hstart
    rw [hcount]
    exact hi.barrier hbar hstart pe'
  · rw [hcount]
    exact hi.count_le

theorem Inv.pack (he : s.Enabled (.pack p)) : (s.effect (.pack p)).Inv := by
  obtain ⟨hcall, hpassed, hvalid, hroot, htree, hidle⟩ := he
  have hprev : s.box.status p ≠ .arrived := by simp [hidle]
  refine hi.of_status rfl rfl rfl (hi.box.setStatus hprev (by simp) ?_)
    (fun q hq => update_of_ne hq ..) ?_ hprev hvalid
    (.inl ⟨hroot, htree, .inr ⟨hcall, hpassed⟩⟩) ?_
  · exact fun w hw => (flying.inj hw).symm
  · simp [effect]
  · simp [effect]

theorem Inv.post (he : s.Enabled (.post pe p)) : (s.effect (.post pe p)).Inv := by
  obtain ⟨hcall, hpassed, hvalid, hmem, hm, hidle⟩ := he
  have hprev : s.box.status p ≠ .arrived := by simp [hidle]
  refine hi.of_status rfl rfl rfl (hi.box.setStatus hprev (by simp) (by simp))
    (fun q hq => update_of_ne hq ..) ?_ hprev hvalid
    (.inr ⟨pe, hmem, .inr ⟨hcall, hpassed⟩, hm⟩) ?_
  · simp [effect]
  · exact fun _ => not_isRoot_of_mem_children hmem

theorem Inv.mem_parent (hposted : s.box.status p = .posted) (hmem : p.dst ∈ cfg.children p.bcast pe)
    (htree : cfg.IsTree p.bcast) :
    s.box.mem (cfg.place { p with dst := pe }) = cfg.content p := by
  have hne : s.box.status p ≠ .idle := by simp [hposted]
  have hm : s.HasMessage p.bcast pe := by
    rcases hi.sent hne with ⟨hroot, -⟩ | ⟨pe', hmem', -, hm⟩
    · exact absurd hroot (hi.posted hposted)
    · obtain ⟨b, hb⟩ := exists_bcast_of_mem_children hmem
      rwa [(existsUnique_parent hb (hi.posted hposted)).unique hmem hmem']
  have hvalid : cfg.Valid p := hi.valid hne
  have harr : s.box.status { p with dst := pe } = .arrived :=
    hi.arrived_of_hasMessage (p := { p with dst := pe }) hvalid hm fun _ => htree
  refine hi.box.kept harr fun hret => ?_
  have := hi.arrived_of_lt hne (hret p.dst)
  rw [hposted] at this
  exact absurd this (by simp)

theorem Inv.transfer (he : s.Enabled (.transfer pe p)) : (s.effect (.transfer pe p)).Inv := by
  obtain ⟨hmem, hposted⟩ := he
  have hprev : s.box.status p ≠ .idle ∧ s.box.status p ≠ .arrived := by simp [hposted]
  have hroot := hi.posted hposted
  rw [effect]
  split
  next htree =>
    refine hi.of_status rfl rfl rfl (hi.box.setStatus hprev.2 (by simp) ?_)
      (fun q hq => update_of_ne hq ..) ?_ hprev.2 (hi.valid hprev.1) (hi.sent hprev.1)
      fun _ => hroot
    · intro w hw
      rw [← hi.mem_parent hposted hmem htree]
      exact (flying.inj hw).symm
    · simp [Box.fetch]
  next htree =>
    refine hi.of_status rfl rfl rfl (hi.box.setStatus hprev.2 (by simp) ?_)
      (fun q hq => update_of_ne hq ..) ?_ hprev.2 (hi.valid hprev.1) (hi.sent hprev.1)
      fun _ => hroot
    · exact fun w hw => (flying.inj hw).symm
    · simp

theorem Inv.deliver (he : s.Enabled (.deliver p)) : (s.effect (.deliver p)).Inv := by
  have hfly : (s.box.status p).IsFlying := he
  have hne : s.box.status p ≠ .idle ∧ s.box.status p ≠ .arrived := by
    obtain ⟨w, hw⟩ := isFlying_iff.mp hfly
    simp [hw]
  have hst : ∀ q, (s.effect (.deliver p)).box.status q =
      if q = p then .arrived else s.box.status q := fun q => Box.status_deliver hfly
  refine hi.of_status (p := p) rfl rfl rfl (hi.box.deliver hfly ?_) (fun q hq => ?_) ?_ hne.2
    (hi.valid hne.1) (hi.sent hne.1) ?_
  · intro q hq hplace harr
    have hqsent : s.box.status q ≠ .idle := by simp [harr]
    rcases Nat.le_total q.bcast p.bcast with hle | hle
    · rcases (hi.valid hqsent).of_place_eq (hi.valid hne.1) hplace hle with
        heq | ⟨-, d, hlt, hd, hbar⟩
      · exact absurd heq hq
      · exact hi.retired_of_sent hne.1 hbar hlt hd
    · rcases (hi.valid hne.1).of_place_eq (hi.valid hqsent) hplace.symm hle with
        heq | ⟨-, d, hlt, hd, hbar⟩
      · exact absurd heq.symm hq
      · -- a later word has arrived, so that all PEs have read this one
        have hret : s.Retired p := hi.retired_of_sent hqsent hbar hlt hd
        exact absurd (hi.arrived_of_lt hne.1 (hret p.dst)) hne.2
  · rw [hst, if_neg hq]
  · simp [hst]
  · simp [hst]

theorem Inv.arrived_of_accepts (hlen : cfg.bcasts.length + 1 < 2 ^ 32) (hvalid : cfg.Valid p)
    (h : cfg.accepts p (s.box.mem (cfg.place p)) = true) :
    s.box.status p = .arrived ∧ s.box.mem (cfg.place p) = cfg.content p := by
  refine hi.box.arrived_of_accept (cfg.accepts p · = true) h (hvalid.not_accepts_init hlen) ?_
  intro q hq hplace hacc
  have hqvalid := hi.valid (p := q) (by simp [hq])
  have hbcast := hvalid.bcast_eq_of_accepts hlen hqvalid hacc
  refine (hqvalid.of_place_eq hvalid hplace hbcast.le).resolve_right fun hlt => ?_
  exact absurd hbcast hlt.1.ne

theorem Inv.recv (hlen : cfg.bcasts.length + 1 < 2 ^ 32) (he : s.Enabled (.recv p)) :
    (s.effect (.recv p)).Inv := by
  obtain ⟨hcall, hpassed, hvalid, hroot, hnot, hacc⟩ := he
  have hrec : ∀ q, (s.effect (.recv p)).received q = if q = p then true else s.received q :=
    fun q => update_apply ..
  have hext : s.Extends (s.effect (.recv p)) := by
    refine .of_eq rfl rfl id fun h => ?_
    rw [hrec, h, ite_self]
  refine ⟨hi.box, hi.valid, fun hq => hext.sent (hi.sent hq), hi.posted, ?_,
    fun hlt => hext.hasMessage (hi.holds hlt), hi.forwarded, hi.barrier, hi.count_le⟩
  intro q hq
  rw [hrec] at hq
  split at hq
  next heq =>
    subst heq
    exact ⟨hroot, (hi.arrived_of_accepts hlen hvalid hacc).1⟩
  next => exact hi.accepted hq

theorem Inv.start (he : s.Enabled (.start pe)) : (s.effect (.start pe)).Inv := by
  obtain ⟨hnot, hbarrier⟩ := he
  have hstarted : ∀ {d i}, (s.effect (.start pe)).Started d i ↔
      s.Started d i ∨ i = pe ∧ d = s.bcastCount pe := by
    intro d i
    by_cases heq : i = pe
    · subst heq
      simp [Started, effect, hnot]
    · simp [Started, effect, heq]
  have hext : s.Extends (s.effect (.start pe)) :=
    ⟨fun _ => le_rfl, fun h => hstarted.mpr (.inl h), id, id⟩
  refine ⟨hi.box, hi.valid, fun hq => hext.sent (hi.sent hq), hi.posted, hi.accepted,
    hi.holds, hi.forwarded, ?_, hi.count_le⟩
  intro d i hbar hd
  rcases hstarted.mp hd with hd | ⟨rfl, rfl⟩
  · exact hi.barrier hbar hd
  · exact hbarrier hbar

theorem Inv.next (he : s.Enabled (.next pe)) : (s.effect (.next pe)).Inv := by
  obtain ⟨hle, hpassed, hm, hchildren⟩ := he
  have hcount : ∀ i, (s.effect (.next pe)).bcastCount i =
      if i = pe then s.bcastCount pe + 1 else s.bcastCount i := fun i => update_apply ..
  have hlt : ∀ {c i}, c < (s.effect (.next pe)).bcastCount i ↔
      c < s.bcastCount i ∨ i = pe ∧ c = s.bcastCount pe := by
    intro c i
    rw [hcount]
    split
    next heq =>
      subst heq
      omega
    next heq => simp [heq]
  have hmono : ∀ i, s.bcastCount i ≤ (s.effect (.next pe)).bcastCount i := by
    intro i
    rw [hcount]
    split
    next heq => exact heq ▸ le_succ _
    next => exact le_rfl
  have hstarted : ∀ {d i}, (s.effect (.next pe)).Started d i ↔ s.Started d i := by
    intro d i
    by_cases heq : i = pe
    · subst heq
      simp only [Started, hlt, hpassed]
      simp [effect]
    · simp [Started, effect, heq]
  have hext : s.Extends (s.effect (.next pe)) := ⟨hmono, hstarted.mpr, id, id⟩
  constructor
  · exact hi.box.mono fun q hret i => (hret i).trans_le (hmono i)
  · exact hi.valid
  · exact fun hq => hext.sent (hi.sent hq)
  · exact hi.posted
  · exact hi.accepted
  · intro c i hc
    apply hext.hasMessage
    rcases hlt.mp hc with hc | ⟨rfl, rfl⟩
    · exact hi.holds hc
    · exact hm
  · intro q i hc hmem hq
    rcases hlt.mp hc with hc | ⟨rfl, hc⟩
    · exact hi.forwarded hc hmem hq
    · rw [hc] at hmem
      have := hchildren q.dst hmem q.idx (hc ▸ hq)
      rwa [← hc] at this
  · intro d i hbar hd pe'
    exact (hi.barrier hbar (hstarted.mp hd) pe').trans (hmono pe')
  · intro i
    rw [hcount]
    split
    · omega
    · exact hi.count_le i

theorem Inv.step (hlen : cfg.bcasts.length + 1 < 2 ^ 32) (h : step cfg s a = some t) : t.Inv := by
  obtain ⟨he, rfl⟩ := step_eq_some.mp h
  cases a with
  | start pe => exact hi.start he
  | pack p => exact hi.pack he
  | post pe p => exact hi.post he
  | transfer pe p => exact hi.transfer he
  | deliver p => exact hi.deliver he
  | recv p => exact hi.recv hlen he
  | next pe => exact hi.next he

end Steps

theorem Copied.of_step (hc : s.Copied)
    (hkeep : ∀ {c pe j}, s.dest c pe j = some (cfg.source c j) →
      t.dest c pe j = some (cfg.source c j))
    (htree : ∀ {p}, cfg.IsTree p.bcast → t.received p = true → s.received p = true ∨
      t.dest p.bcast p.dst p.idx = some (cfg.source p.bcast p.idx))
    (hsignal : ∀ {p}, ¬ cfg.IsTree p.bcast → t.box.status p ≠ .idle → t.box.status p ≠ .posted →
      (s.box.status p ≠ .idle ∧ s.box.status p ≠ .posted) ∨
        ∀ j < cfg.units p.bcast, t.dest p.bcast p.dst j = some (cfg.source p.bcast j))
    (hroot : ∀ {c pe}, cfg.IsRoot c pe → c < t.bcastCount pe → c < s.bcastCount pe ∨
      ∀ j < cfg.units c, t.dest c pe j = some (cfg.source c j)) : t.Copied where
  tree ht hrec := (htree ht hrec).elim (fun h => hkeep (hc.tree ht h)) id
  signal hs hidle hposted := (hsignal hs hidle hposted).elim
    (fun h j hj => hkeep (hc.signal hs h.1 h.2 j hj)) id
  root hr hlt := (hroot hr hlt).elim (fun h j hj => hkeep (hc.root hr h j hj)) id

theorem copyTo_keeps {msg : ℕ → Option (BitVec 32)} {c' j : ℕ}
    (hmsg : ∀ j < cfg.units c, msg j = some (cfg.source c j)) {pe' : Fin cfg.size}
    (h : s.dest c' pe' j = some (cfg.source c' j)) :
    s.copyTo c pe msg c' pe' j = some (cfg.source c' j) := by
  unfold copyTo
  split
  next heq =>
    obtain ⟨rfl, -, hj⟩ := heq
    exact hmsg j hj
  next => exact h

theorem Copied.transfer (hc : s.Copied) (he : s.Enabled (.transfer pe p)) :
    (s.effect (.transfer pe p)).Copied := by
  obtain ⟨hmem, hposted⟩ := he
  rw [effect]
  split
  next htree =>
    refine hc.of_step id (fun _ => .inl) ?_ fun _ => .inl
    intro q hq hidle hqposted
    have hne : q ≠ p := fun heq => hq (heq ▸ htree)
    simp only [Box.fetch, Box.status_setStatus, if_neg hne] at hidle hqposted
    exact .inl ⟨hidle, hqposted⟩
  next htree =>
    rw [if_pos (isRoot_of_mem_children htree hmem)]
    refine hc.of_step (copyTo_keeps fun _ _ => rfl) ?_ ?_ fun _ => .inl
    · exact fun ht hrec => .inl hrec
    · intro q hq hidle hqposted
      by_cases heq : q = p
      · subst heq
        exact .inr fun j hj => if_pos ⟨rfl, rfl, hj⟩
      · simp only [Box.status_setStatus, if_neg heq] at hidle hqposted
        exact .inl ⟨hidle, hqposted⟩

theorem Copied.recv (hc : s.Copied) (htrue : s.box.mem (cfg.place p) = cfg.content p)
    (hvalid : cfg.Valid p) : (s.effect (.recv p)).Copied := by
  have hdata : cfg.IsTree p.bcast →
      (s.box.mem (cfg.place p)).lo = cfg.source p.bcast p.idx := by
    intro htree
    obtain ⟨b, hb, -⟩ := hvalid.exists_bcast
    rw [htrue, Config.content, Config.source, hb, elim_some, elim_some, Bcast.word,
      (Config.isTree_iff hb).mp htree]
  refine hc.of_step ?_ ?_ (fun _ hidle hposted => .inl ⟨hidle, hposted⟩) fun _ => .inl
  · intro c pe j h
    simp only [effect]
    split
    next htree =>
      dsimp only
      split
      next heq =>
        obtain ⟨rfl, -, rfl⟩ := heq
        rw [hdata htree]
      next => exact h
    next => exact h
  · intro q htree hrec
    simp only [effect, update_apply] at hrec ⊢
    split at hrec
    next heq =>
      subst heq
      right
      rw [if_pos htree, if_pos ⟨rfl, rfl, rfl⟩, hdata htree]
    next => exact .inl hrec

theorem Copied.next (hc : s.Copied) : (s.effect (.next pe)).Copied := by
  refine hc.of_step ?_ (fun _ => .inl) (fun _ hidle hposted => .inl ⟨hidle, hposted⟩) ?_
  · intro c i j h
    simp only [effect]
    split
    · exact copyTo_keeps (fun _ _ => rfl) h
    · exact h
  · intro c i hroot hlt
    simp only [effect, update_apply] at hlt ⊢
    split at hlt
    next heq =>
      subst heq
      rcases Nat.lt_or_eq_of_le (le_of_lt_succ hlt) with hlt | rfl
      · exact .inl hlt
      · rw [if_pos hroot]
        exact .inr fun j hj => if_pos ⟨rfl, rfl, hj⟩
    next => exact .inl hlt

theorem Copied.step (hc : s.Copied) (hi : s.Inv) (hlen : cfg.bcasts.length + 1 < 2 ^ 32)
    (h : State.step cfg s a = some t) : t.Copied := by
  obtain ⟨he, rfl⟩ := step_eq_some.mp h
  cases a with
  | start pe => exact hc.of_step id (fun _ => .inl) (fun _ h h' => .inl ⟨h, h'⟩) fun _ => .inl
  | pack p =>
    refine hc.of_step id (fun _ => .inl) ?_ fun _ => .inl
    intro q hq hidle hposted
    have hne : q ≠ p := fun heq => hq (heq ▸ he.2.2.2.2.1)
    simp only [effect, Box.status_setStatus, if_neg hne] at hidle hposted
    exact .inl ⟨hidle, hposted⟩
  | post pe p =>
    refine hc.of_step id (fun _ => .inl) ?_ fun _ => .inl
    intro q hq hidle hposted
    by_cases heq : q = p
    · simp [effect, heq] at hposted
    · simp only [effect, Box.status_setStatus, if_neg heq] at hidle hposted
      exact .inl ⟨hidle, hposted⟩
  | transfer pe p => exact hc.transfer he
  | deliver p =>
    refine hc.of_step id (fun _ => .inl) ?_ fun _ => .inl
    intro q hq hidle hposted
    obtain ⟨w, hw⟩ := isFlying_iff.mp he
    simp only [effect, Box.status_deliver he] at hidle hposted
    by_cases heq : q = p
    · simp [heq, hw]
    · rw [if_neg heq] at hidle hposted
      exact .inl ⟨hidle, hposted⟩
  | recv p =>
    obtain ⟨-, -, hvalid, -, -, hacc⟩ := he
    exact hc.recv (hi.arrived_of_accepts hlen hvalid hacc).2 hvalid
  | next pe => exact hc.next

theorem Inv.correct (hi : s.Inv) (hc : s.Copied) : s.Correct where
  accepted p h := (hi.accepted h).2
  complete c pe hlt j hj := by
    by_cases hroot : cfg.IsRoot c pe
    · exact hc.root hroot hlt j hj
    · have hrec : ∀ i < cfg.words c, s.received ⟨c, pe, i⟩ = true := by
        intro i hi'
        have := hi.holds hlt i hi'
        rwa [if_neg hroot] at this
      by_cases htree : cfg.IsTree c
      · obtain ⟨b, hb, halgo⟩ := htree
        have hunits : cfg.units c = cfg.words c := by
          rw [Config.units, Config.words, hb]
          exact Bcast.units_eq_words halgo
        exact hc.tree (p := ⟨c, pe, j⟩) ⟨b, hb, halgo⟩ (hrec j (hunits ▸ hj))
      · have hwords : 0 < cfg.words c := by
          cases hb : cfg.bcast? c with
          | none =>
            rw [Config.units, hb] at hj
            exact absurd hj (Nat.not_lt_zero _)
          | some b =>
            rw [Config.isTree_iff hb] at htree
            rw [Config.words, hb, elim_some, Bcast.words]
            split
            next halgo => exact absurd halgo htree
            next => exact Nat.one_pos
        have harr := (hi.accepted (hrec 0 hwords)).2
        exact hc.signal (p := ⟨c, pe, 0⟩) htree (by simp [harr]) (by simp [harr]) j hj
  unread p harr hnot hroot := by
    refine hi.box.kept harr fun hret => ?_
    have := hi.holds (hret p.dst) p.idx (hi.valid (by simp [harr]))
    rw [if_neg hroot, hnot] at this
    exact Bool.false_ne_true this

end State

end Nvshmem.Broadcast
