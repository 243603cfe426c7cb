import Nvshmem.Coll.BroadcastInvariant

/-! # Tree broadcasts end

Every step brings the words and the PEs closer to the end. When nothing can be done, the
words of the broadcast of the PEs that are furthest behind have gone down the whole tree, so
these PEs can go on.
-/

namespace Nvshmem.Broadcast

open Transition Mailbox Option List Finset Function Bcast Config Status

namespace Config

variable {cfg : Config} {p : Packet cfg.size}

def packets (cfg : Config) : Finset (Packet cfg.size) :=
  (Finset.range (cfg.bcasts.length + 1) ×ˢ Finset.univ ×ˢ
    Finset.range ((Finset.range (cfg.bcasts.length + 1)).sup cfg.words)).image
      fun z => ⟨z.1, z.2.1, z.2.2⟩

theorem Valid.mem_packets (h : cfg.Valid p) : p ∈ cfg.packets := by
  obtain ⟨b, hb, -⟩ := h.exists_bcast
  have hmem : p.bcast ∈ Finset.range (cfg.bcasts.length + 1) :=
    Finset.mem_range.mpr (Nat.lt_succ_of_le (le_of_bcast hb))
  refine Finset.mem_image.mpr ⟨(p.bcast, p.dst, p.idx), ?_, rfl⟩
  rw [Finset.mem_product, Finset.mem_product, Finset.mem_range (m := p.idx)]
  exact ⟨hmem, Finset.mem_univ _, Nat.lt_of_lt_of_le h (Finset.le_sup hmem)⟩

theorem Valid.accepts_content (h : cfg.Valid p) : cfg.accepts p (cfg.content p) = true := by
  obtain ⟨b, hb, -⟩ := h.exists_bcast
  rw [accepts, content, hb, any_some, elim_some, Bcast.accepts, Bcast.word]
  cases b.algo <;> simp

end Config

namespace State

variable {cfg : Config} {s t : State cfg} {a : Action cfg} {p q : Packet cfg.size} {c : ℕ}
  {pe dst : Fin cfg.size}

def cost (s : State cfg) (p : Packet cfg.size) : ℕ :=
  (s.box.status p).remaining + if s.received p then 0 else 1

def peCost (s : State cfg) (pe : Fin cfg.size) : ℕ :=
  2 * (cfg.bcasts.length + 1 - s.bcastCount pe) + if s.passed pe then 0 else 1

def measure (s : State cfg) : ℕ := ∑ p ∈ cfg.packets, s.cost p + ∑ pe, s.peCost pe

theorem measure_lt_of_cost (hvalid : cfg.Valid p) (hcount : t.bcastCount = s.bcastCount)
    (hpassed : t.passed = s.passed) (hne : ∀ q, q ≠ p → t.cost q = s.cost q)
    (hlt : t.cost p < s.cost p) : t.measure < s.measure := by
  have hle : ∀ q ∈ cfg.packets, t.cost q ≤ s.cost q := by
    intro q _
    by_cases hq : q = p
    · exact hq ▸ hlt.le
    · exact (hne q hq).le
  have hpe : t.peCost = s.peCost := by
    funext pe
    rw [peCost, peCost, hcount, hpassed]
  unfold measure
  rw [hpe]
  exact Nat.add_lt_add_right (sum_lt_sum hle ⟨p, hvalid.mem_packets, hlt⟩) _

theorem measure_lt_of_status (hvalid : cfg.Valid p) (hcount : t.bcastCount = s.bcastCount)
    (hpassed : t.passed = s.passed) (hrec : t.received = s.received)
    (hne : ∀ q, q ≠ p → t.box.status q = s.box.status q)
    (hlt : (t.box.status p).remaining < (s.box.status p).remaining) : t.measure < s.measure := by
  refine measure_lt_of_cost hvalid hcount hpassed (fun q hq => ?_) ?_
  · rw [cost, cost, hrec, hne q hq]
  · rw [cost, hrec]
    exact Nat.add_lt_add_right hlt _

theorem measure_lt_of_peCost (pe : Fin cfg.size) (hbox : t.box = s.box)
    (hrec : t.received = s.received)
    (hne : ∀ i, i ≠ pe → t.peCost i = s.peCost i) (hlt : t.peCost pe < s.peCost pe) :
    t.measure < s.measure := by
  have hle : ∀ i ∈ univ, t.peCost i ≤ s.peCost i := by
    intro i _
    by_cases heq : i = pe
    · exact heq ▸ hlt.le
    · exact (hne i heq).le
  have hcost : t.cost = s.cost := by
    funext p
    rw [cost, cost, hbox, hrec]
  unfold measure
  rw [hcost]
  exact Nat.add_lt_add_left (sum_lt_sum hle ⟨pe, mem_univ _, hlt⟩) _

theorem Inv.measure_lt (hi : s.Inv) (h : State.step cfg s a = some t) :
    t.measure < s.measure := by
  obtain ⟨he, rfl⟩ := step_eq_some.mp h
  cases a with
  | start pe =>
    refine measure_lt_of_peCost pe rfl rfl (fun i hne => ?_) ?_
    · simp [peCost, effect, hne]
    · simp [peCost, effect, he.1]
  | pack p | post pe p =>
    obtain ⟨-, -, hvalid, -, -, hidle⟩ := he
    refine measure_lt_of_status hvalid rfl rfl rfl (fun q hq => update_of_ne hq ..) ?_
    simp [effect, hidle, remaining]
  | transfer pe p =>
    obtain ⟨-, hposted⟩ := he
    have hvalid : cfg.Valid p := hi.valid (by simp [hposted])
    rw [effect]
    split
    · refine measure_lt_of_status hvalid rfl rfl rfl (fun q hq => update_of_ne hq ..) ?_
      simp [Box.fetch, hposted, remaining]
    · refine measure_lt_of_status hvalid rfl rfl rfl (fun q hq => update_of_ne hq ..) ?_
      simp [hposted, remaining]
  | deliver p =>
    obtain ⟨w, hw⟩ := isFlying_iff.mp he
    refine measure_lt_of_status (p := p) (hi.valid (by simp [hw])) rfl rfl rfl (fun q hq => ?_) ?_
    · exact (Box.status_deliver he).trans (if_neg hq)
    · simp [effect, Box.status_deliver he, hw, remaining]
  | recv p =>
    obtain ⟨-, -, hvalid, -, hnot, -⟩ := he
    refine measure_lt_of_cost hvalid rfl rfl (fun q hq => ?_) ?_
    · simp [cost, effect, hq]
    · simp [cost, effect, hnot]
  | next pe =>
    obtain ⟨hle, hpassed, -⟩ := he
    refine measure_lt_of_peCost pe rfl rfl (fun i hne => ?_) ?_
    · simp [peCost, effect, hne]
    · simp only [peCost, effect, update_self, hpassed]
      simp only [Bool.false_eq_true, if_false, if_true]
      omega

section Progress

def Quiet (s : State cfg) : Prop := ∀ a, ¬ s.Enabled a

variable (hi : s.Inv) (hq : s.Quiet)
include hi hq

theorem Inv.arrived_of_sent (h : s.box.status p ≠ .idle) : s.box.status p = .arrived := by
  cases hst : s.box.status p with
  | idle => exact absurd hst h
  | posted =>
    rcases hi.sent h with ⟨hroot, -⟩ | ⟨pe, hmem, -⟩
    · exact absurd hroot (hi.posted hst)
    · exact absurd ⟨hmem, hst⟩ (hq (.transfer pe p))
  | flying w => exact absurd (isFlying_iff.mpr ⟨w, hst⟩) (hq (.deliver p))
  | arrived => rfl

variable (hmin : ∀ pe, c ≤ s.bcastCount pe)
include hmin

omit hi in
theorem Quiet.started (pe : Fin cfg.size) : s.Started c pe := by
  rcases Nat.lt_or_eq_of_le (hmin pe) with hlt | rfl
  · exact .inl hlt
  · refine .inr ⟨rfl, ?_⟩
    by_contra hnot
    exact hq (.start pe) ⟨Bool.eq_false_of_not_eq_true hnot, fun _ => hmin⟩

theorem Inv.hasMessage_of_quiet
    (harr : ∀ j < cfg.words c, (cfg.IsRoot c pe → cfg.IsTree c) →
      s.box.status ⟨c, pe, j⟩ = .arrived) : s.HasMessage c pe := by
  rcases hq.started hmin pe with hlt | ⟨hcall, hpassed⟩
  · exact hi.holds hlt
  · intro j hj
    split
    next hroot => exact fun htree => harr j hj fun _ => htree
    next hroot =>
      have hst := harr j hj fun h => absurd h hroot
      by_contra hnot
      have hmem : s.box.mem (cfg.place ⟨c, pe, j⟩) = cfg.content ⟨c, pe, j⟩ :=
        hi.box.kept hst fun hret => (hret pe).ne hcall
      refine hq (.recv ⟨c, pe, j⟩) ⟨hcall, hpassed, hj, hroot,
        Bool.eq_false_of_not_eq_true hnot, ?_⟩
      rw [hmem]
      exact Valid.accepts_content hj

theorem Inv.arrived_of_quiet {j : ℕ} (hj : j < cfg.words c)
    (htree : cfg.IsRoot c dst → cfg.IsTree c) : s.box.status ⟨c, dst, j⟩ = .arrived := by
  induction hrank : cfg.rank c dst using Nat.strong_induction_on generalizing dst j with
  | _ r ih =>
    refine hi.arrived_of_sent hq fun hidle => ?_
    by_cases hroot : cfg.IsRoot c dst
    · rcases hq.started hmin dst with hlt | ⟨hcall, hpassed⟩
      · have := hi.arrived_of_hasMessage (p := ⟨c, dst, j⟩) hj (hi.holds hlt) htree
        rw [hidle] at this
        exact absurd this (by simp)
      · exact hq (.pack ⟨c, dst, j⟩) ⟨hcall, hpassed, hj, hroot, htree hroot, hidle⟩
    · obtain ⟨b, hb, -⟩ := Valid.exists_bcast (p := ⟨c, dst, j⟩) hj
      obtain ⟨pe, hmem, -⟩ := existsUnique_parent hb hroot
      have hm : s.HasMessage c pe := hi.hasMessage_of_quiet hq hmin fun i hi' ht =>
        ih _ (hrank ▸ rank_lt_of_mem_children hmem) hi' ht rfl
      rcases hq.started hmin pe with hlt | ⟨hcall, hpassed⟩
      · exact hi.forwarded (p := ⟨c, dst, j⟩) hlt hmem hj hidle
      · exact hq (.post pe ⟨c, dst, j⟩) ⟨hcall, hpassed, hj, hmem, hm, hidle⟩

omit hmin in
theorem Inv.finished_of_quiet : s.Finished := by
  by_contra hnot
  unfold Finished at hnot
  push Not at hnot
  obtain ⟨pe₀, hpe₀⟩ := hnot
  have : Nonempty (Fin cfg.size) := ⟨pe₀⟩
  obtain ⟨pe, hmin⟩ := Finite.exists_min s.bcastCount
  have hle : s.bcastCount pe ≤ cfg.bcasts.length := by
    have := hi.count_le pe₀
    have := hmin pe₀
    omega
  have hpassed : s.passed pe = true := by
    rcases hq.started hmin pe with hlt | ⟨-, h⟩
    · exact absurd hlt (Nat.lt_irrefl _)
    · exact h
  have hm : s.HasMessage (s.bcastCount pe) pe :=
    hi.hasMessage_of_quiet hq hmin fun j hj => hi.arrived_of_quiet hq hmin hj
  refine hq (.next pe) ⟨hle, hpassed, hm, fun dst hdst j hj hidle => ?_⟩
  have := hi.arrived_of_quiet hq hmin hj fun h =>
    absurd h (not_isRoot_of_mem_children hdst)
  rw [hidle] at this
  exact absurd this (by simp)

end Progress

end State

def Config.HasTree (cfg : Config) (c : ℕ) : Prop :=
  (∀ pe, (cfg.children c pe).Nodup) ∧ (∀ pe dst, dst ∈ cfg.children c pe → ¬ cfg.IsRoot c dst) ∧
    ∀ dst, ¬ cfg.IsRoot c dst → ∃! pe, dst ∈ cfg.children c pe

theorem Config.hasTree {cfg : Config} {c : ℕ} (hpos : 0 < c) (hle : c ≤ cfg.bcasts.length) :
    cfg.HasTree c := by
  obtain ⟨b, hb⟩ : ∃ b, cfg.bcast? c = some b := by
    rw [bcast?, if_neg hpos.ne']
    exact ⟨_, getElem?_eq_getElem (by omega)⟩
  refine ⟨fun pe => ?_, fun _ _ => not_isRoot_of_mem_children, fun _ => existsUnique_parent hb⟩
  rw [children, hb]
  exact nodup_children

/-- Before the flags wrap around, every PE gets the message of each broadcast from its parent in
the tree, and all broadcasts end. -/
theorem State.broadcast_correct (cfg : Config) (hlen : cfg.bcasts.length + 1 < 2 ^ 32) :
    (∀ c, 0 < c → c ≤ cfg.bcasts.length → cfg.HasTree c) ∧
      ∀ s, Reachable (step cfg) (init cfg) s →
        s.Correct ∧ Inevitable (fun _ => True) (step cfg) Finished s := by
  refine ⟨fun c => hasTree, fun s h => ?_⟩
  have hnext : ∀ {s a t}, Inv s ∧ Copied s → step cfg s a = some t → Inv t ∧ Copied t :=
    fun h hs => ⟨h.1.step hlen hs, h.2.step h.1 hlen hs⟩
  have hi : Inv s ∧ Copied s := h.invariant ⟨Inv.init, Copied.init⟩ hnext
  refine ⟨hi.1.correct hi.2, Inevitable.of_measure measure hnext ?_ ?_ hi⟩
  · exact fun hi _ hs => hi.1.measure_lt hs
  · intro s hi hnot
    by_contra hnone
    refine hnot (hi.1.finished_of_quiet fun a he => hnone ?_)
    exact ⟨a, s.effect a, trivial, step_eq_some.mpr ⟨he, rfl⟩⟩

def threePes : Config where
  size := 3
  bcastTreeKval := 1
  bcasts := [⟨.tree, 1, 4, 2, fun j => .ofNat 32 j, by decide⟩,
    ⟨.nonLLTree, 2, 2, 3, fun j => .ofNat 32 (j + 1), by decide⟩]
  kval_pos := Nat.one_pos

/-- The two broadcasts end, with the right data everywhere. -/
theorem State.broadcast_correct_threePes : threePes.HasTree 2 ∧
    ∃ s, Reachable (step threePes) (init threePes) s ∧ s.Finished ∧ s.Correct := by
  obtain ⟨htree, hrun⟩ := broadcast_correct threePes (by decide)
  obtain ⟨s, hs, hfin⟩ := (hrun _ ⟨[], rfl⟩).2.exists_reachable
  exact ⟨htree 2 (by decide) (by decide), s, hs, hfin, (hrun s hs).1⟩

section WrapAround

variable {m c : ℕ}

local instance neZero_two : NeZero 2 := ⟨two_ne_zero⟩

def noData : Bcast 2 := ⟨.tree, 0, 4, 0, fun _ => 0, by decide⟩

def twoWords : Bcast 2 := ⟨.tree, 0, 4, 2, fun _ => 1, by decide⟩

abbrev emptyThenOne (m : ℕ) : Config where
  size := 2
  bcastTreeKval := 2
  bcasts := List.replicate m noData ++ [twoWords]
  kval_pos := two_pos

local instance neZero_emptyThenOne : NeZero (emptyThenOne m).size := ⟨two_ne_zero⟩

theorem length_emptyThenOne : (emptyThenOne m).bcasts.length = m + 1 := by
  rw [length_append, length_replicate, length_singleton]

theorem words_emptyThenOne (hc : c ≤ m) : (emptyThenOne m).words c = 0 := by
  unfold Config.words Config.bcast?
  split
  · rfl
  · have hlt : c - 1 < m := by omega
    rw [emptyThenOne, getElem?_append_left (by rwa [length_replicate]),
      getElem?_replicate, if_pos hlt]
    exact Nat.zero_div 4

theorem bcast?_emptyThenOne : (emptyThenOne m).bcast? (m + 1) = some twoWords := by
  rw [bcast?, if_neg (Nat.succ_ne_zero m), Nat.add_sub_cancel,
    getElem?_append_right length_replicate.le, length_replicate, Nat.sub_self]
  rfl

structure State.AtBcast (s : State (emptyThenOne m)) (c : ℕ) : Prop where
  count : ∀ pe, s.bcastCount pe = c
  passed : ∀ pe, s.passed pe = true
  box : s.box = (init (emptyThenOne m)).box
  received : s.received = (init (emptyThenOne m)).received

theorem State.enabled_next_of_words {cfg : Config} {s : State cfg} {pe : Fin cfg.size}
    (hle : s.bcastCount pe ≤ cfg.bcasts.length) (hpassed : s.passed pe = true)
    (hwords : cfg.words (s.bcastCount pe) = 0) : s.Enabled (.next pe) := by
  refine ⟨hle, hpassed, fun j hj => ?_, fun _ _ j hj => ?_⟩ <;>
  · rw [hwords] at hj
    exact absurd hj (Nat.not_lt_zero j)

theorem State.AtBcast.succ {s : State (emptyThenOne m)} (h : s.AtBcast c) (hc : c ≤ m) :
    ∃ t, Reachable (step (emptyThenOne m)) s t ∧ t.AtBcast (c + 1) := by
  have hle : c ≤ (emptyThenOne m).bcasts.length := by
    rw [length_emptyThenOne]
    omega
  have hne : (1 : Fin (emptyThenOne m).size) ≠ 0 := Fin.ne_of_val_ne one_ne_zero
  have hall : ∀ pe : Fin (emptyThenOne m).size, pe = 0 ∨ pe = 1 :=
    fun pe => Fin.exists_fin_two.mp ⟨pe, rfl⟩
  have h₁ : s.Enabled (.next 0) := by
    refine enabled_next_of_words ?_ (h.passed 0) ?_ <;> rw [h.count 0]
    · exact hle
    · exact words_emptyThenOne hc
  have hcount₁ : (s.effect (.next 0)).bcastCount 1 = c := by
    simp [effect, hne, h.count]
  have h₂ : (s.effect (.next 0)).Enabled (.next 1) := by
    refine enabled_next_of_words ?_ ?_ ?_
    · rw [hcount₁]
      exact hle
    · simp [effect, hne, h.passed]
    · rw [hcount₁]
      exact words_emptyThenOne hc
  have hcount₂ : ∀ pe, ((s.effect (.next 0)).effect (.next 1)).bcastCount pe = c + 1 := by
    intro pe
    rcases hall pe with rfl | rfl <;> simp [effect, hne, hne.symm, h.count]
  have h₃ : ((s.effect (.next 0)).effect (.next 1)).Enabled (.start 0) := by
    refine ⟨by simp [effect, hne.symm], fun _ pe => ?_⟩
    rw [hcount₂, hcount₂]
  have h₄ : (((s.effect (.next 0)).effect (.next 1)).effect (.start 0)).Enabled (.start 1) := by
    refine ⟨by simp [effect, hne], fun _ pe => ?_⟩
    exact ((hcount₂ 1).trans (hcount₂ pe).symm).le
  refine ⟨_, .tail (.tail (.tail (.tail ⟨[], rfl⟩ (step_eq_some.mpr ⟨h₁, rfl⟩))
    (step_eq_some.mpr ⟨h₂, rfl⟩)) (step_eq_some.mpr ⟨h₃, rfl⟩)) (step_eq_some.mpr ⟨h₄, rfl⟩),
    hcount₂, fun pe => ?_, h.box, h.received⟩
  rcases hall pe with rfl | rfl <;> simp [effect, hne.symm]

theorem State.exists_reachable_atBcast (hc : c ≤ m + 1) :
    ∃ s, Reachable (step (emptyThenOne m)) (init (emptyThenOne m)) s ∧ s.AtBcast c := by
  induction c with
  | zero => exact ⟨_, ⟨[], rfl⟩, fun _ => rfl, fun _ => rfl, rfl, rfl⟩
  | succ c ih =>
    obtain ⟨s, hs, hat⟩ := ih (by omega)
    obtain ⟨t, ht, hat'⟩ := hat.succ (by omega)
    exact ⟨t, hs.trans ht, hat'⟩

theorem State.exists_not_correct (hflag : Config.llFlag (m + 1) = 0) :
    ∃ s, Reachable (step (emptyThenOne m)) (init (emptyThenOne m)) s ∧ ¬ s.Correct := by
  obtain ⟨s, hs, hat⟩ := exists_reachable_atBcast (m := m) le_rfl
  have hidle : s.box.status ⟨m + 1, 1, 0⟩ = .idle := by
    rw [hat.box]
    rfl
  have he : s.Enabled (.recv ⟨m + 1, 1, 0⟩) := by
    refine ⟨(hat.count 1).symm, hat.passed 1, ?_, ?_, ?_, ?_⟩
    · change 0 < ((emptyThenOne m).bcast? (m + 1)).elim 0 Bcast.words
      rw [bcast?_emptyThenOne]
      exact (by decide : 0 < twoWords.words)
    · rw [Config.isRoot_iff bcast?_emptyThenOne]
      exact Fin.ne_of_val_ne zero_ne_one
    · rw [hat.received]
      rfl
    · rw [hat.box, Config.accepts, bcast?_emptyThenOne, hflag]
      rfl
  refine ⟨s.effect (.recv ⟨m + 1, 1, 0⟩), hs.tail (step_eq_some.mpr ⟨he, rfl⟩), fun hc => ?_⟩
  have := hc.accepted ⟨m + 1, 1, 0⟩ (update_self ..)
  exact absurd (hidle.symm.trans this) (by simp)

/-- The flag of the last broadcast is 0 after 2^32 - 2 others. -/
theorem State.not_correct_wrapAround : ∃ s,
    Reachable (step (emptyThenOne (2 ^ 32 - 2))) (init (emptyThenOne (2 ^ 32 - 2))) s ∧
      ¬ s.Correct :=
  exists_not_correct (by decide)

end WrapAround

end Nvshmem.Broadcast
