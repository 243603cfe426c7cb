import Nvshmem.Coll.AlltoallInvariant

/-! # The signals of alltoalls

A wait is over when as many signals have arrived as calls of the same parity were made. A member
that is two calls ahead has waited for the one that it signals, so these are the signals of the same
calls.
-/

namespace Nvshmem.Alltoall

open Phases Tables Transition List Call Config

variable {cfg : Config} {pe pe' x y : Fin cfg.size} {t t' c c' p i b : ℕ} {op op' : Op}
  {threads : Fin cfg.size → ℕ → Thread Instr} {rest : List Instr} {instr : Instr}
  {s s' : State cfg.size}

namespace Config

/-- The offsets are in the range of `int`, the group executes a quiet if something is sent over the
network, the counters of the PEs are in their half, and the numbers of calls do not wrap around. -/
structure Sound (cfg : Config) : Prop where
  offset_lt : ∀ c < cfg.calls, cfg.nelems c * (cfg.size - 1) < 2 ^ 31
  quiets : ∀ pe, (∃ y : Fin cfg.size, cfg.direct pe y = false) → (cfg.group pe).scope = .block →
    cfg.size < (cfg.group pe).size →
      warpSize * ((cfg.size + (warpSize - 1)) / warpSize) < (cfg.group pe).size
  peMapping_lt : ∀ pe, cfg.peMapping pe < Psync.alltoallSyncSize
  calls_lt : cfg.calls < 2 ^ 64

def signalOp (x y : Fin cfg.size) : Op :=
  if cfg.direct x y then .signal (cfg.dist x y) else .putSignal (cfg.dist x y)

def signal (c : ℕ) (x y : Fin cfg.size) : Signal cfg.size := ⟨c, x, y, cfg.psyncIndex (c % 2) x⟩

theorem signal_inj {x' y' : Fin cfg.size} :
    cfg.signal c x y = cfg.signal c' x' y' ↔ c = c' ∧ x = x' ∧ y = y' := by
  constructor
  · intro h
    exact ⟨congrArg Signal.call h, congrArg Signal.src h, congrArg Signal.dst h⟩
  · rintro ⟨rfl, rfl, rfl⟩
    rfl

theorem psyncIndex_inj (hsound : cfg.Sound) :
    cfg.psyncIndex c x = cfg.psyncIndex c' y ↔ c = c' ∧ x = y := by
  constructor
  · intro h
    have hx := hsound.peMapping_lt x
    have hy := hsound.peMapping_lt y
    have hc : c = c' := by
      simp only [psyncIndex, Psync.alltoallSyncSize, Psync.syncSize] at h hx hy
      omega
    subst hc
    exact ⟨rfl, cfg.peMapping_injective (Nat.add_left_cancel h)⟩
  · rintro ⟨rfl, rfl⟩
    rfl

end Config

def Posted (cfg : Config) (threads : Fin cfg.size → ℕ → Thread Instr) (c : ℕ)
    (x y : Fin cfg.size) : Prop :=
  Did cfg threads x (cfg.threadOf x y) c (cfg.signalOp x y)

theorem Posted.lt_phase (h : Posted cfg threads c x y) :
    6 * c < (threads x (cfg.threadOf x y)).phase :=
  lt_of_lt_of_le (by omega) h.le_phase

theorem not_posted_start : ¬ Posted cfg (start cfg.prog) c x y := did_start

theorem posted_pass_iff (htodo : (threads pe t).todo = []) :
    Posted cfg (pass cfg.prog threads pe t) c x y ↔ Posted cfg threads c x y :=
  did_pass_iff htodo

def Op.IsSignal (i : ℕ) (op : Op) : Prop := op = .putSignal i ∨ op = .signal i

theorem signalOp_isSignal : (cfg.signalOp x y).IsSignal (cfg.dist x y) := by
  rw [signalOp]
  split_ifs
  · exact Or.inr rfl
  · exact Or.inl rfl

theorem Op.IsSignal.eq {j : ℕ} (hi : op.IsSignal i) (hj : op.IsSignal j) : i = j := by
  rcases hi with rfl | rfl <;> rcases hj with hj | hj <;> cases hj <;> rfl

theorem Op.IsSignal.phase_le (h : op.IsSignal i) : op.phase ≤ 2 := by
  rcases h with rfl | rfl <;> simp [Op.phase]

theorem signalOp_mem_phase :
    cfg.signalOp x y ∈ (cfg.call x c).phase (cfg.threadOf x y) (cfg.signalOp x y).phase := by
  have hnext : (cfg.call x c).nextPe (cfg.dist x y) = y := congrArg Fin.val next_dist
  rw [signalOp]
  split_ifs with hdirect
  · refine (mem_phase_signal threadOf_lt).mpr ⟨rfl, dist_lt, rfl, ?_⟩
    rw [hnext]
    exact hdirect
  · refine (mem_phase_putSignal threadOf_lt).mpr ⟨rfl, dist_lt, rfl, ?_⟩
    rw [hnext]
    exact Bool.eq_false_iff.mpr hdirect

theorem signalOp_eq_iff (ht : t < cfg.groupSize pe) (hop : op.IsSignal i)
    (hmem : op ∈ (cfg.call pe c).phase t op.phase) :
    (cfg.threadOf pe y = t ∧ cfg.signalOp pe y = op) ↔ y = cfg.next pe i := by
  constructor
  · rintro ⟨-, rfl⟩
    rw [hop.eq signalOp_isSignal, next_dist]
  · rintro rfl
    rcases hop with rfl | rfl
    · obtain ⟨-, hi, rfl, hdirect⟩ := (mem_phase_putSignal ht).mp hmem
      rw [threadOf, signalOp, dist_next hi]
      exact ⟨rfl, if_neg (Bool.eq_false_iff.mp hdirect)⟩
    · obtain ⟨-, hi, rfl, hdirect⟩ := (mem_phase_signal ht).mp hmem
      rw [threadOf, signalOp, dist_next hi]
      exact ⟨rfl, if_pos hdirect⟩

section Exec

variable (h : Phases.Inv cfg.prog sync cfg.groupSize threads)

include h

theorem posted_exec_iff (ht : t < cfg.groupSize pe) (hop : op.IsSignal i)
    (htodo : (threads pe t).todo = .op op :: rest) :
    Posted cfg (exec threads pe t) c x y ↔ Posted cfg threads c x y ∨
      c = (threads pe t).phase / 6 ∧ x = pe ∧ y = cfg.next pe i := by
  rw [Posted, did_exec_iff h ht htodo]
  refine or_congr_right ?_
  constructor
  · rintro ⟨rfl, hthread, hc, hsignal⟩
    exact ⟨hc, rfl, (signalOp_eq_iff ht hop (phase_of_todo h htodo).2.2).mp ⟨hthread, hsignal⟩⟩
  · rintro ⟨hc, rfl, hy⟩
    have := (signalOp_eq_iff ht hop (phase_of_todo h htodo).2.2).mpr hy
    exact ⟨rfl, this.1, hc, this.2⟩

theorem posted_exec_iff_of_not_isSignal (ht : t < cfg.groupSize pe) (hop : ∀ i, ¬ op.IsSignal i)
    (htodo : (threads pe t).todo = .op op :: rest) :
    Posted cfg (exec threads pe t) c x y ↔ Posted cfg threads c x y := by
  rw [Posted, did_exec_iff h ht htodo, or_iff_left]
  · rfl
  · rintro ⟨-, -, -, rfl⟩
    exact hop _ signalOp_isSignal

end Exec

def State.heard (cfg : Config) (s : State cfg.size) (y x : Fin cfg.size) (half : ℕ) : List ℕ :=
  (s.arrived.filter fun g => g.dst = y ∧ g.index = cfg.psyncIndex half x).map Signal.call

/-- Signals on their way and arrived are those that have been sent, each once. The counters have the
number of those that arrived, and a wait that is over has been for the signal of its own call. -/
structure Signals (cfg : Config) (s : State cfg.size) : Prop where
  psync : ∀ y index, s.psync y index =
    (s.arrived.filter fun g => g.dst = y ∧ g.index = index).length % 2 ^ 64
  nodup : (s.signals ++ s.arrived).Nodup
  mem_iff : ∀ g, g ∈ s.signals ++ s.arrived ↔
    ∃ c x y, Posted cfg s.threads c x y ∧ g = cfg.signal c x y
  waited : ∀ y, ∀ t < cfg.groupSize y, ∀ c i, Did cfg s.threads y t c (.wait i) →
    cfg.signal c (cfg.next y i) y ∈ s.arrived

namespace Signals

theorem start : Signals cfg (State.start cfg) where
  psync := fun _ _ => rfl
  nodup := nodup_nil
  mem_iff := by
    intro g
    constructor
    · exact (absurd · not_mem_nil)
    · rintro ⟨c, x, y, hposted, -⟩
      exact absurd hposted not_posted_start
  waited := fun _ _ _ _ _ hdid => absurd hdid did_start

variable (hs : Signals cfg s)

include hs

theorem posted (hmem : cfg.signal c x y ∈ s.arrived) : Posted cfg s.threads c x y := by
  obtain ⟨c', x', y', hposted, heq⟩ := (hs.mem_iff _).mp (mem_append_right _ hmem)
  obtain ⟨rfl, rfl, rfl⟩ := signal_inj.mp heq
  exact hposted

theorem psync_eq {half : ℕ} :
    s.psync y (cfg.psyncIndex half x) = (s.heard cfg y x half).length % 2 ^ 64 := by
  rw [hs.psync, State.heard, length_map]

theorem eq_signal (hsound : cfg.Sound) {half : ℕ} {g : Signal cfg.size} (hg : g ∈ s.arrived)
    (hat : g.dst = y ∧ g.index = cfg.psyncIndex half x) :
    g = cfg.signal g.call x y ∧ g.call % 2 = half := by
  obtain ⟨c, x', y', -, rfl⟩ := (hs.mem_iff g).mp (mem_append_right _ hg)
  obtain rfl : y' = y := hat.1
  obtain ⟨hhalf, rfl⟩ := (psyncIndex_inj hsound).mp hat.2
  exact ⟨rfl, hhalf⟩

theorem mem_heard (hsound : cfg.Sound) {half : ℕ} :
    c ∈ s.heard cfg y x half ↔ cfg.signal c x y ∈ s.arrived ∧ c % 2 = half := by
  simp only [State.heard, mem_map, mem_filter, decide_eq_true_eq]
  constructor
  · rintro ⟨g, ⟨hg, hat⟩, rfl⟩
    obtain ⟨heq, hhalf⟩ := hs.eq_signal hsound hg hat
    exact ⟨heq ▸ hg, hhalf⟩
  · rintro ⟨hmem, rfl⟩
    exact ⟨cfg.signal c x y, ⟨hmem, rfl, rfl⟩, rfl⟩

theorem nodup_heard (hsound : cfg.Sound) {half : ℕ} : (s.heard cfg y x half).Nodup := by
  refine ((nodup_append.mp hs.nodup).2.1.filter _).map_on fun g hg g' hg' heq => ?_
  rw [mem_filter, decide_eq_true_eq] at hg hg'
  rw [(hs.eq_signal hsound hg.1 hg.2).1, (hs.eq_signal hsound hg'.1 hg'.2).1, heq]

theorem of_posted_iff {threads' : Fin cfg.size → ℕ → Thread Instr}
    (hposted : ∀ c x y, Posted cfg threads' c x y ↔ Posted cfg s.threads c x y)
    (hdid : ∀ y, ∀ t < cfg.groupSize y, ∀ c i, Did cfg threads' y t c (.wait i) →
      cfg.signal c (cfg.next y i) y ∈ s.arrived) :
    Signals cfg { s with threads := threads' } where
  psync := hs.psync
  nodup := hs.nodup
  mem_iff := by
    intro g
    simp only [hposted]
    exact hs.mem_iff g
  waited := hdid

theorem post {threads' : Fin cfg.size → ℕ → Thread Instr}
    (hposted : ∀ c' x' y', Posted cfg threads' c' x' y' ↔ Posted cfg s.threads c' x' y' ∨
      c' = c ∧ x' = x ∧ y' = y)
    (hnot : ¬ Posted cfg s.threads c x y)
    (hdid : ∀ y t c i, Did cfg threads' y t c (.wait i) → Did cfg s.threads y t c (.wait i)) :
    Signals cfg { s with threads := threads', signals := s.signals ++ [cfg.signal c x y] } := by
  have hperm : (s.signals ++ [cfg.signal c x y] ++ s.arrived).Perm
      (cfg.signal c x y :: (s.signals ++ s.arrived)) := by
    rw [append_assoc]
    exact perm_middle
  refine ⟨hs.psync, ?_, ?_, fun y t ht c i h => hs.waited y t ht c i (hdid y t c i h)⟩
  · rw [hperm.nodup_iff, nodup_cons]
    refine ⟨fun hmem => hnot ?_, hs.nodup⟩
    obtain ⟨c', x', y', h, heq⟩ := (hs.mem_iff _).mp hmem
    obtain ⟨rfl, rfl, rfl⟩ := signal_inj.mp heq
    exact h
  · intro g
    rw [hperm.mem_iff, mem_cons, hs.mem_iff]
    simp only [hposted]
    constructor
    · rintro (rfl | ⟨c', x', y', h, rfl⟩)
      · exact ⟨c, x, y, Or.inr ⟨rfl, rfl, rfl⟩, rfl⟩
      · exact ⟨c', x', y', Or.inl h, rfl⟩
    · rintro ⟨c', x', y', h | ⟨rfl, rfl, rfl⟩, rfl⟩
      · exact Or.inr ⟨c', x', y', h, rfl⟩
      · exact Or.inl rfl

theorem deliver {k : ℕ} {g : Signal cfg.size} (hk : s.signals[k]? = some g) :
    Signals cfg { s with
      signals := s.signals.eraseIdx k
      psync := set₂ s.psync g.dst g.index ((s.psync g.dst g.index + 1) % 2 ^ 64)
      arrived := s.arrived ++ [g] } := by
  have hperm : (s.signals.eraseIdx k ++ (s.arrived ++ [g])).Perm (s.signals ++ s.arrived) := by
    obtain ⟨hlt, rfl⟩ := List.getElem?_eq_some_iff.mp hk
    refine List.Perm.trans ?_ ((getElem_cons_eraseIdx_perm hlt).append_right s.arrived)
    rw [← append_assoc]
    exact perm_append_singleton _ _
  refine ⟨?_, hperm.nodup_iff.mpr hs.nodup, fun g' => hperm.mem_iff.trans (hs.mem_iff g'),
    fun y t ht c i h => mem_append_left _ (hs.waited y t ht c i h)⟩
  intro y index
  dsimp only
  rw [set₂_apply]
  by_cases heq : y = g.dst ∧ index = g.index
  · obtain ⟨rfl, rfl⟩ := heq
    rw [if_pos ⟨rfl, rfl⟩, hs.psync, Nat.mod_add_mod]
    simp
  · rw [if_neg heq, hs.psync]
    have hnot : ¬ (g.dst = y ∧ g.index = index) := fun h => heq ⟨h.1.symm, h.2.symm⟩
    simp [hnot]

section Wait

variable (h : Counters cfg s) (ht : t < cfg.groupSize y)
  (htodo : (s.threads y t).todo = .op (.wait i) :: rest)

include h ht htodo

omit hs in
theorem executed_addPwrk :
    executed .addPwrk (s.threads y 0) = (s.threads y t).phase / 6 + 1 := by
  have hphase : (s.threads y t).phase % 6 = 4 := (phase_of_todo h.phases htodo).2.1
  have hle := phase_le_of_todo h.phases htodo (Nat.lt_succ_self 3) ht groupSize_pos
  have hfinished := h.phases.barrier y (6 * ((s.threads y t).phase / 6) + 2) ⟨by omega, by omega⟩ t
    ht (by omega) 0 groupSize_pos
  rcases hfinished with hlt | ⟨heq, hnil⟩
  · rw [executed, if_neg fun h => absurd h.1 (by simp only [Op.phase]; omega)]
    simp only [Op.phase]
    omega
  · rw [executed, if_pos ⟨by simp only [Op.phase]; omega, hnil⟩, ← heq]
    simp only [Op.phase]
    omega

theorem call_lt_of_posted (hposted : Posted cfg s.threads c x y) :
    c < (s.threads y t).phase / 6 + 2 := by
  by_contra hle
  -- the sender has waited for this member in the next call
  have hmem : Op.wait (cfg.dist x y) ∈
      (cfg.call x ((s.threads y t).phase / 6 + 1)).phase (cfg.threadOf x y) 3 :=
    (mem_phase_wait threadOf_lt).mpr ⟨rfl, dist_lt, rfl⟩
  have hcalls : (s.threads y t).phase / 6 + 1 < cfg.calls := by
    have := hposted.mem.1
    omega
  have hpast : 6 * ((s.threads y t).phase / 6 + 1) + (3 + 1) <
      (s.threads x (cfg.threadOf x y)).phase := by
    have := hposted.lt_phase
    omega
  have hwait : Did cfg s.threads x (cfg.threadOf x y) ((s.threads y t).phase / 6 + 1)
      (.wait (cfg.dist x y)) :=
    did_of_lt h.phases (Nat.lt_succ_self 3) threadOf_lt hpast threadOf_lt hcalls hmem
  have harrived := hs.waited x _ threadOf_lt _ _ hwait
  rw [next_dist] at harrived
  -- so this member is in the next call itself
  have hlt := (hs.posted harrived).lt_phase
  have := phase_le_of_todo h.phases htodo (Nat.lt_succ_self 3) ht (threadOf_lt (y := x))
  omega

theorem mem_arrived (hsound : cfg.Sound)
    (hle : s.alltoallPwrk y (s.pwrkHalf y t) ≤
      s.psync y (cfg.psyncIndex (s.psyncHalf y t) (cfg.next y i))) :
    cfg.signal ((s.threads y t).phase / 6) (cfg.next y i) y ∈ s.arrived := by
  have hcall := (phase_of_todo h.phases htodo).1
  have hcalls := hsound.calls_lt
  rw [h.half_eq h.pwrkHalf (.inr rfl) ht htodo, h.half_eq h.psyncHalf (.inl rfl) ht htodo,
    h.pwrk _ _ (Nat.mod_lt _ Nat.two_pos),
    executed_addPwrk h ht htodo, hs.psync_eq] at hle
  by_contra hnot
  -- what has arrived at the counter is from earlier calls, which are less than the bound
  have hbound : (s.heard cfg y (cfg.next y i) ((s.threads y t).phase / 6 % 2)).length ≤
      ofParity ((s.threads y t).phase / 6) ((s.threads y t).phase / 6 % 2) := by
    refine length_le_ofParity (hs.nodup_heard hsound) fun c hc => ?_
    obtain ⟨hmem, hparity⟩ := (hs.mem_heard hsound).mp hc
    have hlt := hs.call_lt_of_posted h ht htodo (hs.posted hmem)
    have hne : c ≠ (s.threads y t).phase / 6 := by
      rintro rfl
      exact hnot hmem
    exact ⟨by omega, hparity⟩
  rw [ofParity_succ (Nat.mod_lt _ Nat.two_pos), if_pos rfl] at hle
  rw [ofParity] at hbound hle
  omega

end Wait

section Step

variable (h : Counters cfg s)

include h

theorem exec_get (ht : t < cfg.groupSize pe) (htodo : (s.threads pe t).todo = instr :: rest)
    (hinstr : instr = .getPsync ∨ instr = .getPwrk) :
    Signals cfg { s with threads := exec s.threads pe t } :=
  hs.of_posted_iff (fun _ _ _ => did_exec_get_iff h.phases ht htodo hinstr)
    fun y t' ht' c i hdid =>
      hs.waited y t' ht' c i ((did_exec_get_iff h.phases ht htodo hinstr).mp hdid)

theorem exec (ht : t < cfg.groupSize pe) (htodo : (s.threads pe t).todo = .op op :: rest)
    (hop : ∀ i, ¬ op.IsSignal i)
    (hwait : ∀ i, op = .wait i → cfg.signal ((s.threads pe t).phase / 6) (cfg.next pe i) pe ∈
      s.arrived) : Signals cfg { s with threads := exec s.threads pe t } := by
  refine hs.of_posted_iff
    (fun _ _ _ => posted_exec_iff_of_not_isSignal h.phases ht hop htodo) fun y t' ht' c i hdid => ?_
  rcases (did_exec_iff h.phases ht htodo).mp hdid with hdid | ⟨rfl, rfl, rfl, hop⟩
  · exact hs.waited y t' ht' c i hdid
  · exact hwait i hop.symm

theorem exec_signal (ht : t < cfg.groupSize pe) (htodo : (s.threads pe t).todo = .op op :: rest)
    (hop : op.IsSignal i) :
    Signals cfg { s with
      threads := Phases.exec s.threads pe t
      signals := s.signals ++ [s.signalFor cfg pe t i] } := by
  have hsignal : s.signalFor cfg pe t i =
      cfg.signal ((s.threads pe t).phase / 6) pe (cfg.next pe i) := by
    rw [State.signalFor, h.half_eq h.psyncHalf (.inl rfl) ht htodo]
    rfl
  rw [hsignal]
  have hmem := (phase_of_todo h.phases htodo).2.2
  refine hs.post (fun _ _ _ => posted_exec_iff h.phases ht hop htodo) (fun hposted => ?_) ?_
  · have hthis := (signalOp_eq_iff ht hop hmem).mpr rfl
    rw [Posted, hthis.1, hthis.2] at hposted
    exact not_did_of_todo h.phases htodo hposted
  · intro y t' c i' hdid
    refine ((did_exec_iff h.phases ht htodo).mp hdid).resolve_right ?_
    rintro ⟨-, -, -, rfl⟩
    rcases hop with hop | hop <;> exact nomatch hop

theorem step (hsound : cfg.Sound) (hmoved : s.Moved cfg s') : Signals cfg s' := by
  cases hmoved with
  | getPsync ht htodo _ =>
    have h' := hs.exec_get h ht htodo (Or.inl rfl)
    exact ⟨h'.psync, h'.nodup, h'.mem_iff, h'.waited⟩
  | getPwrk ht htodo _ =>
    have h' := hs.exec_get h ht htodo (Or.inr rfl)
    exact ⟨h'.psync, h'.nodup, h'.mem_iff, h'.waited⟩
  | putSignal ht htodo =>
    have h' := hs.exec_signal h ht htodo (Or.inl rfl)
    exact ⟨h'.psync, h'.nodup, h'.mem_iff, h'.waited⟩
  | signal ht htodo => exact hs.exec_signal h ht htodo (Or.inr rfl)
  | put ht htodo | addPwrk ht htodo | quiet ht htodo _ | addCount ht htodo =>
    have h' := hs.exec h ht htodo (fun _ hop => hop.elim (nomatch ·) (nomatch ·))
      (fun _ => (nomatch ·))
    exact ⟨h'.psync, h'.nodup, h'.mem_iff, h'.waited⟩
  | wait ht htodo hle =>
    refine hs.exec h ht htodo (fun _ hop => hop.elim (nomatch ·) (nomatch ·)) fun i hi => ?_
    obtain rfl := Op.wait.inj hi
    exact hs.mem_arrived h ht htodo hsound hle
  | pass _ _ hpass =>
    exact hs.of_posted_iff (fun _ _ _ => posted_pass_iff hpass.1) fun y t ht c i hdid =>
      hs.waited y t ht c i ((did_pass_iff hpass.1).mp hdid)
  | deliver _ => exact ⟨hs.psync, hs.nodup, hs.mem_iff, hs.waited⟩
  | deliverSignal hk _ => exact hs.deliver hk

end Step

end Signals

end Nvshmem.Alltoall
