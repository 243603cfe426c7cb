import Nvshmem.Coll.AlltoallCorrect
import Nvshmem.Transition.Inevitable

/-! # Alltoalls return

Every step makes the work that is left smaller. As long as a member has not returned from the last
call, something arrives or a thread that is behind all the others goes on.
-/

namespace Nvshmem.Alltoall

open Phases Tables Transition List Option Finset Config State

variable {cfg : Config} {pe x y : Fin cfg.size} {t c p i : ℕ} {op : Op} {rest : List Instr}
  {instr : Instr} {s s' : State cfg.size}

def State.Finished (cfg : Config) (s : State cfg.size) : Prop :=
  ∀ pe, ∀ t < cfg.groupSize pe, 6 * cfg.calls ≤ (s.threads pe t).phase

def Config.cost (cfg : Config) : ℕ := ∑ c ∈ Finset.range cfg.calls, cfg.msgsize c + 2

def remaining (cfg : Config) (pe : Fin cfg.size) (t : ℕ) (th : Thread Instr) : ℕ :=
  th.todo.length * cfg.cost +
    ∑ p ∈ Finset.Ico th.phase (6 * cfg.calls), (1 + (cfg.prog pe t (p + 1)).length * cfg.cost)

def State.measure (cfg : Config) (s : State cfg.size) : ℕ :=
  ∑ pe, ∑ t ∈ Finset.range (cfg.groupSize pe), remaining cfg pe t (s.threads pe t) +
    s.flying.length + s.signals.length

theorem length_packets_lt (hc : c < cfg.calls) (pe : Fin cfg.size) (t : ℕ) (op : Op)
    (copied : Bool) : (cfg.packets pe t c op copied).length + 1 < cfg.cost := by
  have hbytes : (cfg.packets pe t c op copied).length ≤ cfg.msgsize c := by
    rw [packets, length_map]
    exact (length_filter_le _ _).trans_eq length_range
  have hsum : cfg.msgsize c ≤ ∑ c ∈ Finset.range cfg.calls, cfg.msgsize c :=
    Finset.single_le_sum (fun _ _ => Nat.zero_le _) (Finset.mem_range.mpr hc)
  rw [cost]
  omega

def total (cfg : Config) (threads : Fin cfg.size → ℕ → Thread Instr) : ℕ :=
  ∑ pe, ∑ t ∈ Finset.range (cfg.groupSize pe), remaining cfg pe t (threads pe t)

theorem State.measure_eq :
    s.measure cfg = total cfg s.threads + s.flying.length + s.signals.length := rfl

section Total

variable {threads : Fin cfg.size → ℕ → Thread Instr} (ht : t < cfg.groupSize pe)
include ht

theorem total_set₂ {thread : Thread Instr} {n : ℕ}
    (hthread : remaining cfg pe t (threads pe t) = remaining cfg pe t thread + n) :
    total cfg (set₂ threads pe t thread) + n = total cfg threads := by
  have hsum := sum_set₂ (B := fun pe => Finset.range (cfg.groupSize pe)) (f := threads)
    (v := thread) (Finset.mem_univ pe) (Finset.mem_range.mpr ht) (remaining cfg)
  rw [total, total]
  omega

theorem total_exec (htodo : (threads pe t).todo = instr :: rest) :
    total cfg (exec threads pe t) + cfg.cost = total cfg threads := by
  refine total_set₂ ht ?_
  simp only [remaining, htodo, tail_cons, length_cons]
  ring

theorem total_pass (htodo : (threads pe t).todo = []) (hlt : (threads pe t).phase < 6 * cfg.calls) :
    total cfg (pass cfg.prog threads pe t) + 1 = total cfg threads := by
  refine total_set₂ ht ?_
  simp only [remaining, htodo, length_nil, sum_eq_sum_Ico_succ_bot hlt]
  ring

end Total

theorem length_eraseIdx_lt {α : Type*} {l : List α} {k : ℕ} {a : α} (hk : l[k]? = some a) :
    (l.eraseIdx k).length < l.length := by
  have hlt := (List.getElem?_eq_some_iff.mp hk).1
  rw [length_eraseIdx_of_lt hlt]
  omega

theorem State.Moved.measure_lt (h : Phases.Inv cfg.prog sync cfg.groupSize s.threads)
    (hmoved : s.Moved cfg s') : s'.measure cfg < s.measure cfg := by
  have hcost : 2 ≤ cfg.cost := Nat.le_add_left _ _
  cases hmoved with
  | getPsync ht htodo _ | getPwrk ht htodo _ | addPwrk ht htodo | wait ht htodo _
  | quiet ht htodo _ | addCount ht htodo =>
    have := total_exec ht htodo
    simp only [measure_eq]
    omega
  | @putSignal pe t i _ ht htodo =>
    have := total_exec ht htodo
    have := length_packets_lt (c := s.callOf cfg pe t) (phase_of_todo h htodo).1 pe t (.putSignal i)
      false
    simp only [measure_eq, length_append, length_singleton]
    omega
  | @put pe t i scope _ ht htodo =>
    have := total_exec ht htodo
    have := length_packets_lt (c := s.callOf cfg pe t) (phase_of_todo h htodo).1 pe t (.put scope i)
      true
    simp only [measure_eq, length_append]
    omega
  | signal ht htodo =>
    have := total_exec ht htodo
    simp only [measure_eq, length_append, length_singleton]
    omega
  | pass ht hlt hpass =>
    have := total_pass ht hpass.1 hlt
    simp only [measure_eq]
    omega
  | deliver hk | deliverSignal hk _ =>
    have := length_eraseIdx_lt hk
    simp only [measure_eq]
    omega

section Enabled

variable (cfg) in
def State.Enabled (s : State cfg.size) : Prop :=
  ∃ a s', restrict (readsCount cfg) (step cfg) s a = some s'

theorem enabled_of_isSome {a : Action cfg.size} (hok : s.readsCount cfg a)
    (hsome : (s.step cfg a).isSome) : s.Enabled cfg := by
  obtain ⟨s', hs'⟩ := isSome_iff_exists.mp hsome
  exact ⟨a, s', restrict_eq_some.mpr ⟨hok, hs'⟩⟩

theorem enabled_of_execute (ht : t < cfg.groupSize pe)
    (htodo : (s.threads pe t).todo = instr :: rest)
    (hcount : instr = .getPsync ∨ instr = .getPwrk → s.alltoallCount pe = s.callOf cfg pe t)
    (hexecute : (s.execute cfg pe t instr).isSome) : s.Enabled cfg := by
  refine enabled_of_isSome (a := .exec pe t) (fun hhead => hcount ?_) ?_
  · rw [htodo] at hhead
    simpa using hhead
  · rw [step, if_pos ht, htodo]
    simpa using hexecute

theorem enabled_of_flying (hflying : s.flying ≠ []) : s.Enabled cfg := by
  obtain ⟨p, l, hcons⟩ := exists_cons_of_ne_nil hflying
  refine enabled_of_isSome (a := .deliver 0 0) trivial ?_
  rw [step, hcons]
  rfl

theorem enabled_of_signals (hflying : s.flying = []) (hsignals : s.signals ≠ []) :
    s.Enabled cfg := by
  obtain ⟨g, l, hcons⟩ := exists_cons_of_ne_nil hsignals
  have hdeliver : s.CanDeliver cfg g := by
    intro p hp
    rw [hflying] at hp
    exact absurd hp not_mem_nil
  refine enabled_of_isSome (a := .deliverSignal 0) trivial ?_
  rw [step, hcons, getElem?_cons_zero]
  simp only [if_pos hdeliver, isSome_some]

variable (h : Inv cfg s)

include h

theorem alltoallCount_eq (hsound : cfg.Sound) (ht : t < cfg.groupSize pe)
    (hmin : ∀ t' < cfg.groupSize pe, (s.threads pe t).phase ≤ (s.threads pe t').phase)
    (hmod : (s.threads pe t).phase % 6 = 0) (hlt : (s.threads pe t).phase / 6 < cfg.calls) :
    s.alltoallCount pe = s.callOf cfg pe t := by
  have hle := hmin 0 groupSize_pos
  have hcalls := hsound.calls_lt
  have hphase : (s.threads pe 0).phase ≤ (s.threads pe t).phase + 1 := by
    by_contra hgt
    have hfinished := h.counters.phases.barrier pe ((s.threads pe t).phase + 1) ⟨by omega, by omega⟩
      0 groupSize_pos (by omega) t ht
    rcases hfinished with hlt | ⟨heq, -⟩ <;> omega
  rw [h.counters.count, executed, if_neg fun h => absurd h.1 (by simp only [Op.phase]; omega),
    callOf]
  simp only [Op.phase]
  omega

theorem mem_arrived_of_posted (hsignals : s.signals = []) (hposted : Posted cfg s.threads c x y) :
    cfg.signal c x y ∈ s.arrived := by
  have hmem := (h.signals.mem_iff (cfg.signal c x y)).mpr ⟨c, x, y, hposted, rfl⟩
  rwa [hsignals, nil_append] at hmem

theorem pwrk_le_psync (hsound : cfg.Sound) (hsignals : s.signals = []) (ht : t < cfg.groupSize y)
    (hmin : ∀ x, ∀ t' < cfg.groupSize x, (s.threads y t).phase ≤ (s.threads x t').phase)
    (htodo : (s.threads y t).todo = .op (.wait i) :: rest) :
    s.alltoallPwrk y (s.pwrkHalf y t) ≤
      s.psync y (cfg.psyncIndex (s.psyncHalf y t) (cfg.next y i)) := by
  have hcalls := hsound.calls_lt
  obtain ⟨hcall, hphase, -⟩ := phase_of_todo h.counters.phases htodo
  rw [Op.phase] at hphase
  rw [h.counters.half_eq h.counters.pwrkHalf (.inr rfl) ht htodo,
    h.counters.half_eq h.counters.psyncHalf (.inl rfl) ht htodo,
    h.counters.pwrk _ _ (Nat.mod_lt _ Nat.two_pos), Signals.executed_addPwrk h.counters ht htodo,
    h.signals.psync_eq]
  generalize hx : cfg.next y i = x
  generalize hc : (s.threads y t).phase / 6 = c at *
  -- all signals of the calls up to this one have arrived, and no more than there are calls
  have hlower : ofParity (c + 1) (c % 2) ≤ (s.heard cfg y x (c % 2)).length := by
    refine ofParity_le_length (Nat.mod_lt _ Nat.two_pos) fun c' hc' hparity => ?_
    refine (h.signals.mem_heard hsound).mpr ⟨mem_arrived_of_posted h hsignals ?_, hparity⟩
    have hle := hmin x (cfg.threadOf x y) threadOf_lt
    have hop := (signalOp_isSignal (x := x) (y := y)).phase_le
    have hlt : 6 * c' + ((cfg.signalOp x y).phase + 1) <
        (s.threads x (cfg.threadOf x y)).phase := by omega
    exact Thread.Finished.done (Or.inl hlt)
      (mem_prog_call.mpr ⟨by omega, signalOp_mem_phase⟩)
  have hupper : (s.heard cfg y x (c % 2)).length ≤ ofParity cfg.calls (c % 2) := by
    refine length_le_ofParity (h.signals.nodup_heard hsound) fun c' hc' => ?_
    obtain ⟨hmem, hparity⟩ := (h.signals.mem_heard hsound).mp hc'
    exact ⟨(h.signals.posted hmem).mem.1, hparity⟩
  rw [ofParity] at hlower hupper ⊢
  omega

theorem enabled_of_todo (hsound : cfg.Sound) (hflying : s.flying = []) (hsignals : s.signals = [])
    (ht : t < cfg.groupSize pe) (htodo : (s.threads pe t).todo = instr :: rest)
    (hmin : ∀ x, ∀ t' < cfg.groupSize x, (s.threads pe t).phase ≤ (s.threads x t').phase) :
    s.Enabled cfg := by
  have hmem : instr ∈ cfg.prog pe t (s.threads pe t).phase :=
    h.counters.phases.mem_prog (htodo ▸ mem_cons_self)
  refine enabled_of_execute ht htodo (fun hget => ?_) ?_
  · obtain ⟨hcall, hmod⟩ := (mem_prog_get hget).mp hmem
    exact alltoallCount_eq h hsound ht (hmin pe) hmod hcall
  · cases instr with
    | getPsync | getPwrk => rfl
    | op op =>
      cases op with
      | wait i =>
        rw [execute, if_pos (pwrk_le_psync h hsound hsignals ht hmin htodo)]
        rfl
      | quiet scope =>
        rw [execute, if_pos (by rw [hflying]; exact fun p hp => absurd hp not_mem_nil)]
        rfl
      | _ => rfl

theorem enabled (hsound : cfg.Sound) (hnot : ¬ s.Finished cfg) : s.Enabled cfg := by
  classical
  by_cases hflying : s.flying = []
  swap
  · exact enabled_of_flying hflying
  by_cases hsignals : s.signals = []
  swap
  · exact enabled_of_signals hflying hsignals
  obtain ⟨pe₀, t₀, ht₀, hlt⟩ : ∃ pe, ∃ t < cfg.groupSize pe,
      (s.threads pe t).phase < 6 * cfg.calls := by
    simpa only [Finished, not_forall, Nat.not_le, exists_prop] using hnot
  -- the threads that are behind all others
  have hex : ∃ n pe, ∃ t < cfg.groupSize pe, (s.threads pe t).phase = n := ⟨_, pe₀, t₀, ht₀, rfl⟩
  obtain ⟨pe, t, ht, hphase⟩ := Nat.find_spec hex
  have hmin : ∀ x, ∀ t' < cfg.groupSize x, (s.threads pe t).phase ≤ (s.threads x t').phase :=
    fun x t' ht' => hphase ▸ Nat.find_min' hex ⟨x, t', ht', rfl⟩
  by_cases hwork : ∃ t' < cfg.groupSize pe,
      (s.threads pe t').phase = (s.threads pe t).phase ∧ (s.threads pe t').todo ≠ []
  · obtain ⟨t', ht', heq, htodo⟩ := hwork
    obtain ⟨instr, rest, htodo⟩ := exists_cons_of_ne_nil htodo
    exact enabled_of_todo h hsound hflying hsignals ht' htodo (heq ▸ hmin)
  · have hnil : ∀ t' < cfg.groupSize pe, (s.threads pe t').phase = (s.threads pe t).phase →
        (s.threads pe t').todo = [] := by
      intro t' ht' heq
      by_contra htodo
      exact hwork ⟨t', ht', heq, htodo⟩
    have hpass : CanPass sync cfg.groupSize s.threads pe t := by
      refine ⟨hnil t ht rfl, fun _ t' ht' => ?_⟩
      exact (Nat.lt_or_eq_of_le (hmin pe t' ht')).imp_right fun heq => ⟨heq, hnil t' ht' heq.symm⟩
    refine enabled_of_isSome (a := .pass pe t) trivial ?_
    rw [step, if_pos ⟨ht, (hmin pe₀ t₀ ht₀).trans_lt hlt, hpass⟩]
    rfl

end Enabled

/-- If threads read the counter of a PE only after it has been incremented for the calls that they
have finished, every run of alltoalls is correct in each of its states and ends with all members
returned from all calls. -/
theorem alltoalls_correct (cfg : Config) (hsound : cfg.Sound) :
    (∀ s, Reachable (restrict (State.readsCount cfg) (State.step cfg)) (State.start cfg) s →
      s.Correct cfg) ∧
    Inevitable (fun _ => True) (restrict (State.readsCount cfg) (State.step cfg))
      (State.Finished cfg) (State.start cfg) := by
  constructor
  · intro s hs
    have h : Inv cfg s := hs.invariant .start fun h hstep => h.step hsound (.of_step hstep)
    exact h.correct
  · refine Inevitable.of_measure (I := Inv cfg) (measure cfg)
      (fun h hstep => h.step hsound (.of_step hstep))
      (fun h _ hstep => (State.Moved.of_step hstep).measure_lt h.counters.phases)
      (fun h hnot => ?_) .start
    obtain ⟨a, s', hs'⟩ := enabled h hsound hnot
    exact ⟨a, s', trivial, hs'⟩

local instance neZero_two : NeZero 2 := ⟨two_ne_zero⟩

def Config.twoThreads : Config where
  size := 2
  peMapping := Fin.val
  peMapping_injective := Fin.val_injective
  group := fun pe =>
    if pe = 0 then ⟨.block, 2, Nat.two_pos, (nomatch ·), (nomatch ·)⟩ else .oneThread
  direct := fun _ _ => true
  calls := 2
  nelems := fun _ => 1
  sizeofT := fun _ => 1
  source := fun c pe a => BitVec.ofInt 8 (16 * c + 4 * pe + a)
  address := fun _ _ _ => (0, 0)

theorem Config.sound_twoThreads : twoThreads.Sound where
  offset_lt := fun _ _ => (by decide : 1 * (2 - 1) < 2 ^ 31)
  quiets := fun _ ⟨_, hdirect⟩ => nomatch hdirect
  peMapping_lt := fun pe => pe.isLt.trans (by decide)
  calls_lt := by decide

theorem alltoalls_correct_twoThreads : Config.twoThreads.Sound ∧
    (∀ s, Reachable (restrict (State.readsCount .twoThreads) (State.step .twoThreads))
      (State.start .twoThreads) s → s.Correct .twoThreads) ∧
    Inevitable (fun _ => True) (restrict (State.readsCount .twoThreads) (State.step .twoThreads))
      (State.Finished .twoThreads) (State.start .twoThreads) :=
  ⟨sound_twoThreads, alltoalls_correct _ sound_twoThreads⟩

/-- Both members make the first call. The second thread of the first member returns from it and
reads the counter before the first thread has incremented it. It then waits for the signal of the
first call in the second one, which the other member has not begun. -/
def Config.staleRun : List (Action 2) :=
  [.exec 0 0, .exec 0 0, .pass 0 0, .exec 0 0, .exec 0 1, .exec 0 1, .pass 0 1, .exec 0 1,
    .exec 1 0, .exec 1 0, .pass 1 0, .exec 1 0, .exec 1 0, .pass 1 0, .exec 1 0, .pass 1 0,
    .exec 1 0, .exec 1 0, .deliver 0 0, .deliver 0 0, .deliver 0 0, .deliver 0 0,
    .deliverSignal 0, .deliverSignal 0, .pass 0 0, .exec 0 0, .pass 0 1, .pass 0 0, .exec 0 0,
    .pass 0 1, .exec 0 1, .deliverSignal 0, .deliverSignal 0, .pass 0 0, .exec 0 0, .exec 0 0,
    .pass 0 1, .exec 0 1, .exec 0 1, .pass 0 1, .pass 0 1, .exec 0 1, .exec 0 1,
    .pass 0 0, .exec 0 0, .pass 0 0, .exec 0 0, .exec 0 0, .pass 0 0, .exec 0 0, .pass 0 1,
    .exec 0 1, .pass 0 0, .exec 0 0, .pass 0 1, .pass 0 0, .exec 0 0, .pass 0 1, .exec 0 1,
    .deliver 0 0, .deliver 0 0, .deliverSignal 0, .deliverSignal 0, .pass 0 0, .exec 0 0,
    .exec 0 0, .pass 0 1, .exec 0 1, .exec 0 1, .pass 0 1, .pass 0 1]

/-- The first member returns from the second call without the block of the other one. -/
theorem not_correct_twoThreads : ∃ s, Reachable (State.step .twoThreads)
    (State.start .twoThreads) s ∧ ¬ s.Correct .twoThreads := by
  refine Reachable.exists_of_exec staleRun (fun s : State 2 =>
    (s.threads 0 1).phase = 12 ∧ s.dest 1 0 1 = none) (by decide +kernel) ?_
  rintro s - ⟨hphase, hdest⟩ h
  have hreturned : s.Returned .twoThreads (0 : Fin 2) 1 := ⟨1, Nat.one_lt_two, hphase.ge⟩
  have hblock := h.returned 1 Nat.one_lt_two (0 : Fin 2) hreturned (1 : Fin 2) 0 Nat.one_pos
  exact some_ne_none _ (hblock.symm.trans hdest)

end Nvshmem.Alltoall
