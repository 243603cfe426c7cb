import Nvshmem.Coll.AlltoallCalls

/-! # What holds while the members of a team make alltoalls

The group synchronizes between the phases of a call, so a thread that is past a phase has what all
others do in it behind it. The counters of a PE follow its first thread, and if no thread reads them
too early all of them use the half of their call.
-/

namespace Nvshmem.Alltoall

open Phases Tables Transition List Option Option List Nat Config Instr

variable {cfg : Config} {pe pe' x y : Fin cfg.size} {t t' c c' p i : ℕ} {op op' : Op}
  {threads : Fin cfg.size → ℕ → Thread Instr} {rest : List Instr} {instr : Instr}

namespace Op

theorem phase_lt (op : Op) : op.phase < 5 := by
  cases op <;> simp [phase]

end Op

namespace Config

theorem mem_prog_op : .op op ∈ cfg.prog pe t p ↔ p / 6 < cfg.calls ∧ p % 6 = op.phase + 1 ∧
    op ∈ (cfg.call pe (p / 6)).phase t op.phase := by
  rw [prog]
  split_ifs with hcall
  · simp only [hcall, true_and]
    split
    · next hp => simp [hp]
    · next k hk =>
      rw [List.mem_map_of_injective fun _ _ => Instr.op.inj]
      constructor
      · intro hop
        obtain rfl := Call.phase_of_mem hop
        exact ⟨hk, hop⟩
      · rintro ⟨hp, hop⟩
        obtain rfl : k = op.phase := by omega
        exact hop
  · simp [hcall]

theorem mem_prog_get (hinstr : instr = .getPsync ∨ instr = .getPwrk) :
    instr ∈ cfg.prog pe t p ↔ p / 6 < cfg.calls ∧ p % 6 = 0 := by
  rw [prog]
  split_ifs with hcall
  · simp only [hcall, true_and]
    split
    · next hp => rcases hinstr with rfl | rfl <;> simp [hp]
    · next k hk => rcases hinstr with rfl | rfl <;> simp [hk]
  · simp [hcall]

theorem nodup_prog (ht : t < cfg.groupSize pe) : (cfg.prog pe t p).Nodup := by
  rw [prog]
  split_ifs
  · split
    · simp
    · exact (Call.nodup_phase ht _).map fun _ _ => op.inj
  · exact nodup_nil

theorem mem_prog_call : .op op ∈ cfg.prog pe t (6 * c + (op.phase + 1)) ↔
    c < cfg.calls ∧ op ∈ (cfg.call pe c).phase t op.phase := by
  have hlt := op.phase_lt
  rw [mem_prog_op, show (6 * c + (op.phase + 1)) / 6 = c by omega,
    show (6 * c + (op.phase + 1)) % 6 = op.phase + 1 by omega]
  simp

end Config

def Did (cfg : Config) (threads : Fin cfg.size → ℕ → Thread Instr) (pe : Fin cfg.size) (t c : ℕ)
    (op : Op) : Prop :=
  Done cfg.prog threads pe t (6 * c + (op.phase + 1)) (.op op)

theorem Did.mem (h : Did cfg threads pe t c op) :
    c < cfg.calls ∧ op ∈ (cfg.call pe c).phase t op.phase :=
  mem_prog_call.mp h.1

theorem did_start : ¬ Did cfg (start cfg.prog) pe t c op := not_done_start

theorem did_pass_iff (htodo : (threads pe t).todo = []) :
    Did cfg (pass cfg.prog threads pe t) pe' t' c op ↔ Did cfg threads pe' t' c op :=
  done_pass_iff htodo

section Inv

variable (h : Phases.Inv cfg.prog sync cfg.groupSize threads)

include h

theorem phase_of_todo (htodo : (threads pe t).todo = .op op :: rest) :
    (threads pe t).phase / 6 < cfg.calls ∧ (threads pe t).phase % 6 = op.phase + 1 ∧
      op ∈ (cfg.call pe ((threads pe t).phase / 6)).phase t op.phase :=
  mem_prog_op.mp (h.mem_prog (htodo ▸ mem_cons_self))

theorem did_exec_iff (ht : t < cfg.groupSize pe) (htodo : (threads pe t).todo = .op op :: rest) :
    Did cfg (exec threads pe t) pe' t' c' op' ↔ Did cfg threads pe' t' c' op' ∨
      pe' = pe ∧ t' = t ∧ c' = (threads pe t).phase / 6 ∧ op' = op := by
  obtain ⟨-, hphase, -⟩ := phase_of_todo h htodo
  rw [Did, done_exec_iff (h.suffix pe t) (Config.nodup_prog ht) htodo]
  refine or_congr_right (and_congr_right fun _ => and_congr_right fun _ => ?_)
  constructor
  · rintro ⟨hp, hop⟩
    obtain rfl := Instr.op.inj hop
    exact ⟨by omega, rfl⟩
  · rintro ⟨rfl, rfl⟩
    exact ⟨by omega, rfl⟩

theorem did_exec_get_iff (ht : t < cfg.groupSize pe)
    (htodo : (threads pe t).todo = instr :: rest) (hinstr : instr = .getPsync ∨ instr = .getPwrk) :
    Did cfg (exec threads pe t) pe' t' c' op' ↔ Did cfg threads pe' t' c' op' := by
  rw [Did, done_exec_iff (h.suffix pe t) (nodup_prog ht) htodo, or_iff_left]
  · rfl
  · rintro ⟨-, -, -, rfl⟩
    rcases hinstr with hinstr | hinstr <;> exact nomatch hinstr

theorem not_did_of_todo (htodo : (threads pe t).todo = .op op :: rest) :
    ¬ Did cfg threads pe t ((threads pe t).phase / 6) op := by
  obtain ⟨-, hphase, -⟩ := phase_of_todo h htodo
  rw [Did, ← hphase, div_add_mod]
  exact not_done_of_mem (htodo ▸ mem_cons_self)

theorem did_of_lt (hop : op.phase < 4) (ht : t < cfg.groupSize pe)
    (hlt : 6 * c + (op.phase + 1) < (threads pe t).phase) (ht' : t' < cfg.groupSize pe)
    (hc : c < cfg.calls) (hmem : op ∈ (cfg.call pe c).phase t' op.phase) :
    Did cfg threads pe t' c op :=
  h.done ⟨by omega, by omega⟩ ht hlt ht' (mem_prog_call.mpr ⟨hc, hmem⟩)

theorem phase_le_of_todo (htodo : (threads pe t').todo = .op op :: rest) (hop : op.phase < 4)
    (ht' : t' < cfg.groupSize pe) (ht : t < cfg.groupSize pe) :
    (threads pe t).phase ≤ (threads pe t').phase := by
  obtain ⟨-, hphase, -⟩ := phase_of_todo h htodo
  have hmem : .op op ∈ (threads pe t').todo := htodo ▸ mem_cons_self
  exact h.phase_le ⟨by omega, by omega⟩ ht ht' hmem

end Inv

namespace Config

def dist (x y : Fin cfg.size) : ℕ := (y + (cfg.size - x)) % cfg.size

theorem val_next : (cfg.next x i : ℕ) = (x + i) % cfg.size := rfl

theorem dist_lt : cfg.dist x y < cfg.size := mod_lt _ x.pos

@[simp]
theorem next_dist : cfg.next x (cfg.dist x y) = y := by
  apply Fin.ext
  rw [val_next, dist, add_mod_mod, show (x : ℕ) + (y + (cfg.size - x)) = y + cfg.size by omega,
    add_mod_right, mod_eq_of_lt y.isLt]

theorem dist_next (hi : i < cfg.size) : cfg.dist x (cfg.next x i) = i := by
  rw [dist, val_next, mod_add_mod, show (x : ℕ) + i + (cfg.size - x) = i + cfg.size by omega,
    add_mod_right, mod_eq_of_lt hi]

theorem groupSize_pos : 0 < cfg.groupSize pe := (cfg.group pe).size_pos

def threadOf (x y : Fin cfg.size) : ℕ := cfg.dist x y % cfg.groupSize x

theorem threadOf_lt : cfg.threadOf x y < cfg.groupSize x := mod_lt _ groupSize_pos

end Config

namespace State

inductive Moved (cfg : Config) (s : State cfg.size) : State cfg.size → Prop where
  | getPsync {pe : Fin cfg.size} {t : ℕ} {rest : List Instr}
      (ht : t < cfg.groupSize pe)
      (htodo : (s.threads pe t).todo = .getPsync :: rest)
      (hcount : s.alltoallCount pe = s.callOf cfg pe t) :
      Moved cfg s { s with
        threads := exec s.threads pe t
        psyncHalf := set₂ s.psyncHalf pe t (s.callOf cfg pe t % 2) }
  | getPwrk {pe : Fin cfg.size} {t : ℕ} {rest : List Instr}
      (ht : t < cfg.groupSize pe)
      (htodo : (s.threads pe t).todo = .getPwrk :: rest)
      (hcount : s.alltoallCount pe = s.callOf cfg pe t) :
      Moved cfg s { s with
        threads := exec s.threads pe t
        pwrkHalf := set₂ s.pwrkHalf pe t (s.callOf cfg pe t % 2) }
  | putSignal {pe : Fin cfg.size} {t i : ℕ} {rest : List Instr}
      (ht : t < cfg.groupSize pe)
      (htodo : (s.threads pe t).todo = .op (.putSignal i) :: rest) :
      Moved cfg s { s with
        threads := exec s.threads pe t
        flying := s.flying ++ cfg.packets pe t (s.callOf cfg pe t) (.putSignal i) false
        signals := s.signals ++ [s.signalFor cfg pe t i] }
  | put {pe : Fin cfg.size} {t i : ℕ} {scope : Scope} {rest : List Instr}
      (ht : t < cfg.groupSize pe)
      (htodo : (s.threads pe t).todo = .op (.put scope i) :: rest) :
      Moved cfg s { s with
        threads := exec s.threads pe t
        flying := s.flying ++ cfg.packets pe t (s.callOf cfg pe t) (.put scope i) true }
  | addPwrk {pe : Fin cfg.size} {t : ℕ} {rest : List Instr}
      (ht : t < cfg.groupSize pe)
      (htodo : (s.threads pe t).todo = .op .addPwrk :: rest) :
      Moved cfg s { s with
        threads := exec s.threads pe t
        alltoallPwrk := set₂ s.alltoallPwrk pe (s.pwrkHalf pe t)
          ((s.alltoallPwrk pe (s.pwrkHalf pe t) + 1) % 2 ^ 64) }
  | signal {pe : Fin cfg.size} {t i : ℕ} {rest : List Instr}
      (ht : t < cfg.groupSize pe)
      (htodo : (s.threads pe t).todo = .op (.signal i) :: rest) :
      Moved cfg s { s with
        threads := exec s.threads pe t
        signals := s.signals ++ [s.signalFor cfg pe t i] }
  | wait {pe : Fin cfg.size} {t i : ℕ} {rest : List Instr}
      (ht : t < cfg.groupSize pe)
      (htodo : (s.threads pe t).todo = .op (.wait i) :: rest)
      (hle : s.alltoallPwrk pe (s.pwrkHalf pe t) ≤
        s.psync pe (cfg.psyncIndex (s.psyncHalf pe t) (cfg.next pe i))) :
      Moved cfg s { s with threads := exec s.threads pe t }
  | quiet {pe : Fin cfg.size} {t : ℕ} {scope : Scope} {rest : List Instr}
      (ht : t < cfg.groupSize pe)
      (htodo : (s.threads pe t).todo = .op (.quiet scope) :: rest)
      (hflying : ∀ p ∈ s.flying, p.src = pe → p.value ≠ none) :
      Moved cfg s { s with threads := exec s.threads pe t }
  | addCount {pe : Fin cfg.size} {t : ℕ} {rest : List Instr}
      (ht : t < cfg.groupSize pe)
      (htodo : (s.threads pe t).todo = .op .addCount :: rest) :
      Moved cfg s { s with
        threads := exec s.threads pe t
        alltoallCount := Function.update s.alltoallCount pe
          ((s.alltoallCount pe + 1) % 2 ^ 64) }
  | pass {pe : Fin cfg.size} {t : ℕ} (ht : t < cfg.groupSize pe)
      (hlt : (s.threads pe t).phase < 6 * cfg.calls)
      (hpass : CanPass sync cfg.groupSize s.threads pe t) :
      Moved cfg s { s with threads := pass cfg.prog s.threads pe t }
  | deliver {k : ℕ} {p : Packet cfg.size} {other : BitVec 8}
      (hk : s.flying[k]? = some p) :
      Moved cfg s { s with
        flying := s.flying.eraseIdx k
        dest := set₃ s.dest p.call p.dst p.toAddr (some (s.read cfg p other)) }
  | deliverSignal {k : ℕ} {g : Signal cfg.size} (hk : s.signals[k]? = some g)
      (hdeliver : s.CanDeliver cfg g) :
      Moved cfg s { s with
        signals := s.signals.eraseIdx k
        psync := set₂ s.psync g.dst g.index ((s.psync g.dst g.index + 1) % 2 ^ 64)
        arrived := s.arrived ++ [g] }

variable {s s' : State cfg.size} {a : Action cfg.size}

theorem Moved.of_step (h : restrict (readsCount cfg) (step cfg) s a = some s') :
    Moved cfg s s' := by
  obtain ⟨hcount, h⟩ := restrict_eq_some.mp h
  cases a with
  | exec pe t =>
    rw [step] at h
    split_ifs at h with ht
    split at h
    · exact nomatch h
    · next instr rest htodo =>
      rw [readsCount, htodo] at hcount
      cases instr with
      | getPsync =>
        cases h
        rw [hcount (by simp)]
        exact .getPsync ht htodo (hcount (by simp))
      | getPwrk =>
        cases h
        rw [hcount (by simp)]
        exact .getPwrk ht htodo (hcount (by simp))
      | op op =>
        cases op with
        | putSignal i => exact some.inj h ▸ .putSignal ht htodo
        | put scope i => exact some.inj h ▸ .put ht htodo
        | addPwrk => exact some.inj h ▸ .addPwrk ht htodo
        | signal i => exact some.inj h ▸ .signal ht htodo
        | wait i =>
          rw [execute] at h
          split_ifs at h with hle
          · exact some.inj h ▸ .wait ht htodo hle
          · exact nomatch h
        | quiet scope =>
          rw [execute] at h
          split_ifs at h with hflying
          · exact some.inj h ▸ .quiet ht htodo hflying
          · exact nomatch h
        | addCount => exact some.inj h ▸ .addCount ht htodo
  | pass pe t =>
    rw [step] at h
    split_ifs at h with hpass
    exact some.inj h ▸ .pass hpass.1 hpass.2.1 hpass.2.2
  | deliver k other =>
    obtain ⟨p, hk, rfl⟩ := map_eq_some_iff.mp h
    exact .deliver hk
  | deliverSignal k =>
    rw [step] at h
    split at h
    · next g hk =>
      split_ifs at h with hdeliver
      exact some.inj h ▸ .deliverSignal hk hdeliver
    · exact nomatch h

end State

def Halves (cfg : Config) (threads : Fin cfg.size → ℕ → Thread Instr) (instr : Instr)
    (half : Fin cfg.size → ℕ → ℕ) : Prop :=
  ∀ pe, ∀ t < cfg.groupSize pe, instr ∉ (threads pe t).todo →
    (threads pe t).phase < 6 * cfg.calls → half pe t = (threads pe t).phase / 6 % 2

namespace Halves

variable {half : Fin cfg.size → ℕ → ℕ} {instr' : Instr}

theorem start (hinstr : instr = .getPsync ∨ instr = .getPwrk) :
    Halves cfg (start cfg.prog) instr half := by
  intro pe t _ hnot hlt
  have hmem : instr ∈ cfg.prog pe t 0 :=
    (mem_prog_get hinstr).mpr ⟨Nat.div_lt_of_lt_mul hlt, rfl⟩
  exact absurd hmem hnot

theorem exec_of_ne (h : Halves cfg threads instr half)
    (htodo : (threads pe t).todo = instr' :: rest) (hne : instr ≠ instr') :
    Halves cfg (exec threads pe t) instr half := by
  intro pe' t' ht' hnot hlt
  rw [phase_exec] at hlt ⊢
  refine h pe' t' ht' (fun hmem => hnot ?_) hlt
  rw [Phases.exec, set₂_apply]
  split_ifs with heq
  · rw [heq.1, heq.2, htodo] at hmem
    rw [htodo]
    exact (mem_cons.mp hmem).resolve_left hne
  · exact hmem

theorem exec_self (h : Halves cfg threads instr half) :
    Halves cfg (exec threads pe t) instr (set₂ half pe t ((threads pe t).phase / 6 % 2)) := by
  intro pe' t' ht' hnot hlt
  rw [phase_exec] at hlt ⊢
  rw [set₂_apply]
  split_ifs with heq
  · rw [heq.1, heq.2]
  · refine h pe' t' ht' ?_ hlt
    rwa [Phases.exec, set₂_apply, if_neg heq] at hnot

theorem pass (h : Halves cfg threads instr half) (hinstr : instr = .getPsync ∨ instr = .getPwrk)
    (ht : t < cfg.groupSize pe) (htodo : (threads pe t).todo = [])
    (hlt : (threads pe t).phase < 6 * cfg.calls) :
    Halves cfg (pass cfg.prog threads pe t) instr half := by
  intro pe' t' ht' hnot hlt'
  rw [Phases.pass, set₂_apply] at hnot hlt' ⊢
  split_ifs at hnot hlt' ⊢ with heq
  · obtain ⟨rfl, rfl⟩ := heq
    -- before the next call the thread has to read the counter again
    have hmod : ((threads pe' t').phase + 1) % 6 ≠ 0 := fun hmod =>
      hnot ((mem_prog_get hinstr).mpr ⟨Nat.div_lt_of_lt_mul hlt', hmod⟩)
    have hhalf := h pe' t' ht (htodo ▸ not_mem_nil) hlt
    have hdiv : ((threads pe' t').phase + 1) / 6 = (threads pe' t').phase / 6 := by omega
    rw [hhalf, hdiv]
  · exact h pe' t' ht' hnot hlt'

end Halves

def ofParity (n half : ℕ) : ℕ := (n + 1 - half) / 2

def executed (op : Op) (th : Thread Instr) : ℕ :=
  (th.phase + (4 - op.phase)) / 6 + if th.phase % 6 = op.phase + 1 ∧ th.todo = [] then 1 else 0

theorem executed_start : executed op (start cfg.prog pe t) = 0 := by
  have hphase : (start cfg.prog pe t).phase = 0 := rfl
  rw [executed, hphase, if_neg fun h => absurd h.1 (by omega)]
  omega

def Single (op : Op) : Prop :=
  ∀ (c : Call) (t : ℕ), c.phase t op.phase = if t = 0 then [op] else []

theorem single_addPwrk : Single .addPwrk := fun _ _ => rfl

theorem single_addCount : Single .addCount := fun _ _ => rfl

namespace Single

variable (hsingle : Single op)

include hsingle

theorem eq_zero {c : Call} (hmem : op ∈ c.phase t op.phase) : t = 0 := by
  by_contra ht
  rw [hsingle, if_neg ht] at hmem
  exact not_mem_nil hmem

theorem mem_prog (hc : p / 6 < cfg.calls) (hp : p % 6 = op.phase + 1) :
    .op op ∈ cfg.prog pe 0 p :=
  mem_prog_op.mpr ⟨hc, hp, by rw [hsingle, if_pos rfl]; exact mem_singleton_self op⟩

theorem prog_eq (hc : p / 6 < cfg.calls) (hp : p % 6 = op.phase + 1) :
    cfg.prog pe 0 p = [.op op] := by
  rw [prog, if_pos hc]
  split
  · next h => omega
  · next k hk =>
    obtain rfl : k = op.phase := by omega
    rw [hsingle, if_pos rfl, map_singleton]

theorem todo_eq (h : Inv cfg.prog sync cfg.groupSize threads)
    (htodo : (threads pe 0).todo = instr :: rest)
    (hp : (threads pe 0).phase % 6 = op.phase + 1) : instr = .op op ∧ rest = [] := by
  have hmem : instr ∈ cfg.prog pe 0 (threads pe 0).phase :=
    h.mem_prog (htodo ▸ mem_cons_self)
  have hc : (threads pe 0).phase / 6 < cfg.calls := by
    by_contra hc
    rw [prog, if_neg hc] at hmem
    exact not_mem_nil hmem
  have hsuffix := h.suffix pe 0
  rw [htodo, hsingle.prog_eq hc hp] at hsuffix
  have hlength := hsuffix.length_le
  obtain rfl : rest = [] := by
    rw [length_cons, length_singleton] at hlength
    exact eq_nil_of_length_eq_zero (by omega)
  exact ⟨mem_singleton.mp (hsuffix.subset mem_cons_self), rfl⟩

theorem executed_exec_self (h : Phases.Inv cfg.prog sync cfg.groupSize threads)
    (htodo : (threads pe 0).todo = .op op :: rest) :
    executed op (exec threads pe 0 pe 0) =
      executed op (threads pe 0) + 1 := by
  have hp := (phase_of_todo h htodo).2.1
  obtain ⟨-, rfl⟩ := hsingle.todo_eq h htodo hp
  rw [executed, executed, Phases.exec, set₂_self, htodo, tail_cons, if_pos ⟨hp, rfl⟩, if_neg]
  rintro ⟨-, hnil⟩
  exact cons_ne_nil _ _ hnil

theorem executed_exec_of_ne (h : Phases.Inv cfg.prog sync cfg.groupSize threads)
    (htodo : (threads pe t).todo = instr :: rest) (hne : pe' = pe → t = 0 → instr ≠ .op op) :
    executed op (exec threads pe t pe' 0) =
      executed op (threads pe' 0) := by
  rw [Phases.exec, set₂_apply]
  split_ifs with heq
  · obtain ⟨rfl, rfl⟩ := heq
    have hp : (threads pe' 0).phase % 6 ≠ op.phase + 1 := fun hp =>
      hne rfl rfl (hsingle.todo_eq h htodo hp).1
    rw [executed, executed, if_neg fun h => hp h.1, if_neg fun h => hp h.1]
  · rfl

theorem executed_pass (htodo : (threads pe t).todo = [])
    (hlt : (threads pe t).phase < 6 * cfg.calls) :
    executed op (pass cfg.prog threads pe t pe' 0) =
      executed op (threads pe' 0) := by
  rw [Phases.pass, set₂_apply]
  split_ifs with heq
  · obtain ⟨rfl, rfl⟩ := heq
    have hop := op.phase_lt
    have hnext : ¬ (((threads pe' 0).phase + 1) % 6 = op.phase + 1 ∧
        cfg.prog pe' 0 ((threads pe' 0).phase + 1) = []) := by
      rintro ⟨hp, hnil⟩
      have hmem : .op op ∈ cfg.prog pe' 0 ((threads pe' 0).phase + 1) :=
        hsingle.mem_prog (by omega) hp
      exact not_mem_nil (hnil ▸ hmem)
    simp only [executed, if_neg hnext, htodo, and_true]
    split_ifs <;> omega
  · rfl

end Single

theorem ofParity_succ {n half : ℕ} (hhalf : half < 2) :
    ofParity (n + 1) half = ofParity n half + if half = n % 2 then 1 else 0 := by
  simp only [ofParity]
  split_ifs <;> omega

theorem length_le_ofParity {l : List ℕ} {n half : ℕ} (hnodup : l.Nodup)
    (hl : ∀ c ∈ l, c < n ∧ c % 2 = half) : l.length ≤ ofParity n half := by
  have hhalves : (l.map (· / 2)).Nodup := by
    refine hnodup.map_on fun c hc c' hc' heq => ?_
    have := hl c hc
    have := hl c' hc'
    omega
  have hsubset : l.map (· / 2) ⊆ range (ofParity n half) := by
    intro k hk
    obtain ⟨c, hc, rfl⟩ := mem_map.mp hk
    have := hl c hc
    rw [mem_range, ofParity]
    omega
  have hlength := (hhalves.subperm hsubset).length_le
  rwa [length_map, length_range] at hlength

theorem ofParity_le_length {l : List ℕ} {n half : ℕ} (hhalf : half < 2)
    (hl : ∀ c < n, c % 2 = half → c ∈ l) : ofParity n half ≤ l.length := by
  have hnodup : ((range (ofParity n half)).map (2 * · + half)).Nodup :=
    nodup_range.map fun k k' heq => by
      omega
  have hsubset : (range (ofParity n half)).map (2 * · + half) ⊆ l := by
    intro c hc
    obtain ⟨k, hk, rfl⟩ := mem_map.mp hc
    rw [mem_range, ofParity] at hk
    exact hl _ (by omega) (by omega)
  have hlength := (hnodup.subperm hsubset).length_le
  rwa [length_map, length_range] at hlength

structure Counters (cfg : Config) (s : State cfg.size) : Prop where
  phases : Phases.Inv cfg.prog sync cfg.groupSize s.threads
  psyncHalf : Halves cfg s.threads .getPsync s.psyncHalf
  pwrkHalf : Halves cfg s.threads .getPwrk s.pwrkHalf
  pwrk : ∀ pe, ∀ half < 2,
    s.alltoallPwrk pe half = ofParity (executed .addPwrk (s.threads pe 0)) half % 2 ^ 64
  count : ∀ pe, s.alltoallCount pe = executed .addCount (s.threads pe 0) % 2 ^ 64

namespace Counters

variable {s s' : State cfg.size}

theorem start : Counters cfg (State.start cfg) where
  phases := .start
  psyncHalf := .start (Or.inl rfl)
  pwrkHalf := .start (Or.inr rfl)
  pwrk := by
    intro pe half hhalf
    have hzero : ofParity 0 half = 0 := by
      rw [ofParity]
      omega
    rw [State.start, executed_start, hzero]
    rfl
  count := by
    intro pe
    rw [State.start, executed_start]
    rfl

variable (h : Counters cfg s)

include h

theorem exec {psyncHalf pwrkHalf : Fin cfg.size → ℕ → ℕ}
    (htodo : (s.threads pe t).todo = instr :: rest) (haddPwrk : instr ≠ .op .addPwrk)
    (haddCount : instr ≠ .op .addCount)
    (hpsync : Halves cfg (exec s.threads pe t) .getPsync psyncHalf)
    (hpwrk : Halves cfg (exec s.threads pe t) .getPwrk pwrkHalf) :
    Counters cfg { s with
      threads := exec s.threads pe t, psyncHalf := psyncHalf, pwrkHalf := pwrkHalf } where
  phases := h.phases.exec htodo
  psyncHalf := hpsync
  pwrkHalf := hpwrk
  pwrk := by
    intro pe' half hhalf
    rw [single_addPwrk.executed_exec_of_ne h.phases htodo fun _ _ => haddPwrk]
    exact h.pwrk pe' half hhalf
  count := by
    intro pe'
    rw [single_addCount.executed_exec_of_ne h.phases htodo fun _ _ => haddCount]
    exact h.count pe'

theorem half_eq {half : Fin cfg.size → ℕ → ℕ} (hhalf : Halves cfg s.threads instr half)
    (hinstr : instr = .getPsync ∨ instr = .getPwrk) (ht : t < cfg.groupSize pe)
    (htodo : (s.threads pe t).todo = .op op :: rest) :
    half pe t = (s.threads pe t).phase / 6 % 2 := by
  obtain ⟨hcall, hphase, -⟩ := phase_of_todo h.phases htodo
  refine hhalf pe t ht (fun hget => ?_) (by omega)
  have := ((mem_prog_get hinstr).mp (h.phases.mem_prog hget)).2
  omega

theorem addPwrk (ht : t < cfg.groupSize pe) (htodo : (s.threads pe t).todo = .op .addPwrk :: rest) :
    Counters cfg { s with
      threads := Phases.exec s.threads pe t
      alltoallPwrk := set₂ s.alltoallPwrk pe (s.pwrkHalf pe t)
        ((s.alltoallPwrk pe (s.pwrkHalf pe t) + 1) % 2 ^ 64) } where
  phases := h.phases.exec htodo
  psyncHalf := h.psyncHalf.exec_of_ne htodo (nomatch ·)
  pwrkHalf := h.pwrkHalf.exec_of_ne htodo (nomatch ·)
  pwrk := by
    obtain ⟨hcall, hphase, hmem⟩ := phase_of_todo h.phases htodo
    obtain rfl := single_addPwrk.eq_zero hmem
    have hexecuted : executed .addPwrk (s.threads pe 0) = (s.threads pe 0).phase / 6 := by
      rw [executed, htodo, if_neg fun h => cons_ne_nil _ _ h.2]
      rw [Op.phase] at hphase ⊢
      omega
    intro pe' half hhalf
    dsimp only
    rw [set₂_apply, h.half_eq h.pwrkHalf (.inr rfl) ht htodo]
    by_cases hpe : pe' = pe
    · subst hpe
      rw [single_addPwrk.executed_exec_self h.phases htodo, ofParity_succ hhalf, hexecuted]
      split_ifs with heq hhalf' hhalf'
      · rw [h.pwrk _ _ (mod_lt _ Nat.two_pos), hexecuted, mod_add_mod, heq.2]
      · exact absurd heq.2 hhalf'
      · exact absurd ⟨rfl, hhalf'⟩ heq
      · rw [h.pwrk _ _ hhalf, hexecuted, Nat.add_zero]
    · rw [if_neg fun heq => hpe heq.1,
        single_addPwrk.executed_exec_of_ne h.phases htodo fun heq => absurd heq hpe]
      exact h.pwrk pe' half hhalf
  count := by
    intro pe'
    rw [single_addCount.executed_exec_of_ne h.phases htodo fun _ _ heq => nomatch op.inj heq]
    exact h.count pe'

theorem addCount (ht : t < cfg.groupSize pe)
    (htodo : (s.threads pe t).todo = .op .addCount :: rest) :
    Counters cfg { s with
      threads := Phases.exec s.threads pe t
      alltoallCount := Function.update s.alltoallCount pe
        ((s.alltoallCount pe + 1) % 2 ^ 64) } where
  phases := h.phases.exec htodo
  psyncHalf := h.psyncHalf.exec_of_ne htodo (nomatch ·)
  pwrkHalf := h.pwrkHalf.exec_of_ne htodo (nomatch ·)
  pwrk := by
    intro pe' half hhalf
    rw [single_addPwrk.executed_exec_of_ne h.phases htodo fun _ _ heq => nomatch op.inj heq]
    exact h.pwrk pe' half hhalf
  count := by
    obtain rfl := single_addCount.eq_zero (phase_of_todo h.phases htodo).2.2
    intro pe'
    dsimp only
    by_cases hpe : pe' = pe
    · subst hpe
      rw [Function.update_self, single_addCount.executed_exec_self h.phases htodo, h.count,
        mod_add_mod]
    · rw [Function.update_of_ne hpe,
        single_addCount.executed_exec_of_ne h.phases htodo fun heq => absurd heq hpe]
      exact h.count pe'

theorem pass (ht : t < cfg.groupSize pe) (hlt : (s.threads pe t).phase < 6 * cfg.calls)
    (hpass : CanPass sync cfg.groupSize s.threads pe t) :
    Counters cfg { s with threads := pass cfg.prog s.threads pe t } where
  phases := h.phases.pass hpass
  psyncHalf := h.psyncHalf.pass (Or.inl rfl) ht hpass.1 hlt
  pwrkHalf := h.pwrkHalf.pass (Or.inr rfl) ht hpass.1 hlt
  pwrk := by
    intro pe' half hhalf
    rw [single_addPwrk.executed_pass hpass.1 hlt]
    exact h.pwrk pe' half hhalf
  count := by
    intro pe'
    rw [single_addCount.executed_pass hpass.1 hlt]
    exact h.count pe'

theorem step (hmoved : s.Moved cfg s') : Counters cfg s' := by
  cases hmoved with
  | getPsync _ htodo _ =>
    exact h.exec htodo (nomatch ·) (nomatch ·) h.psyncHalf.exec_self
      (h.pwrkHalf.exec_of_ne htodo (nomatch ·))
  | getPwrk _ htodo _ =>
    exact h.exec htodo (nomatch ·) (nomatch ·)
      (h.psyncHalf.exec_of_ne htodo (nomatch ·)) h.pwrkHalf.exec_self
  | putSignal _ htodo | put _ htodo | signal _ htodo | wait _ htodo _ | quiet _ htodo _ =>
    have h' := h.exec htodo (nomatch ·) (nomatch ·)
      (h.psyncHalf.exec_of_ne htodo (nomatch ·)) (h.pwrkHalf.exec_of_ne htodo (nomatch ·))
    exact ⟨h'.phases, h'.psyncHalf, h'.pwrkHalf, h'.pwrk, h'.count⟩
  | addPwrk ht htodo => exact h.addPwrk ht htodo
  | addCount ht htodo => exact h.addCount ht htodo
  | pass ht hlt hpass => exact h.pass ht hlt hpass
  | deliver _ | deliverSignal _ _ =>
    exact ⟨h.phases, h.psyncHalf, h.pwrkHalf, h.pwrk, h.count⟩

end Counters

end Nvshmem.Alltoall
