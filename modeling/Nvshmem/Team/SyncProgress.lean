import Nvshmem.Team.SyncInvariant

/-! # Syncs end

In a state in which only calls of the sync are possible, a PE that waits has not heard of
somebody who has not entered. So a sync that all have entered ends, since each step brings
it closer to its end; and if one never hears of somebody, some run ends without them.
-/

namespace Nvshmem.TeamSync

open Tables Dissemination List Function Option Nat Schedule State

variable {sch : Schedule} {i j t d : ℕ}

namespace State

variable {s : State} {a : Action} {x y v f m : ℕ}

def Quiet (sch : Schedule) (s : State) : Prop := ∀ a, a.Due → ¬ s.Enabled sch a

theorem Quiet.slot (hq : s.Quiet sch) (hx : x < sch.size) (hy : y < sch.size) (v : ℕ) :
    s.pSync (sch.mype x) (v % 2) (sch.mype y) = s.latest (sch.mype x) (v % 2) (sch.mype y) := by
  have hnil : s.inFlight (sch.mype x) (v % 2) (sch.mype y) = [] := by
    by_contra hne
    exact hq (.deliver x (v % 2) y) trivial ⟨hx, mod_lt v two_pos, hy, hne⟩
  rw [latest, hnil, getLastD_nil]

section Quiet

variable (hi : s.Traced sch) (hq : s.Quiet sch)
include hi hq

theorem Traced.notify_notMem (hp : s.phase x = some i) : .notify d ∉ s.work x t := by
  intro hmem
  cases hw : s.work x t with
  | nil =>
    rw [hw] at hmem
    exact not_mem_nil hmem
  | cons op ops =>
    cases op with
    | notify e => exact hq (.notify x t e) trivial (by rw [Enabled, hw, head?_cons])
    | await e =>
      have hsuf := (hi.active hp).2.2 t
      rw [hw] at hsuf hmem
      refine notify_notMem_of_await hsuf d ?_
      simpa using hmem

theorem Traced.exists_await (hp : s.phase x = some i) : ∃ d, sch.Occurs i d ∧
    (s.pSync (sch.mype x) (s.counter x % 2) (sch.fromNbr x d)).counter < s.counter x := by
  have hlt : i < sch.numPhases := by
    refine lt_of_le_of_ne (hi.active hp).2.1 ?_
    rintro rfl
    exact hq (.leave x) trivial hp
  have hex : ∃ t < sch.groupSize, s.work x t ≠ [] := by
    by_contra h
    push Not at h
    exact hq (.threadgroupSync x i) trivial ⟨hp, hlt, h⟩
  obtain ⟨t, -, hne⟩ := hex
  obtain ⟨op, ops, hw⟩ := exists_cons_of_ne_nil hne
  cases op with
  | notify d => exact absurd (by simp [hw]) (hi.notify_notMem hq hp (d := d) (t := t))
  | await d =>
    have hsuf := (hi.active hp).2.2 t
    rw [hw] at hsuf
    refine ⟨d, occurs_iff_await.mpr ⟨t, hsuf.subset mem_cons_self⟩, ?_⟩
    by_contra hge
    exact hq (.await x t d) trivial ⟨by rw [hw, head?_cons], not_lt.mp hge⟩

theorem Traced.exists_not_entered (hahead : ∀ y < sch.size, s.counter y ≤ m + 1)
    (hp : s.phase x = some i) (hm : s.counter x = m) : i < sch.numPhases ∧ ∃ e,
      Heard sch.Occurs (i + 1) e ∧ ∃ y < sch.size, (y + e) % sch.size = x ∧ s.entered y < m := by
  induction i using Nat.strong_induction_on generalizing x with
  | _ i ih =>
    obtain ⟨d, hocc, hslot⟩ := hi.exists_await hq hp
    have hx := (hi.active hp).1
    obtain ⟨f, hfi, hfresh⟩ := exists_fresh hocc
    obtain ⟨y, hy, hyd⟩ := exists_before hx hocc.lt.le
    have hto : sch.toNbr y d = sch.mype x := by rw [sch.toNbr_eq hy, hyd]
    rw [sch.fromNbr_eq hx hy hocc.lt hyd, hq.slot hx hy, hm, ← hto] at hslot
    refine ⟨hocc.1, ?_⟩
    by_cases hy0 : s.entered y < m
    · refine ⟨d, Heard.mono (.news hfresh .self) (succ_le_succ hfi), y, hy, hyd, hy0⟩
    · -- the PE in between is in the same sync and has not come to the phase with this shift
      have hle := hahead y hy
      have hne : s.counter y ≠ m + 1 := by
        intro hc
        have hprev := hi.previous hy (by have := hi.counter_pos x; omega) hocc
        rw [hc, Nat.add_sub_cancel] at hprev
        omega
      obtain ⟨j, hpj⟩ : ∃ j, s.phase y = some j := by
        refine ne_none_iff_exists'.mp fun hnone => hy0 ?_
        rw [entered, if_pos hnone]
        omega
      rw [entered, hpj, if_neg (some_ne_none _)] at hy0
      have hc : s.counter y = m := by omega
      have hjf : j < f := by
        by_contra hfj
        have hnot := hi.notified hpj hfresh.1 (not_lt.mp hfj) fun _ t => hi.notify_notMem hq hpj
        rw [hc] at hnot
        omega
      obtain ⟨-, e, he, z, hz, hze, hlt⟩ := ih j (by omega) hpj hc
      refine ⟨d + e, Heard.mono (.news hfresh (he.mono hjf)) (succ_le_succ hfi), z, hz, ?_, hlt⟩
      rw [add_comm d, ← add_assoc, ← mod_add_mod, hze, hyd]

end Quiet

end State

def Op.cost : Op → ℕ
  | .notify _ => 2
  | .await _ => 1

def totalCost (ops : List Op) : ℕ := (ops.map Op.cost).sum

namespace Schedule

variable (sch : Schedule)

def phaseCost (i : ℕ) : ℕ := ∑ t ∈ Finset.range sch.groupSize, totalCost (sch.program i t)

def laterCost (i : ℕ) : ℕ := ∑ j ∈ Finset.Ico i sch.numPhases, (sch.phaseCost (j + 1) + 1)

def syncCost : ℕ := sch.phaseCost 0 + sch.laterCost 0 + 2

variable {sch}

theorem laterCost_of_lt (h : i < sch.numPhases) :
    sch.laterCost i = sch.phaseCost (i + 1) + 1 + sch.laterCost (i + 1) :=
  Finset.sum_eq_sum_Ico_succ_bot h _

end Schedule

namespace State

variable {s : State} {a : Action} {x y v f m : ℕ}

/-- The steps of a PE up to the end of sync `m`. -/
def remaining (sch : Schedule) (m : ℕ) (s : State) (x : ℕ) : ℕ :=
  match s.phase x with
  | none => (m + 1 - s.counter x) * sch.syncCost
  | some i => (m - s.counter x) * sch.syncCost +
      (∑ t ∈ Finset.range sch.groupSize, totalCost (s.work x t) + sch.laterCost i + 1)

def signals (sch : Schedule) (s : State) : ℕ :=
  ∑ z ∈ (Finset.range sch.size).image sch.mype ×ˢ Finset.range 2 ×ˢ
    (Finset.range sch.size).image sch.mype, (s.inFlight z.1 z.2.1 z.2.2).length

def measure (sch : Schedule) (m : ℕ) (s : State) : ℕ :=
  ∑ x ∈ Finset.range sch.size, s.remaining sch m x + s.signals sch

theorem mem_image_mype (hx : x < sch.size) : sch.mype x ∈ (Finset.range sch.size).image sch.mype :=
  Finset.mem_image_of_mem _ (Finset.mem_range.mpr hx)

theorem signals_notify {d : ℕ} (hx : x < sch.size) :
    (s.effect sch (.notify x t d)).signals sch = s.signals sch + 1 := by
  have htarget : sch.toNbr x d ∈ (Finset.range sch.size).image sch.mype := by
    rw [sch.toNbr_eq hx]
    exact mem_image_mype (mod_lt _ sch.size_pos)
  have := sum_set₃ (f := s.inFlight) (v := s.inFlight (sch.toNbr x d) (s.counter x % 2)
    (sch.mype x) ++ [⟨s.counter x, (s.phase x).getD 0⟩]) htarget
    (Finset.mem_range.mpr (mod_lt (s.counter x) two_pos)) (mem_image_mype hx) List.length
  rw [length_append, length_singleton] at this
  simp only [signals, effect]
  omega

theorem signals_deliver {p : ℕ} (he : s.Enabled sch (.deliver x p y)) :
    (s.effect sch (.deliver x p y)).signals sch + 1 = s.signals sch := by
  obtain ⟨hx, hp, hy, hne⟩ := he
  have := sum_set₃ (f := s.inFlight) (v := (s.inFlight (sch.mype x) p (sch.mype y)).tail)
    (mem_image_mype hx) (Finset.mem_range.mpr hp) (mem_image_mype hy) List.length
  have hpos := length_pos_of_ne_nil hne
  rw [length_tail] at this
  simp only [signals, effect]
  omega

theorem totalCost_pop {op : Op} {ops : List Op} {work : ℕ → ℕ → List Op} {n : ℕ} (ht : t < n)
    (h : work x t = op :: ops) :
    ∑ u ∈ Finset.range n, totalCost (set₂ work x t ops x u) + op.cost =
      ∑ u ∈ Finset.range n, totalCost (work x u) := by
  have := sum_add_eq_of_eq_off (fun u => totalCost (work x u))
    (fun u => totalCost (set₂ work x t ops x u)) (Finset.mem_range.mpr ht) fun u _ hu => by
      rw [set₂_apply, if_neg fun hand => hu hand.2]
  rw [set₂_self, h] at this
  simp only [totalCost, map_cons, sum_cons] at this ⊢
  omega

section Decreasing

variable (hi : s.Traced sch)
include hi

theorem Traced.lt_of_work {op : Op} {ops : List Op} (h : s.work x t = op :: ops) :
    x < sch.size ∧ t < sch.groupSize := by
  obtain ⟨i, hp, hsuf⟩ := hi.work_suffix h
  refine ⟨(hi.active hp).1, ?_⟩
  by_contra ht
  rw [program, if_neg (fun h => ht h.2), suffix_nil] at hsuf
  exact cons_ne_nil _ _ hsuf

omit hi in
theorem remaining_enter (he : s.Enabled sch (.enter x)) (hm : s.counter x ≤ m) :
    (s.effect sch (.enter x)).remaining sch m x + 1 = s.remaining sch m x := by
  have hp : (s.effect sch (.enter x)).phase x = some 0 := update_self ..
  have hw : (s.effect sch (.enter x)).work x = sch.program 0 := update_self ..
  rw [remaining, remaining, hp, hw, he.2]
  change (m - s.counter x) * sch.syncCost + (sch.phaseCost 0 + sch.laterCost 0 + 1) + 1 =
    (m + 1 - s.counter x) * sch.syncCost
  rw [Nat.sub_add_comm hm, Nat.add_one_mul (m - _), syncCost]
  omega

omit hi in
theorem remaining_threadgroupSync (he : s.Enabled sch (.threadgroupSync x i)) :
    (s.effect sch (.threadgroupSync x i)).remaining sch m x + 1 = s.remaining sch m x := by
  have hp : (s.effect sch (.threadgroupSync x i)).phase x = some (i + 1) :=
    update_self ..
  have hw : (s.effect sch (.threadgroupSync x i)).work x = sch.program (i + 1) :=
    update_self ..
  have hwork : ∑ t ∈ Finset.range sch.groupSize, totalCost (s.work x t) = 0 :=
    Finset.sum_eq_zero fun t ht => by rw [he.2.2 t (Finset.mem_range.mp ht)]; rfl
  rw [remaining, remaining, hp, hw, he.1]
  change (m - s.counter x) * sch.syncCost +
      (sch.phaseCost (i + 1) + sch.laterCost (i + 1) + 1) + 1 =
    (m - s.counter x) * sch.syncCost + (_ + sch.laterCost i + 1)
  rw [laterCost_of_lt he.2.1]
  omega

omit hi in
theorem remaining_leave (he : s.Enabled sch (.leave x)) :
    (s.effect sch (.leave x)).remaining sch m x < s.remaining sch m x := by
  have hp : (s.effect sch (.leave x)).phase x = none := update_self ..
  have hc : (s.effect sch (.leave x)).counter x = s.counter x + 1 := update_self ..
  rw [remaining, remaining, hp, hc, he, Nat.add_sub_add_right]
  change (m - s.counter x) * sch.syncCost < (m - s.counter x) * sch.syncCost + _
  omega

theorem Traced.remaining_pop {op : Op} {ops : List Op} (h : s.work x t = op :: ops)
    (hp : (s.effect sch a).phase x = s.phase x) (hc : (s.effect sch a).counter x = s.counter x)
    (hw : (s.effect sch a).work x = set₂ s.work x t ops x) :
    (s.effect sch a).remaining sch m x + op.cost = s.remaining sch m x := by
  obtain ⟨i, hpi, -⟩ := hi.work_suffix h
  have hcost := totalCost_pop (hi.lt_of_work h).2 h
  rw [remaining, remaining, hp, hc, hw, hpi]
  change (m - s.counter x) * sch.syncCost + (_ + _ + 1) + op.cost =
    (m - s.counter x) * sch.syncCost + _
  omega

omit hi in
theorem remaining_congr {u : State} (hp : u.phase x = s.phase x) (hc : u.counter x = s.counter x)
    (hw : u.work x = s.work x) : u.remaining sch m x = s.remaining sch m x := by
  rw [remaining, remaining, hp, hc, hw]

omit hi in
theorem measure_lt_of_remaining {u : State} (hx : x < sch.size)
    (hoff : ∀ z, z ≠ x → u.remaining sch m z = s.remaining sch m z)
    (h : u.remaining sch m x + u.signals sch < s.remaining sch m x + s.signals sch) :
    u.measure sch m < s.measure sch m := by
  have := sum_add_eq_of_eq_off (s.remaining sch m) (u.remaining sch m) (Finset.mem_range.mpr hx)
    fun z _ hz => hoff z hz
  unfold measure
  omega

/-- Every step but a call of the sync after `m` brings all PEs closer to the end of sync `m`. -/
theorem Traced.measure_lt (he : s.Enabled sch a) (hm : ∀ x, a = .enter x → s.counter x ≤ m) :
    (s.effect sch a).measure sch m < s.measure sch m := by
  cases a with
  | enter x =>
    refine measure_lt_of_remaining he.1 (fun z hz => remaining_congr ?_ rfl ?_) ?_
    · exact update_of_ne hz ..
    · exact update_of_ne hz ..
    · have := remaining_enter he (hm x rfl)
      change _ + s.signals sch < _
      omega
  | threadgroupSync x i =>
    refine measure_lt_of_remaining (hi.active he.1).1 (fun z hz => remaining_congr ?_ rfl ?_) ?_
    · exact update_of_ne hz ..
    · exact update_of_ne hz ..
    · have := @remaining_threadgroupSync sch i s x m he
      change _ + s.signals sch < _
      omega
  | leave x =>
    refine measure_lt_of_remaining (hi.active he).1 (fun z hz => remaining_congr ?_ ?_ rfl) ?_
    · exact update_of_ne hz ..
    · exact update_of_ne hz ..
    · have := @remaining_leave sch s x m he
      change _ + s.signals sch < _
      omega
  | notify x t d =>
    obtain ⟨ops, hops⟩ := head?_eq_some_iff.mp he
    have hx := (hi.lt_of_work hops).1
    refine measure_lt_of_remaining hx (fun z hz => remaining_congr rfl rfl ?_) ?_
    · funext u
      exact if_neg fun h => hz h.1
    · have := hi.remaining_pop (a := .notify x t d) (m := m) hops rfl rfl
        (by simp [effect, hops])
      rw [signals_notify hx]
      change _ + 2 = _ at this
      omega
  | await x t d =>
    obtain ⟨ops, hops⟩ := head?_eq_some_iff.mp he.1
    have hx := (hi.lt_of_work hops).1
    refine measure_lt_of_remaining hx (fun z hz => remaining_congr rfl rfl ?_) ?_
    · funext u
      exact if_neg fun h => hz h.1
    · have := hi.remaining_pop (a := .await x t d) (m := m) hops rfl rfl
        (by simp [effect, hops])
      change _ + s.signals sch < _
      change _ + 1 = _ at this
      omega
  | deliver x p y =>
    have := signals_deliver he
    unfold measure
    change ∑ x ∈ Finset.range sch.size, s.remaining sch m x + _ < _
    omega

end Decreasing

/-- All PEs have returned from sync `m`. -/
def Returned (sch : Schedule) (m : ℕ) (s : State) : Prop := ∀ x < sch.size, m ≤ s.returned x

theorem Safe.counter_le (hi : s.Safe sch) (hx : x < sch.size) (h : s.returned x < m)
    (hy : y < sch.size) : s.counter y ≤ m + 1 := by
  have hb := hi.barrier y hy x hx
  unfold returned entered at *
  split at hb <;> omega

theorem Safe.exists_due (hi : s.Safe sch) (hall : ∀ x < sch.size, m ≤ s.entered x)
    (hnot : ¬ s.Returned sch m) : ∃ a, a.Due ∧ s.Enabled sch a := by
  unfold Returned at hnot
  push Not at hnot
  obtain ⟨x, hx, hlt⟩ := hnot
  by_contra hnone
  push Not at hnone
  have hent := hall x hx
  obtain ⟨i, hp⟩ : ∃ i, s.phase x = some i := by
    refine ne_none_iff_exists'.mp fun h => ?_
    rw [entered, if_pos h] at hent
    exact absurd hlt (not_lt.mpr hent)
  have hm : s.counter x = m := by
    rw [entered, hp, if_neg (some_ne_none _)] at hent
    unfold returned at hlt
    omega
  obtain ⟨-, e, -, y, hy, -, hlt'⟩ :=
    hi.exists_not_entered hnone (fun y hy => hi.counter_le hx hlt hy) hp hm
  exact absurd (hall y hy) (not_le.mpr hlt')

theorem Safe.inevitable (hcov : ∀ e < sch.size, Heard sch.Occurs sch.numPhases e)
    (hi : s.Safe sch) (hall : ∀ x < sch.size, m ≤ s.entered x) :
    Transition.Inevitable Action.Due (step sch) (Returned sch m) s := by
  refine Transition.Inevitable.of_measure (measure sch (m + 1))
    (I := fun s => s.Safe sch ∧ ∀ x < sch.size, m ≤ s.entered x) ?_ ?_ ?_ ⟨hi, hall⟩
  · rintro s a u ⟨hi, hall⟩ h
    obtain ⟨he, rfl⟩ := step_eq_some.mp h
    exact ⟨hi.of_effect hcov he, fun x hx => (hall x hx).trans (entered_le_effect he)⟩
  · rintro s a u ⟨hi, hall⟩ hnot h
    obtain ⟨he, rfl⟩ := step_eq_some.mp h
    refine hi.measure_lt he ?_
    rintro x rfl
    unfold Returned at hnot
    push Not at hnot
    obtain ⟨y, hy, hlt⟩ := hnot
    exact hi.counter_le hy hlt he.1
  · rintro s ⟨hi, hall⟩ hnot
    obtain ⟨a, hdue, he⟩ := hi.exists_due hall hnot
    exact ⟨a, _, hdue, step_eq_some.mpr ⟨he, rfl⟩⟩

structure Absent (sch : Schedule) (s : State) : Prop extends Traced sch s where
  away : s.phase 0 = none ∧ s.counter 0 = 1
  called : ∀ x < sch.size, x ≠ 0 → 1 ≤ s.entered x
  first : ∀ x, s.counter x ≤ 2 ∧ (s.phase x ≠ none → s.counter x = 1)

theorem Absent.of_effect (hi : s.Absent sch) (he : s.Enabled sch a) (hdue : a.Due) :
    (s.effect sch a).Absent sch := by
  obtain ⟨htraced, haway, hcalled, hfirst⟩ := hi
  refine ⟨htraced.of_effect he, ?_, fun x hx h0 => (hcalled x hx h0).trans (entered_le_effect he),
    fun x => ?_⟩
  · clear hcalled hfirst htraced
    cases a <;> simp only [Action.Due, effect, Enabled, update_apply] at * <;> grind
  · have hf := hfirst x
    clear hcalled hfirst htraced haway
    cases a <;> simp only [Action.Due, effect, Enabled, update_apply] at * <;> grind

/-- The PEs up to `k` but PE 0 call the sync. -/
theorem exists_called {k : ℕ} (hk : k < sch.size) : ∃ s, Transition.Reachable (step sch) init s ∧
    (∀ x, s.phase x = if 0 < x ∧ x ≤ k then some 0 else none) ∧ ∀ x, s.counter x = 1 := by
  induction k with
  | zero =>
    refine ⟨init, ⟨[], rfl⟩, fun x => ?_, fun _ => rfl⟩
    rw [if_neg (by omega)]
    rfl
  | succ k ih =>
    obtain ⟨s, hs, hphase, hcounter⟩ := ih (by omega)
    have he : s.Enabled sch (.enter (k + 1)) := ⟨hk, by rw [hphase, if_neg (by omega)]⟩
    refine ⟨_, hs.tail (step_eq_some.mpr ⟨he, rfl⟩), fun x => ?_, hcounter⟩
    simp only [effect, update_apply]
    split
    next h => rw [if_pos (by omega)]
    next h =>
      rw [hphase]
      exact if_congr (by omega) rfl rfl

theorem traced_of_reachable (h : Transition.Reachable (step sch) init s) : s.Traced sch := by
  refine h.invariant Traced.init fun hi hs => ?_
  obtain ⟨he, rfl⟩ := step_eq_some.mp hs
  exact hi.of_effect he

theorem exists_quiet :
    ∃ s, Transition.Reachable (step sch) init s ∧ s.Absent sch ∧ s.Quiet sch := by
  obtain ⟨s, hs, hphase, hcounter⟩ := @exists_called sch (sch.size - 1)
    (sub_lt sch.size_pos Nat.one_pos)
  have habsent : s.Absent sch := by
    refine ⟨traced_of_reachable hs, ⟨by rw [hphase, if_neg (by omega)], hcounter 0⟩, ?_, ?_⟩
    · intro x hx h0
      have hp : s.phase x = some 0 := by rw [hphase, if_pos (by omega)]
      rw [entered, hp, if_neg (some_ne_none _), hcounter]
    · intro x
      rw [hcounter]
      exact ⟨by omega, fun _ => rfl⟩
  have hinev : Transition.Inevitable Action.Due
      (Transition.restrict (fun _ a => a.Due) (step sch)) (Quiet sch) s := by
    refine Transition.Inevitable.of_measure (measure sch 0) (I := Absent sch) ?_ ?_ ?_ habsent
    · rintro s a u hi h
      obtain ⟨hdue, h⟩ := Transition.restrict_eq_some.mp h
      obtain ⟨he, rfl⟩ := step_eq_some.mp h
      exact hi.of_effect he hdue
    · rintro s a u hi - h
      obtain ⟨hdue, h⟩ := Transition.restrict_eq_some.mp h
      obtain ⟨he, rfl⟩ := step_eq_some.mp h
      refine hi.measure_lt he ?_
      rintro x rfl
      exact hdue.elim
    · rintro s - hnot
      unfold Quiet at hnot
      push Not at hnot
      obtain ⟨a, hdue, he⟩ := hnot
      exact ⟨a, _, hdue, Transition.restrict_eq_some.mpr ⟨hdue, step_eq_some.mpr ⟨he, rfl⟩⟩⟩
  obtain ⟨u, hu, hquiet⟩ := hinev.exists_reachable
  refine ⟨u, hs.trans hu.of_restrict, ?_, hquiet⟩
  refine hu.invariant habsent fun hi h => ?_
  obtain ⟨hdue, h⟩ := Transition.restrict_eq_some.mp h
  obtain ⟨he, rfl⟩ := step_eq_some.mp h
  exact hi.of_effect he hdue

theorem exists_returned (hsize : 1 < sch.size)
    (hdeaf : ∀ e, Heard sch.Occurs sch.numPhases e → e < sch.size - 1) :
    ∃ s, Transition.Reachable (step sch) init s ∧ s.entered 0 = 0 ∧
      1 ≤ s.returned (sch.size - 1) := by
  obtain ⟨s, hs, habsent, hquiet⟩ := @exists_quiet sch
  have hlast : sch.size - 1 < sch.size := by omega
  have hcalled := habsent.called _ hlast (by omega)
  refine ⟨s, hs, by rw [entered, if_pos habsent.away.1, habsent.away.2], ?_⟩
  -- it does not wait, since only PE 0 could keep it waiting
  cases hp : s.phase (sch.size - 1) with
  | none =>
    rw [entered, if_pos hp] at hcalled
    exact hcalled
  | some i =>
    have hc := (habsent.first _).2 (hp ▸ some_ne_none i)
    obtain ⟨hlt, e, he, y, hy, hye, hnot⟩ :=
      habsent.exists_not_entered hquiet (fun y _ => (habsent.first y).1) hp hc
    obtain rfl : y = 0 := by
      by_contra h0
      have := habsent.called y hy h0
      omega
    have hlt' := hdeaf e (he.mono hlt)
    rw [zero_add, mod_eq_of_lt (by omega)] at hye
    omega

end State

end Nvshmem.TeamSync
