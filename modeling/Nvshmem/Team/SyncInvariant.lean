import Nvshmem.Team.Sync

/-! # What a PE has heard of in a sync

Every signal in a slot or on its way has been sent by a PE that had come to the phase of the
signal. So a PE that completes a phase knows that those whom the senders had heard of have
entered the sync; if one hears of everyone, it leaves only syncs that all have entered.
-/

namespace Nvshmem.TeamSync

open Tables Dissemination List Option List Function Nat Schedule State

variable {sch : Schedule} {i j t d : ℕ}

namespace Schedule

def Occurs (sch : Schedule) (i d : ℕ) : Prop :=
  i < sch.numPhases ∧ ∃ t < sch.groupSize, d ∈ sch.shifts i t

theorem Occurs.lt (h : sch.Occurs i d) : d < sch.size := by
  obtain ⟨-, t, -, ht⟩ := h
  exact (sch.shifts_bounds ht).2

theorem occurs_of_notify (h : .notify d ∈ sch.program i t) : sch.Occurs i d := by
  unfold program at h
  split at h
  next hit => exact ⟨hit.1, t, hit.2, by simpa using h⟩
  next => exact absurd h not_mem_nil

theorem occurs_iff_await : sch.Occurs i d ↔ ∃ t, .await d ∈ sch.program i t := by
  constructor
  · rintro ⟨hi, t, ht, h⟩
    exact ⟨t, by simpa [program, hi, ht] using h⟩
  · rintro ⟨t, h⟩
    unfold program at h
    split at h
    next hit => exact ⟨hit.1, t, hit.2, by simpa using h⟩
    next => exact absurd h not_mem_nil

theorem Occurs.exists_notify (h : sch.Occurs i d) : ∃ t, .notify d ∈ sch.program i t := by
  obtain ⟨hi, t, ht, h⟩ := h
  exact ⟨t, by simpa [program, hi, ht] using h⟩

@[simp] theorem program_numPhases : sch.program sch.numPhases t = [] := by
  simp [program]

theorem notify_notMem_of_await {ops : List Op} (h : .await d :: ops <:+ sch.program i t) (e : ℕ) :
    .notify e ∉ ops := by
  obtain ⟨pre, hpre⟩ := h
  unfold program at hpre
  split at hpre
  next =>
    intro hmem
    rcases append_eq_append_iff.mp hpre.symm with ⟨l, -, h⟩ | ⟨l, h, h'⟩
    · have : Op.notify e ∈ (sch.shifts i t).map Op.await := by
        rw [h]
        simp [hmem]
      simp at this
    · cases l with
      | nil =>
        have : Op.notify e ∈ (sch.shifts i t).map Op.await := by
          rw [nil_append] at h'
          rw [← h']
          simp [hmem]
        simp at this
      | cons op l =>
        obtain ⟨rfl, -⟩ := cons.inj h'
        have : Op.await d ∈ (sch.shifts i t).map Op.notify := by
          rw [h]
          simp
        simp at this
  next => simp at hpre

end Schedule

namespace State

variable {s : State} {a : Action} {x y v f parity : ℕ} {sig : Signal}

def Reached (s : State) (y v f : ℕ) : Prop :=
  v < s.counter y ∨ v = s.counter y ∧ ∃ i, s.phase y = some i ∧ f ≤ i

structure Sent (sch : Schedule) (s : State) (y x parity : ℕ) (sig : Signal) : Prop where
  parity : sig.counter % 2 = parity
  shift : ∃ d, sch.Occurs sig.phase d ∧ (y + d) % sch.size = x
  reached : s.Reached y sig.counter sig.phase

def latest (s : State) (target parity slot : ℕ) : Signal :=
  (s.inFlight target parity slot).getLastD (s.pSync target parity slot)

structure Traced (sch : Schedule) (s : State) : Prop where
  counter_pos : ∀ x, 0 < s.counter x
  idle : ∀ {x}, s.phase x = none → ∀ t, s.work x t = []
  active : ∀ {x i}, s.phase x = some i →
    x < sch.size ∧ i ≤ sch.numPhases ∧ ∀ t, s.work x t <:+ sch.program i t
  stored : ∀ {x y parity sig}, x < sch.size → y < sch.size →
    sig ∈ s.pSync (sch.mype x) parity (sch.mype y) :: s.inFlight (sch.mype x) parity (sch.mype y) →
    0 < sig.counter → Sent sch s y x parity sig
  noticed : ∀ {x y i d}, s.phase x = some i → sch.Occurs i d → (∀ t, .await d ∉ s.work x t) →
    y < sch.size → (y + d) % sch.size = x → ∃ f, sch.Occurs f d ∧ s.Reached y (s.counter x) f
  notified : ∀ {y i f d}, s.phase y = some i → sch.Occurs f d → f ≤ i →
    (f = i → ∀ t, .notify d ∉ s.work y t) →
    (s.latest (sch.toNbr y d) (s.counter y % 2) (sch.mype y)).counter = s.counter y
  previous : ∀ {y f d}, y < sch.size → 1 < s.counter y → sch.Occurs f d →
    (s.latest (sch.toNbr y d) ((s.counter y - 1) % 2) (sch.mype y)).counter = s.counter y - 1

theorem Traced.init : Traced sch init where
  counter_pos _ := Nat.one_pos
  idle _ _ := rfl
  active h := absurd h.symm (some_ne_none _)
  stored _ _ h h0 := by
    obtain rfl := mem_singleton.mp h
    exact absurd h0 (lt_irrefl 0)
  noticed h := absurd h.symm (some_ne_none _)
  notified h := absurd h.symm (some_ne_none _)
  previous _ h := absurd h (lt_irrefl 1)

theorem Reached.effect (h : s.Reached y v f) (he : s.Enabled sch a) :
    (s.effect sch a).Reached y v f := by
  cases a <;> simp only [Reached, effect, Enabled, update_apply] at * <;> grind

theorem Sent.effect (h : Sent sch s y x parity sig) (he : s.Enabled sch a) :
    Sent sch (s.effect sch a) y x parity sig :=
  ⟨h.parity, h.shift, h.reached.effect he⟩

theorem entered_le_effect (he : s.Enabled sch a) : s.entered x ≤ (s.effect sch a).entered x := by
  cases a <;> simp only [entered, effect, Enabled, update_apply] at * <;> grind

theorem latest_notify {target slot : ℕ} : (s.effect sch (.notify x t d)).latest target parity slot =
    if target = sch.toNbr x d ∧ parity = s.counter x % 2 ∧ slot = sch.mype x then
      ⟨s.counter x, (s.phase x).getD 0⟩ else s.latest target parity slot := by
  unfold latest
  simp only [effect, set₃_apply]
  split
  next h => simp
  next h => rfl

theorem latest_deliver {target slot p : ℕ} (he : s.Enabled sch (.deliver x p y)) :
    (s.effect sch (.deliver x p y)).latest target parity slot = s.latest target parity slot := by
  unfold latest
  simp only [effect, set₃_apply]
  split
  next h =>
    obtain ⟨rfl, rfl, rfl⟩ := h
    obtain ⟨sig, sigs, hsigs⟩ := exists_cons_of_ne_nil he.2.2.2
    rw [hsigs, tail_cons, headD_cons, getLastD_cons]
  next h => rfl

theorem exists_before (hx : x < sch.size) (hd : d ≤ sch.size) :
    ∃ y < sch.size, (y + d) % sch.size = x := by
  refine ⟨(x + sch.size - d) % sch.size, mod_lt _ sch.size_pos, ?_⟩
  rw [mod_add_mod, Nat.sub_add_cancel (by omega), add_mod_right, mod_eq_of_lt hx]

theorem shift_unique {e : ℕ} (hd : d < sch.size) (he : e < sch.size)
    (h : (y + d) % sch.size = (y + e) % sch.size) : d = e := by
  have hmod : d ≡ e [MOD sch.size] := Nat.ModEq.add_left_cancel' y h
  rwa [Nat.ModEq, mod_eq_of_lt hd, mod_eq_of_lt he] at hmod

section Step

variable (hi : s.Traced sch)
include hi

theorem Traced.work_suffix {op : Op} {ops : List Op} (h : s.work x t = op :: ops) :
    ∃ i, s.phase x = some i ∧ op :: ops <:+ sch.program i t := by
  cases hp : s.phase x with
  | none => simp [hi.idle hp] at h
  | some i => exact ⟨i, rfl, h ▸ (hi.active hp).2.2 t⟩

theorem Traced.begin_phase (hx : x < sch.size) (hle : i ≤ sch.numPhases)
    (hsent : ∀ f < i, ∀ d, sch.Occurs f d →
      (s.latest (sch.toNbr x d) (s.counter x % 2) (sch.mype x)).counter = s.counter x)
    (heff : s.effect sch a = { s with
      phase := Function.update s.phase x (some i)
      work := Function.update s.work x (sch.program i) })
    (he : s.Enabled sch a) : (s.effect sch a).Traced sch where
  counter_pos z := by
    rw [heff]
    exact hi.counter_pos z
  idle {z} h t := by
    simp only [heff, update_apply] at h ⊢
    split at h
    next => exact absurd h (some_ne_none _)
    next hz => rw [if_neg hz, hi.idle h]
  active {z j} h := by
    simp only [heff, update_apply] at h ⊢
    split at h
    next hz =>
      cases h
      rw [if_pos hz, hz]
      exact ⟨hx, hle, fun t => suffix_rfl⟩
    next hz =>
      rw [if_neg hz]
      exact hi.active h
  stored hx hy h h0 := by
    refine Sent.effect (hi.stored hx hy ?_ h0) he
    rwa [heff] at h
  noticed {z y j d} h hocc hnot hy hyd := by
    by_cases hz : z = x
    · -- the loops of the phase have not begun
      subst hz
      obtain rfl : i = j := by simpa [heff] using h
      obtain ⟨t, ht⟩ := occurs_iff_await.mp hocc
      exact absurd (by simpa [heff] using ht) (hnot t)
    · have hp : s.phase z = some j := by simpa [heff, hz] using h
      have hw : ∀ t, .await d ∉ s.work z t := by simpa [heff, hz] using hnot
      obtain ⟨f, hf, hr⟩ := hi.noticed hp hocc hw hy hyd
      refine ⟨f, hf, ?_⟩
      rw [show (s.effect sch a).counter z = s.counter z by rw [heff]]
      exact hr.effect he
  notified {y j f d} h hocc hle hnot := by
    rw [heff]
    by_cases hy : y = x
    · subst hy
      obtain rfl : i = j := by simpa [heff] using h
      rcases Nat.lt_or_eq_of_le hle with hlt | rfl
      · exact hsent f hlt d hocc
      · obtain ⟨t, ht⟩ := hocc.exists_notify
        exact absurd (by simpa [heff] using ht) (hnot rfl t)
    · have hp : s.phase y = some j := by simpa [heff, hy] using h
      refine hi.notified hp hocc hle fun hf t => ?_
      simpa [heff, hy] using hnot hf t
  previous hy h1 hocc := by
    rw [heff] at h1 ⊢
    exact hi.previous hy h1 hocc

theorem Traced.enter (he : s.Enabled sch (.enter x)) : (s.effect sch (.enter x)).Traced sch :=
  hi.begin_phase he.1 (Nat.zero_le _) (fun f hf => absurd hf (Nat.not_lt_zero f)) rfl he

theorem Traced.work_eq_nil (hp : s.phase x = some i) (hw : ∀ t < sch.groupSize, s.work x t = [])
    (t : ℕ) : s.work x t = [] := by
  by_cases ht : t < sch.groupSize
  · exact hw t ht
  · have hsuf := (hi.active hp).2.2 t
    rwa [program, if_neg (fun h => ht h.2), suffix_nil] at hsuf

theorem Traced.threadgroupSync (he : s.Enabled sch (.threadgroupSync x i)) :
    (s.effect sch (.threadgroupSync x i)).Traced sch := by
  obtain ⟨hp, hlt, hwork⟩ := he
  refine hi.begin_phase (hi.active hp).1 hlt (fun f hf d hocc => ?_) rfl ⟨hp, hlt, hwork⟩
  refine hi.notified hp hocc (Nat.lt_succ_iff.mp hf) fun _ t ht => ?_
  rw [hi.work_eq_nil hp hwork] at ht
  exact not_mem_nil ht

theorem Traced.leave (he : s.Enabled sch (.leave x)) : (s.effect sch (.leave x)).Traced sch where
  counter_pos z := by
    have := hi.counter_pos z
    simp only [effect, update_apply]
    split <;> omega
  idle {z} h t := by
    by_cases hz : z = x
    · subst hz
      have := (hi.active he).2.2 t
      rwa [program_numPhases, suffix_nil] at this
    · exact hi.idle (by simpa [effect, hz] using h) t
  active {z i} h := by
    by_cases hz : z = x
    · subst hz
      simp [effect] at h
    · exact hi.active (by simpa [effect, hz] using h)
  stored hx hy h h0 := (hi.stored hx hy h h0).effect he
  noticed {z y i d} h hocc hnot hy hyd := by
    by_cases hz : z = x
    · subst hz
      simp [effect] at h
    · obtain ⟨f, hf, hr⟩ := hi.noticed (by simpa [effect, hz] using h) hocc hnot hy hyd
      refine ⟨f, hf, ?_⟩
      rw [show (s.effect sch (.leave x)).counter z = s.counter z by simp [effect, hz]]
      exact hr.effect he
  notified {y i f d} h hocc hle hnot := by
    by_cases hy : y = x
    · subst hy
      simp [effect] at h
    · rw [show (s.effect sch (.leave x)).counter y = s.counter y by simp [effect, hy]]
      exact hi.notified (by simpa [effect, hy] using h) hocc hle hnot
  previous {y f d} hlt h1 hocc := by
    by_cases hy : y = x
    · subst hy
      rw [show (s.effect sch (.leave y)).counter y = s.counter y + 1 by simp [effect],
        Nat.add_sub_cancel]
      exact hi.notified he hocc hocc.1.le fun hf => absurd hf hocc.1.ne
    · rw [show (s.effect sch (.leave x)).counter y = s.counter y by
        simp [effect, hy]] at h1 ⊢
      exact hi.previous hlt h1 hocc

theorem Traced.notify (he : s.Enabled sch (.notify x t d)) :
    (s.effect sch (.notify x t d)).Traced sch := by
  obtain ⟨ops, hops⟩ := head?_eq_some_iff.mp he
  obtain ⟨i, hp, hsuf⟩ := hi.work_suffix hops
  have hocc := occurs_of_notify (hsuf.subset mem_cons_self)
  have hx := (hi.active hp).1
  have hwork : ∀ z u, (s.effect sch (.notify x t d)).work z u =
      if z = x ∧ u = t then ops else s.work z u := by
    intro z u
    simp only [effect, set₂_apply, hops, tail_cons]
  constructor
  · exact hi.counter_pos
  · intro z hz u
    rw [hwork]
    split
    next h =>
      rw [h.1] at hz
      exact absurd (hz.symm.trans hp) (some_ne_none _).symm
    next => exact hi.idle hz u
  · intro z j hz
    refine ⟨(hi.active hz).1, (hi.active hz).2.1, fun u => ?_⟩
    rw [hwork]
    split
    next h =>
      obtain ⟨rfl, rfl⟩ := h
      cases hp.symm.trans hz
      exact (suffix_cons _ _).trans hsuf
    next => exact (hi.active hz).2.2 u
  · intro z y p sig hz hy h h0
    simp only [effect, set₃_apply] at h
    split at h
    next hcond =>
      obtain ⟨htarget, rfl, hslot⟩ := hcond
      rw [← cons_append, mem_append, mem_singleton] at h
      rcases h with h | rfl
      · rw [← htarget, ← hslot] at h
        exact (hi.stored hz hy h h0).effect he
      · obtain rfl := sch.mype_inj hy hx hslot
        rw [sch.toNbr_eq hx] at htarget
        obtain rfl := sch.mype_inj hz (mod_lt _ sch.size_pos) htarget
        refine ⟨rfl, ⟨d, ?_, rfl⟩, .inr ⟨rfl, i, hp, ?_⟩⟩
        · simpa [hp] using hocc
        · simp [hp]
    next => exact (hi.stored hz hy h h0).effect he
  · intro z y j e hz hocc hnot hy hye
    have hnot' : ∀ u, .await e ∉ s.work z u := by
      intro u hu
      refine hnot u ?_
      rw [hwork]
      split
      next h =>
        obtain ⟨rfl, rfl⟩ := h
        rw [hops] at hu
        simpa using hu
      next => exact hu
    obtain ⟨f, hf, hr⟩ := hi.noticed hz hocc hnot' hy hye
    exact ⟨f, hf, hr.effect he⟩
  · intro y j f e hy hocc' hle hnot
    have hylt := (hi.active hy).1
    change _ = s.counter y
    rw [latest_notify]
    split
    next h =>
      obtain rfl := sch.mype_inj hylt hx h.2.2
      rfl
    next h =>
      refine hi.notified hy hocc' hle fun hf u hu => hnot hf u ?_
      rw [hwork]
      split
      next heq =>
        obtain ⟨rfl, rfl⟩ := heq
        rw [hops, mem_cons] at hu
        rcases hu with hu | hu
        · obtain rfl := Op.notify.inj hu
          exact absurd ⟨rfl, rfl, rfl⟩ h
        · exact hu
      next => exact hu
  · intro y f e hy h1 hocc'
    change _ = s.counter y - 1
    rw [latest_notify]
    split
    next h =>
      obtain ⟨-, hparity, hslot⟩ := h
      obtain rfl := sch.mype_inj hy hx hslot
      change 1 < s.counter y at h1
      change (s.counter y - 1) % 2 = s.counter y % 2 at hparity
      omega
    next => exact hi.previous hy h1 hocc'

theorem Traced.await (he : s.Enabled sch (.await x t d)) :
    (s.effect sch (.await x t d)).Traced sch := by
  obtain ⟨ops, hops⟩ := head?_eq_some_iff.mp he.1
  obtain ⟨i, hp, hsuf⟩ := hi.work_suffix hops
  have hx := (hi.active hp).1
  have hwork : ∀ z u, (s.effect sch (.await x t d)).work z u =
      if z = x ∧ u = t then ops else s.work z u := by
    intro z u
    simp only [effect, set₂_apply, hops, tail_cons]
  constructor
  · exact hi.counter_pos
  · intro z hz u
    rw [hwork]
    split
    next h =>
      rw [h.1] at hz
      exact absurd (hz.symm.trans hp) (some_ne_none _).symm
    next => exact hi.idle hz u
  · intro z j hz
    refine ⟨(hi.active hz).1, (hi.active hz).2.1, fun u => ?_⟩
    rw [hwork]
    split
    next h =>
      obtain ⟨rfl, rfl⟩ := h
      cases hp.symm.trans hz
      exact (suffix_cons _ _).trans hsuf
    next => exact (hi.active hz).2.2 u
  · exact fun hz hy h h0 => (hi.stored hz hy h h0).effect he
  · intro z y j e hz hocc hnot hy hye
    by_cases hzx : z = x ∧ e = d
    · obtain ⟨rfl, rfl⟩ := hzx
      -- what the slot holds has been sent for this shift, in this sync or in a later one
      have hge := he.2
      rw [sch.fromNbr_eq hx hy hocc.lt hye] at hge
      have hsent := hi.stored hx hy mem_cons_self ((hi.counter_pos z).trans_le hge)
      obtain ⟨e', hocc', hye'⟩ := hsent.shift
      obtain rfl := shift_unique hocc.lt hocc'.lt (hye.trans hye'.symm)
      rcases Nat.lt_or_eq_of_le hge with hlt | heq
      · refine ⟨j, hocc, .inl ?_⟩
        change s.counter z < s.counter y
        rcases hsent.reached with h | ⟨h, -⟩ <;> omega
      · refine ⟨_, hocc', ?_⟩
        have := hsent.reached.effect he
        rwa [← heq] at this
    · have hnot' : ∀ u, .await e ∉ s.work z u := by
        intro u hu
        refine hnot u ?_
        rw [hwork]
        split
        next h =>
          obtain ⟨rfl, rfl⟩ := h
          rw [hops, mem_cons] at hu
          rcases hu with hu | hu
          · exact absurd ⟨rfl, Op.await.inj hu⟩ hzx
          · exact hu
        next => exact hu
      obtain ⟨f, hf, hr⟩ := hi.noticed hz hocc hnot' hy hye
      exact ⟨f, hf, hr.effect he⟩
  · intro y j f e hy hocc hle hnot
    refine hi.notified hy hocc hle fun hf u hu => hnot hf u ?_
    rw [hwork]
    split
    next h =>
      obtain ⟨rfl, rfl⟩ := h
      rw [hops] at hu
      simpa using hu
    next => exact hu
  · exact hi.previous

theorem Traced.deliver {p : ℕ} (he : s.Enabled sch (.deliver x p y)) :
    (s.effect sch (.deliver x p y)).Traced sch where
  counter_pos := hi.counter_pos
  idle := hi.idle
  active := hi.active
  stored {z w q sig} hz hw h h0 := by
    refine Sent.effect (hi.stored hz hw ?_ h0) he
    simp only [effect, set₃_apply] at h
    split at h
    next hcond =>
      obtain ⟨sig', sigs, hsigs⟩ := exists_cons_of_ne_nil he.2.2.2
      obtain ⟨h1, h2, h3⟩ := hcond
      rw [h1, h2, h3, hsigs]
      rw [hsigs] at h
      exact mem_cons_of_mem _ h
    next => exact h
  noticed hz hocc hnot hw hwd := by
    obtain ⟨f, hf, hr⟩ := hi.noticed hz hocc hnot hw hwd
    exact ⟨f, hf, hr.effect he⟩
  notified hy hocc hle hnot := by
    rw [latest_deliver he]
    exact hi.notified hy hocc hle hnot
  previous hy h1 hocc := by
    rw [latest_deliver he]
    exact hi.previous hy h1 hocc

theorem Traced.of_effect (he : s.Enabled sch a) : (s.effect sch a).Traced sch := by
  cases a with
  | enter x => exact hi.enter he
  | notify x t d => exact hi.notify he
  | await x t d => exact hi.await he
  | threadgroupSync x i => exact hi.threadgroupSync he
  | leave x => exact hi.leave he
  | deliver x p y => exact hi.deliver he

end Step

def Barrier (sch : Schedule) (s : State) : Prop :=
  ∀ x < sch.size, ∀ y < sch.size, s.returned x ≤ s.entered y

structure Safe (sch : Schedule) (s : State) : Prop extends Traced sch s where
  heard : ∀ {x y i e}, s.phase x = some i → Heard sch.Occurs i e → y < sch.size →
    (y + e) % sch.size = x → s.counter x ≤ s.entered y
  barrier : s.Barrier sch

theorem Safe.init : Safe sch init where
  toTraced := .init
  heard h := absurd h.symm (some_ne_none _)
  barrier _ _ _ _ := Nat.zero_le _

section Safe

variable (hi : s.Safe sch)
include hi

theorem Safe.entered_of_reached {e : ℕ} (hr : s.Reached y v f) (hh : Heard sch.Occurs f e)
    (hy : y < sch.size) (hx : x < sch.size) (h : (x + e) % sch.size = y) : v ≤ s.entered x := by
  rcases hr with hlt | ⟨rfl, i, hp, hfi⟩
  · have := hi.barrier y hy x hx
    unfold returned at this
    omega
  · exact hi.heard hp (hh.mono hfi) hx h

theorem Safe.heard_succ {e : ℕ} (he : s.Enabled sch (.threadgroupSync x i)) (hy : y < sch.size)
    (hh : Heard sch.Occurs (i + 1) e) (h : (y + e) % sch.size = x) : s.counter x ≤ s.entered y := by
  cases hh with
  | self =>
    rw [add_zero, mod_eq_of_lt hy] at h
    subst h
    rw [entered, he.1, if_neg (some_ne_none _)]
  | keep hh => exact hi.heard he.1 hh hy h
  | @news _ d e hfresh hh =>
    -- the PE in between has sent its signal in this phase or later
    have hmid : ((y + e) % sch.size + d) % sch.size = x := by
      rw [mod_add_mod, add_assoc, add_comm e]
      exact h
    have hlt : (y + e) % sch.size < sch.size := mod_lt _ sch.size_pos
    have hnot : ∀ t, .await d ∉ s.work x t := by
      intro t ht
      rw [hi.work_eq_nil he.1 he.2.2] at ht
      exact not_mem_nil ht
    obtain ⟨f, hf, hr⟩ := hi.noticed he.1 hfresh.1 hnot hlt hmid
    have hif : i ≤ f := not_lt.mp fun hfi => hfresh.2 f hfi hf
    exact hi.entered_of_reached hr (hh.mono hif) hlt hy rfl

theorem Safe.entered_of_leave (hcov : ∀ e < sch.size, Heard sch.Occurs sch.numPhases e)
    (he : s.Enabled sch (.leave x)) (hy : y < sch.size) : s.counter x ≤ s.entered y := by
  obtain ⟨e, helt, hye⟩ := exists_before (hi.active he).1 hy.le
  exact hi.heard he (hcov e helt) hy (by rwa [add_comm])

theorem Safe.of_effect (hcov : ∀ e < sch.size, Heard sch.Occurs sch.numPhases e)
    (he : s.Enabled sch a) : (s.effect sch a).Safe sch where
  toTraced := hi.toTraced.of_effect he
  heard {z y j e} hp hh hy hye := by
    have hle : s.entered y ≤ (s.effect sch a).entered y := entered_le_effect he
    have old : (s.effect sch a).counter z = s.counter z → s.phase z = some j →
        (s.effect sch a).counter z ≤ (s.effect sch a).entered y := by
      intro hc hp
      rw [hc]
      exact (hi.heard hp hh hy hye).trans hle
    cases a with
    | enter x =>
      by_cases hz : z = x
      · subst hz
        obtain rfl : 0 = j := by simpa [effect] using hp
        obtain rfl : e = 0 := by
          cases hh
          rfl
        rw [add_zero, mod_eq_of_lt hy] at hye
        subst hye
        rw [entered, hp, if_neg (some_ne_none _)]
      · exact old rfl (by simpa [effect, hz] using hp)
    | threadgroupSync x i =>
      by_cases hz : z = x
      · subst hz
        obtain rfl : i + 1 = j := by simpa [effect] using hp
        exact (hi.heard_succ he hy hh hye).trans hle
      · exact old rfl (by simpa [effect, hz] using hp)
    | leave x =>
      by_cases hz : z = x
      · subst hz
        simp [effect] at hp
      · exact old (by simp [effect, hz]) (by simpa [effect, hz] using hp)
    | notify x t d => exact old rfl hp
    | await x t d => exact old rfl hp
    | deliver x p y => exact old rfl hp
  barrier z hz y hy := by
    refine le_trans ?_ (entered_le_effect he)
    by_cases ha : a = .leave z
    · subst ha
      have := hi.entered_of_leave hcov he hy
      simpa [returned, effect] using this
    · have hret : (s.effect sch a).returned z = s.returned z := by
        cases a with
        | leave x =>
          have hzx : z ≠ x := fun h => ha (by rw [h])
          simp [returned, effect, hzx]
        | _ => rfl
      rw [hret]
      exact hi.barrier z hz y hy

end Safe

theorem safe_of_reachable (hcov : ∀ e < sch.size, Heard sch.Occurs sch.numPhases e)
    (h : Transition.Reachable (step sch) init s) : s.Safe sch := by
  refine h.invariant Safe.init fun hi hs => ?_
  obtain ⟨he, rfl⟩ := step_eq_some.mp hs
  exact hi.of_effect hcov he

theorem Safe.signal_of_await (hi : s.Safe sch) (he : s.Enabled sch (.await x t d)) :
    ∃ i, s.phase x = some i ∧ sch.Occurs i d ∧
      (s.pSync (sch.mype x) (s.counter x % 2) (sch.fromNbr x d)).counter = s.counter x ∧
      sch.Occurs (s.pSync (sch.mype x) (s.counter x % 2) (sch.fromNbr x d)).phase d := by
  obtain ⟨ops, hops⟩ := head?_eq_some_iff.mp he.1
  obtain ⟨i, hp, hsuf⟩ := hi.work_suffix hops
  have hx := (hi.active hp).1
  have hocc : sch.Occurs i d :=
    occurs_iff_await.mpr ⟨t, hsuf.subset mem_cons_self⟩
  obtain ⟨y, hy, hyd⟩ := exists_before hx hocc.lt.le
  have hge := he.2
  rw [sch.fromNbr_eq hx hy hocc.lt hyd] at hge ⊢
  have hsent := hi.stored hx hy mem_cons_self ((hi.counter_pos x).trans_le hge)
  obtain ⟨e, hocc', hye⟩ := hsent.shift
  obtain rfl := shift_unique hocc.lt hocc'.lt (hyd.trans hye.symm)
  refine ⟨i, hp, hocc, ?_, hocc'⟩
  -- a later signal in the same array is two syncs ahead
  have hret := hi.barrier y hy x hx
  rw [returned, entered, hp, if_neg (some_ne_none _)] at hret
  have hpar := hsent.parity
  rcases hsent.reached with h | ⟨h, -⟩ <;> omega

end State

end Nvshmem.TeamSync
