import Nvshmem.Ibgda.SendQueue

/-! # Invariant of the send queue

A reservation that is not ready yet is in front of the ready head and shares no slot number with
another one. The thread with the last reservation sees that it is the last when it has made its
slots ready, unless another one has reserved by then; so somebody is always about to tell the NIC of
all that is reserved.
-/

namespace Nvshmem.SendQueue

open Transition Option Option Function Nat

namespace Pc

def span : Pc → Option (ℕ × ℕ)
  | .reserved base num | .filling base num _ => some (base, num)
  | _ => none

def Holding : Pc → Prop
  | .locked _ | .ringing _ | .unlocking => True
  | _ => False

def Covers (r : ℕ) : Pc → Prop
  | .reserved base num | .filling base num _ | .ready base num => base + num = r
  | .posting new | .locked new | .ringing new => new = r
  | _ => False

end Pc

namespace State

variable {τ : Type*}

def Ok (cfg : Config) (s : State τ) : Pc → Prop
  | .reserved base num => (num ≠ 0 → s.readyHead ≤ base) ∧ base + num ≤ s.resvHead
  | .filling base num filled => (num ≠ 0 → s.readyHead ≤ base) ∧ base + num ≤ s.resvHead ∧
      base + num ≤ s.completed + cfg.nwqes ∧ filled ≤ num ∧
      ∀ i, base ≤ i → i < base + filled → s.slots (cfg.slot i) = some i
  | .ready base num => base + num ≤ s.readyHead
  | .posting new | .locked new => new ≤ s.readyHead
  | .ringing new => new ≤ s.prodIdx ∧ (cfg.useAsyncPostsend = false → new = s.prodIdx)
  | .quiet start => start ≤ s.readyHead
  | .polling start prodIdx => start ≤ prodIdx
  | .quieted start => start ≤ s.completed
  | .idle | .unlocking => True

def Written (s : State τ) (i : ℕ) : Prop :=
  i < s.readyHead ∨ ∃ t base num filled, s.pc t = .filling base num filled ∧ base ≤ i ∧
    i < base + filled

structure Inv (cfg : Config) (s : State τ) : Prop where
  completed_le : s.completed ≤ s.doorbell
  doorbell_le : s.doorbell ≤ s.prodIdx
  prodIdx_le : s.prodIdx ≤ s.readyHead
  readyHead_le : s.readyHead ≤ s.resvHead
  ok : ∀ t, s.Ok cfg (s.pc t)
  disjoint : ∀ t u, t ≠ u → ∀ x ∈ (s.pc t).span, ∀ y ∈ (s.pc u).span,
    x.1 + x.2 ≤ y.1 ∨ y.1 + y.2 ≤ x.1
  slots : ∀ x i, s.slots x = some i →
    x = cfg.slot i ∧ i < s.completed + cfg.nwqes ∧ s.Written i
  full : ∀ i, s.completed ≤ i → i < s.readyHead → s.slots (cfg.slot i) = some i
  lock : cfg.useAsyncPostsend = false → ∀ t, (s.pc t).Holding ↔ s.postSendLock = some t
  rung : s.doorbell = s.prodIdx ∨ ∃ t, s.pc t = .ringing s.prodIdx
  covered : s.doorbell = s.resvHead ∨ ∃ t, (s.pc t).Covers s.resvHead

end State

variable {cfg : Config}

theorem Config.slot_eq {i : ℕ} : cfg.slot i = i % cfg.nwqes := by
  rw [slot, nwqes, and_two_pow_sub_one_eq_mod,
    mod_mod_of_dvd _ (Nat.pow_dvd_pow 2 cfg.logNwqes_lt.le)]

theorem Config.nwqes_lt : cfg.nwqes < 2 ^ 16 := Nat.pow_lt_pow_right Nat.one_lt_two cfg.logNwqes_lt

theorem Config.lt_of_slot_eq {i j : ℕ} (h : cfg.slot i = cfg.slot j) (hlt : i < j) :
    i + cfg.nwqes ≤ j := by
  rw [slot_eq, slot_eq] at h
  have hdvd : cfg.nwqes ∣ j - i := (modEq_iff_dvd' hlt.le).mp h
  have := le_of_dvd (by omega) hdvd
  omega

namespace State

section Facts

variable {τ : Type*} {s s' : State τ} {t u : τ} {q : Pc} {x : ℕ × ℕ}

theorem Ok.readyHead_le (h : s.Ok cfg q) (hx : x ∈ q.span) (hne : x.2 ≠ 0) :
    s.readyHead ≤ x.1 := by
  cases q <;> simp only [Pc.span, reduceCtorEq, mem_def, some.injEq] at hx <;>
    exact hx ▸ h.1 (by simpa [← hx] using hne)

theorem Ok.le_resvHead (h : s.Ok cfg q) (hx : x ∈ q.span) : x.1 + x.2 ≤ s.resvHead := by
  cases q <;> simp only [Pc.span, reduceCtorEq, mem_def, some.injEq] at hx
  · exact hx ▸ h.2
  · exact hx ▸ h.2.1

theorem Ok.of_le (h : s.Ok cfg q) (hready : s.readyHead ≤ s'.readyHead)
    (hresv : s.resvHead ≤ s'.resvHead) (hcomp : s.completed ≤ s'.completed)
    (hprod : s.prodIdx ≤ s'.prodIdx)
    (hhold : cfg.useAsyncPostsend = false → q.Holding → s'.prodIdx = s.prodIdx)
    (hspan : ∀ x ∈ q.span, x.2 ≠ 0 → s'.readyHead ≤ x.1)
    (hslots : ∀ i, s.completed ≤ i → s.slots (cfg.slot i) = some i →
      s'.slots (cfg.slot i) = some i) (hle : s.completed ≤ s.readyHead) : s'.Ok cfg q := by
  cases q with
  | reserved base num => exact ⟨hspan (base, num) rfl, h.2.trans hresv⟩
  | filling base num filled =>
    obtain ⟨h1, h2, h3, h4, h5⟩ := h
    refine ⟨hspan (base, num) rfl, h2.trans hresv, by omega, h4, fun i hlo hhi => ?_⟩
    refine hslots i ?_ (h5 i hlo hhi)
    omega
  | ready base num => exact h.trans hready
  | posting new => exact h.trans hready
  | locked new => exact h.trans hready
  | ringing new =>
    exact ⟨h.1.trans hprod, fun hsync => (h.2 hsync).trans (hhold hsync trivial).symm⟩
  | quiet start => exact h.trans hready
  | polling start prodIdx => exact h
  | quieted start => exact h.trans hcomp
  | idle => trivial
  | unlocking => trivial

theorem inv_init : Inv cfg (init : State τ) where
  completed_le := le_rfl
  doorbell_le := le_rfl
  prodIdx_le := le_rfl
  readyHead_le := le_rfl
  ok _ := trivial
  disjoint _ _ _ _ h := by simp [init, Pc.span] at h
  slots _ _ h := by simp [init] at h
  full i _ h := absurd h (Nat.not_lt_zero i)
  lock _ _ := by simp [init, Pc.Holding]
  rung := .inl rfl
  covered := .inl rfl

variable (hi : Inv cfg s)

include hi

theorem Inv.completed_le_readyHead : s.completed ≤ s.readyHead :=
  hi.completed_le.trans (hi.doorbell_le.trans hi.prodIdx_le)

theorem Inv.lt_completed {base num filled old : ℕ} (hpc : s.pc t = .filling base num filled)
    (hlt : filled < num) (hold : s.slots (cfg.slot (base + filled)) = some old) :
    old < s.completed := by
  obtain ⟨hready, -, hwin, -, -⟩ : s.Ok cfg (.filling base num filled) := hpc ▸ hi.ok t
  obtain ⟨hslot, hbound, hwritten⟩ := hi.slots _ _ hold
  have hcomp := hi.completed_le_readyHead
  rcases Nat.lt_trichotomy old (base + filled) with hold' | rfl | hold'
  · have := Config.lt_of_slot_eq hslot.symm hold'
    omega
  · -- nobody has written the element yet
    exfalso
    rcases hwritten with hready' | ⟨u, base', num', filled', hu, hlo, hhi⟩
    · omega
    · by_cases hut : u = t
      · subst hut
        rw [hpc] at hu
        injection hu
        omega
      · have hfilled : s.Ok cfg (.filling base' num' filled') := hu ▸ hi.ok u
        have hle := hfilled.2.2.2.1
        have := hi.disjoint u t hut (base', num') (by rw [hu]; rfl) (base, num) (by rw [hpc]; rfl)
        omega
  · have := Config.lt_of_slot_eq hslot hold'
    omega

/-- The number of slots fits a `uint16_t`: a larger reservation waits for itself. -/
theorem Inv.num_mod {base num filled : ℕ} (hpc : s.pc t = .filling base num filled) :
    num % 2 ^ 16 = num := by
  obtain ⟨hready, -, hwin, -, -⟩ : s.Ok cfg (.filling base num filled) := hpc ▸ hi.ok t
  have hcomp := hi.completed_le_readyHead
  have hnwqes := cfg.nwqes_lt
  refine mod_eq_of_lt ?_
  by_cases h0 : num = 0
  · omega
  · have := hready h0
    omega

theorem Inv.holding_unique (hsync : cfg.useAsyncPostsend = false) (ht : (s.pc t).Holding)
    (hu : (s.pc u).Holding) : u = t :=
  some.inj (((hi.lock hsync u).mp hu).symm.trans ((hi.lock hsync t).mp ht))

end Facts

variable {τ : Type*} [DecidableEq τ] {s s' : State τ} {a : Action τ} {t u : τ} {q : Pc}
  {base num new : ℕ}

theorem step_eq_some : s.step cfg a = some s' ↔ s.Enabled cfg a ∧ s.effect cfg a = s' := by
  rw [step, ite_none_right_eq_some, some.injEq]

theorem pc_goto_self : (s.goto t q).pc t = q := update_self ..

theorem pc_goto_of_ne (h : u ≠ t) : (s.goto t q).pc u = s.pc u := update_of_ne h ..

theorem forall_goto {P : τ → Pc → Prop} (ht : P t q) (h : ∀ u, u ≠ t → P u (s.pc u)) (u : τ) :
    P u ((s.goto t q).pc u) :=
  (forall_update_iff s.pc (p := P)).mpr ⟨ht, h⟩ u

theorem exists_goto {P : Pc → Prop} (h : ∃ u, P (s.pc u)) (ht : P (s.pc t) → P q) :
    ∃ u, P ((s.goto t q).pc u) := by
  obtain ⟨u, hu⟩ := h
  by_cases hut : u = t
  · subst hut
    exact ⟨u, by rw [pc_goto_self]; exact ht hu⟩
  · exact ⟨u, by rwa [pc_goto_of_ne hut]⟩

theorem Written.goto {i : ℕ} (h : s.Written i)
    (hfill : ∀ base num filled, s.pc t = .filling base num filled → i < base + filled →
      i < s'.readyHead ∨ ∃ filled', q = .filling base num filled' ∧ i < base + filled')
    (hpc : s'.pc = (s.goto t q).pc) (hready : s.readyHead ≤ s'.readyHead) : s'.Written i := by
  rcases h with hlt | ⟨u, base, num, filled, hu, hlo, hhi⟩
  · exact .inl (hlt.trans_le hready)
  · by_cases hut : u = t
    · subst hut
      refine (hfill base num filled hu hhi).imp_right ?_
      rintro ⟨filled', hq, hhi'⟩
      exact ⟨u, base, num, filled', by rw [hpc, pc_goto_self, hq], hlo, hhi'⟩
    · exact .inr ⟨u, base, num, filled, by rw [hpc, pc_goto_of_ne hut, hu], hlo, hhi⟩

omit [DecidableEq τ] in
theorem afterPost_ok (cfg : Config) (s : State τ) : (afterPost cfg).span = none ∧
    Ok cfg s (afterPost cfg) ∧ (cfg.useAsyncPostsend = false → (afterPost cfg).Holding) := by
  unfold afterPost
  split <;> simp_all [Pc.span, Ok, Pc.Holding]

section Steps

variable (hi : Inv cfg s)

include hi

theorem Inv.disjoint_goto (hspan : ∀ x ∈ q.span, x ∈ (s.pc t).span) :
    ∀ u v, u ≠ v → ∀ x ∈ ((s.goto t q).pc u).span, ∀ y ∈ ((s.goto t q).pc v).span,
      x.1 + x.2 ≤ y.1 ∨ y.1 + y.2 ≤ x.1 := by
  have hback : ∀ w, ∀ z ∈ ((s.goto t q).pc w).span, z ∈ (s.pc w).span :=
    forall_goto (P := fun w p => ∀ z ∈ p.span, z ∈ (s.pc w).span) hspan fun _ _ _ hz => hz
  intro u v hne x hx y hy
  exact hi.disjoint u v hne x (hback u x hx) y (hback v y hy)

theorem Inv.lock_goto (hhold : (s.pc t).Holding ↔ q.Holding)
    (hsync : cfg.useAsyncPostsend = false) :
    ∀ u, ((s.goto t q).pc u).Holding ↔ s.postSendLock = some u :=
  forall_goto (P := fun u p => p.Holding ↔ s.postSendLock = some u)
    (hhold.symm.trans (hi.lock hsync t)) fun u _ => hi.lock hsync u

theorem Inv.rung_goto (hring : ∀ new, s.pc t ≠ .ringing new) :
    s.doorbell = s.prodIdx ∨ ∃ u, (s.goto t q).pc u = .ringing s.prodIdx :=
  hi.rung.imp_right fun h => exists_goto (P := (· = .ringing s.prodIdx)) h
    fun heq => absurd heq (hring _)

theorem Inv.covered_goto (hcover : (s.pc t).Covers s.resvHead → q.Covers s.resvHead) :
    s.doorbell = s.resvHead ∨ ∃ u, ((s.goto t q).pc u).Covers s.resvHead :=
  hi.covered.imp_right fun h => exists_goto (P := Pc.Covers s.resvHead) h hcover

theorem Inv.goto (hok : s.Ok cfg q) (hspan : ∀ x ∈ q.span, x ∈ (s.pc t).span)
    (hfill : ∀ base num filled, s.pc t ≠ .filling base num filled)
    (hhold : ¬ (s.pc t).Holding ∧ ¬ q.Holding)
    (hcover : (s.pc t).Covers s.resvHead → q.Covers s.resvHead) : Inv cfg (s.goto t q) where
  completed_le := hi.completed_le
  doorbell_le := hi.doorbell_le
  prodIdx_le := hi.prodIdx_le
  readyHead_le := hi.readyHead_le
  ok := forall_goto (P := fun _ p => s.Ok cfg p) hok fun u _ => hi.ok u
  disjoint := hi.disjoint_goto hspan
  slots x i hx := by
    obtain ⟨hslot, hlt, hw⟩ := hi.slots x i hx
    refine ⟨hslot, hlt, ?_⟩
    exact hw.goto (fun _ _ _ h => absurd h (hfill _ _ _)) rfl le_rfl
  full := hi.full
  lock := hi.lock_goto (iff_of_false hhold.1 hhold.2)
  rung := hi.rung_goto fun new h => by
    rw [h] at hhold
    exact hhold.1 trivial
  covered := hi.covered_goto hcover

theorem Inv.wait (he : s.Enabled cfg (.wait t base num)) :
    Inv cfg (s.effect cfg (.wait t base num)) := by
  obtain ⟨hpc, hwait⟩ := he
  obtain ⟨hready, hresv⟩ : s.Ok cfg (.reserved base num) := hpc ▸ hi.ok t
  refine hi.goto ⟨hready, hresv, by omega, Nat.zero_le _, fun i hlo hhi => by omega⟩ ?_ ?_ ?_ ?_
  · rw [hpc]
    exact fun x hx => hx
  · simp [hpc]
  · rw [hpc]
    exact ⟨id, id⟩
  · rw [hpc]
    exact id

theorem Inv.decide (he : s.Enabled cfg (.decide t base num)) :
    Inv cfg (s.effect cfg (.decide t base num)) := by
  have hpc : s.pc t = .ready base num := he
  have hok : s.Ok cfg (.ready base num) := hpc ▸ hi.ok t
  rw [effect]
  split
  · refine hi.goto hok (by simp [Pc.span]) (by simp [hpc]) ?_ ?_
    · rw [hpc]
      exact ⟨id, id⟩
    · rw [hpc]
      exact id
  · next hnot =>
    refine hi.goto trivial (by simp [Pc.span]) (by simp [hpc]) ?_ ?_
    · rw [hpc]
      exact ⟨id, id⟩
    · -- the thread whose reservation is the last posts
      rw [hpc]
      exact fun hlast => absurd (.inl hlast) hnot

theorem Inv.goto_outside (hok : s.Ok cfg q) (hout : (s.pc t).Outside) (hout' : q.Outside) :
    Inv cfg (s.goto t q) := by
  have hspan : q.span = none := by cases q <;> first | rfl | exact hout'.elim
  have hhold : ∀ {p : Pc}, p.Outside → ¬ p.Holding ∧ ¬ p.Covers s.resvHead := by
    intro p hp
    cases p <;> first | exact ⟨id, id⟩ | exact hp.elim
  refine hi.goto hok (by simp [hspan]) ?_ ⟨(hhold hout).1, (hhold hout').1⟩
    fun hc => absurd hc (hhold hout).2
  intro base num filled hpc
  rw [hpc] at hout
  exact hout

theorem Inv.reserve (he : s.Enabled cfg (.reserve t num)) :
    Inv cfg (s.effect cfg (.reserve t num)) := by
  have hpc : s.pc t = .idle := he
  have hle : s.resvHead ≤ s.resvHead + num := Nat.le_add_right _ _
  refine ⟨hi.completed_le, hi.doorbell_le, hi.prodIdx_le, hi.readyHead_le.trans hle, ?_, ?_,
    fun x i hx => ?_, hi.full, ?_, ?_, ?_⟩
  · refine forall_goto (P := fun _ p => Ok cfg _ p) ⟨fun _ => hi.readyHead_le, le_rfl⟩ ?_
    intro u _
    exact (hi.ok u).of_le le_rfl hle le_rfl le_rfl (fun _ _ => rfl)
      (fun x hx => (hi.ok u).readyHead_le hx) (fun _ _ h => h) hi.completed_le_readyHead
  · -- the new reservation starts where all others end
    intro u v hne x hx y hy
    simp only [effect] at hx hy
    by_cases hu : u = t
    · subst hu
      rw [pc_goto_self, Pc.span, mem_def, some.injEq] at hx
      rw [pc_goto_of_ne hne.symm] at hy
      exact .inr (hx ▸ (hi.ok v).le_resvHead hy)
    · by_cases hv : v = t
      · subst hv
        rw [pc_goto_self, Pc.span, mem_def, some.injEq] at hy
        rw [pc_goto_of_ne hne] at hx
        exact .inl (hy ▸ (hi.ok u).le_resvHead hx)
      · rw [pc_goto_of_ne hu] at hx
        rw [pc_goto_of_ne hv] at hy
        exact hi.disjoint u v hne x hx y hy
  · obtain ⟨hslot, hlt, hw⟩ := hi.slots x i hx
    refine ⟨hslot, hlt, ?_⟩
    exact hw.goto (fun _ _ _ h => by simp [hpc] at h) rfl le_rfl
  · refine hi.lock_goto ?_
    rw [hpc]
    exact Iff.rfl
  · exact hi.rung_goto (by simp [hpc])
  · exact .inr ⟨t, (congrArg (Pc.Covers _) pc_goto_self).mpr rfl⟩

theorem Inv.fill {filled : ℕ} (he : s.Enabled cfg (.fill t base num filled)) :
    Inv cfg (s.effect cfg (.fill t base num filled)) := by
  obtain ⟨hpc, hlt⟩ := he
  obtain ⟨h1, h2, hwin, h4, hwrote⟩ : s.Ok cfg (.filling base num filled) := hpc ▸ hi.ok t
  have hcomp := hi.completed_le_readyHead
  -- elements that have not completed keep their slots
  have hkeep : ∀ i, s.completed ≤ i → s.slots (cfg.slot i) = some i →
      update s.slots (cfg.slot (base + filled)) (some (base + filled)) (cfg.slot i) =
        some i := by
    intro i hle hslot
    rw [update_of_ne]
    · exact hslot
    · intro heq
      rw [heq] at hslot
      have := hi.lt_completed hpc hlt hslot
      omega
  refine ⟨hi.completed_le, hi.doorbell_le, hi.prodIdx_le, hi.readyHead_le, ?_,
    hi.disjoint_goto (by rw [hpc]; exact fun x hx => hx), fun x i hx => ?_,
    fun i hle hlt => hkeep i hle (hi.full i hle hlt), ?_, ?_, ?_⟩
  · refine forall_goto (P := fun _ p => Ok cfg _ p) ⟨h1, h2, hwin, hlt, fun i hlo hhi => ?_⟩ ?_
    · by_cases heq : i = base + filled
      · rw [heq]
        exact update_self ..
      · exact hkeep i (by omega) (hwrote i hlo (by omega))
    · intro u _
      exact (hi.ok u).of_le le_rfl le_rfl le_rfl le_rfl (fun _ _ => rfl)
        (fun x hx => (hi.ok u).readyHead_le hx) hkeep hcomp
  · simp only [effect, update_apply] at hx
    split at hx
    · next heq =>
      cases hx
      exact ⟨heq, show base + filled < s.completed + cfg.nwqes by omega,
        .inr ⟨t, base, num, filled + 1, pc_goto_self, by omega, by omega⟩⟩
    · obtain ⟨hslot, hbound, hw⟩ := hi.slots x i hx
      refine ⟨hslot, hbound, ?_⟩
      refine hw.goto (fun base' num' filled' h hhi => .inr ?_) rfl le_rfl
      rw [hpc] at h
      injection h with h5 h6 h7
      subst h5 h6 h7
      exact ⟨filled + 1, rfl, by omega⟩
  · refine hi.lock_goto ?_
    rw [hpc]
    exact Iff.rfl
  · exact hi.rung_goto (by simp [hpc])
  · refine hi.covered_goto ?_
    rw [hpc]
    exact id

theorem Inv.submit (he : s.Enabled cfg (.submit t base num)) :
    Inv cfg (s.effect cfg (.submit t base num)) := by
  obtain ⟨hpc, hready⟩ := he
  obtain ⟨-, hresv, hwin, -, hwrote⟩ : s.Ok cfg (.filling base num num) := hpc ▸ hi.ok t
  have hcomp := hi.completed_le_readyHead
  have hle : s.readyHead ≤ base + num := by omega
  rw [effect, hi.num_mod hpc]
  refine ⟨hi.completed_le, hi.doorbell_le, hi.prodIdx_le.trans hle, hresv, ?_,
    hi.disjoint_goto (by simp [Pc.span]), fun x i hx => ?_, fun i hlo hhi => ?_, ?_, ?_, ?_⟩
  · refine forall_goto (P := fun _ p => Ok cfg _ p) le_rfl ?_
    intro u hu
    refine (hi.ok u).of_le hle le_rfl le_rfl le_rfl (fun _ _ => rfl) (fun x hx hne => ?_)
      (fun _ _ h => h) hcomp
    -- another reservation ends before this one or starts after it
    have hu' := (hi.ok u).readyHead_le hx hne
    have := hi.disjoint u t hu x hx (base, num) (by rw [hpc]; rfl)
    dsimp only at this ⊢
    omega
  · obtain ⟨hslot, hlt, hw⟩ := hi.slots x i hx
    refine ⟨hslot, hlt, ?_⟩
    refine hw.goto (fun base' num' filled' h hhi => .inl ?_) rfl hle
    rw [hpc] at h
    injection h with h5 h6 h7
    subst h5 h6 h7
    exact hhi
  · rcases Nat.lt_or_ge i s.readyHead with hlt | hge
    · exact hi.full i hlo hlt
    · exact hwrote i (by omega) hhi
  · refine hi.lock_goto ?_
    rw [hpc]
    exact Iff.rfl
  · exact hi.rung_goto (by simp [hpc])
  · refine hi.covered_goto ?_
    rw [hpc]
    exact id

theorem Inv.goto_post (hfill : (s.pc t).span = none) (hspan : q.span = none)
    (hpc : s'.pc = (s.goto t q).pc) (hresv : s'.resvHead = s.resvHead)
    (hready : s'.readyHead = s.readyHead) (hcomp : s'.completed = s.completed)
    (hslots : s'.slots = s.slots) (hok : s'.Ok cfg q)
    (hprod : s.prodIdx ≤ s'.prodIdx) (hprod' : s'.prodIdx ≤ s.readyHead)
    (hhold : ∀ u, u ≠ t → cfg.useAsyncPostsend = false → (s.pc u).Holding →
      s'.prodIdx = s.prodIdx)
    (hcompleted : s'.completed ≤ s'.doorbell) (hdoorbell : s'.doorbell ≤ s'.prodIdx)
    (hlock : cfg.useAsyncPostsend = false → ∀ u, (s'.pc u).Holding ↔ s'.postSendLock = some u)
    (hrung : s'.doorbell = s'.prodIdx ∨ ∃ u, s'.pc u = .ringing s'.prodIdx)
    (hcovered : s'.doorbell = s'.resvHead ∨ ∃ u, (s'.pc u).Covers s'.resvHead) : Inv cfg s' := by
  refine ⟨hcompleted, hdoorbell, hready ▸ hprod', by rw [hready, hresv]; exact hi.readyHead_le, ?_,
    ?_, fun x i hx => ?_, fun i hlo hhi => ?_, hlock, hrung, hcovered⟩
  · rw [hpc]
    refine forall_goto (P := fun _ p => Ok cfg s' p) hok fun u hu => ?_
    refine (hi.ok u).of_le hready.ge hresv.ge hcomp.ge hprod (hhold u hu) (fun x hx hne => ?_)
      (fun i _ h => by rw [hslots]; exact h) hi.completed_le_readyHead
    rw [hready]
    exact (hi.ok u).readyHead_le hx hne
  · rw [hpc]
    exact hi.disjoint_goto (by simp [hspan])
  · rw [hslots] at hx
    obtain ⟨hslot, hlt, hw⟩ := hi.slots x i hx
    refine ⟨hslot, hcomp ▸ hlt, hw.goto (fun base num filled h => ?_) hpc hready.ge⟩
    simp [h, Pc.span] at hfill
  · rw [hslots]
    exact hi.full i (hcomp ▸ hlo) (hready ▸ hhi)

theorem Inv.acquire (he : s.Enabled cfg (.lock t new)) : Inv cfg (s.effect cfg (.lock t new)) := by
  obtain ⟨hpc, hsync, hfree⟩ := he
  have hok : s.Ok cfg (.posting new) := hpc ▸ hi.ok t
  refine hi.goto_post (by rw [hpc]; rfl) rfl rfl rfl rfl rfl rfl hok le_rfl hi.prodIdx_le
    (fun _ _ _ _ => rfl) hi.completed_le hi.doorbell_le ?_ (hi.rung_goto (by simp [hpc])) ?_
  · intro _
    refine forall_goto (P := fun u p => p.Holding ↔ some t = some u) (iff_of_true trivial rfl) ?_
    intro u hu
    rw [hi.lock hsync u, hfree]
    simp [hu.symm]
  · refine hi.covered_goto ?_
    rw [hpc]
    exact id

/-- The end of the reservations is rung, or about to be rung, once it is in `prod_idx`. -/
theorem Inv.covered_of_prodIdx (hend : s.resvHead ≤ s.prodIdx)
    (hring : ∀ new, s.pc t ≠ .ringing new) :
    s.doorbell = s.resvHead ∨ ∃ u, ((s.goto t q).pc u).Covers s.resvHead := by
  have heq : s.prodIdx = s.resvHead := le_antisymm (hi.prodIdx_le.trans hi.readyHead_le) hend
  rw [← heq]
  refine (hi.rung_goto (q := q) hring).imp_right ?_
  rintro ⟨u, hu⟩
  exact ⟨u, by rw [hu]; rfl⟩

theorem Inv.max (he : s.Enabled cfg (.max t new)) : Inv cfg (s.effect cfg (.max t new)) := by
  -- the thread is at the same place with and without the lock
  have hpc : (s.pc t).span = none ∧ (∀ w, s.pc t ≠ .ringing w) ∧ new ≤ s.readyHead ∧
      ((s.pc t).Covers s.resvHead → new = s.resvHead) ∧
      (cfg.useAsyncPostsend = false → (s.pc t).Holding) := by
    have hok := hi.ok t
    rw [Enabled] at he
    split at he <;> rw [he] at hok ⊢ <;> simp_all [Pc.span, Pc.Covers, Pc.Holding, Ok]
  obtain ⟨hspan, hring, hle, hcover, hhold⟩ := hpc
  rw [effect]
  split
  · next hlt =>
    refine hi.goto_post hspan rfl rfl rfl rfl rfl rfl ⟨le_max_right _ _, fun _ => ?_⟩
      (le_max_left _ _) (max_le hi.prodIdx_le hle) (fun u hu hsync hhold' => ?_) hi.completed_le
      (hi.doorbell_le.trans (le_max_left _ _)) (fun hsync => ?_) (.inr ⟨t, ?_⟩) ?_
    · exact (max_eq_right hlt.le).symm
    · exact absurd (hi.holding_unique hsync (hhold hsync) hhold') hu
    · exact hi.lock_goto (iff_of_true (hhold hsync) trivial) hsync
    · exact pc_goto_self.trans (by rw [max_eq_right hlt.le])
    · exact hi.covered_goto hcover
  · next hlt =>
    have hmax : Max.max s.prodIdx new = s.prodIdx := max_eq_left (by omega)
    have hafter := s.afterPost_ok cfg
    rw [hmax]
    refine hi.goto_post hspan hafter.1 rfl rfl rfl rfl rfl ?_ le_rfl hi.prodIdx_le
      (fun _ _ _ _ => rfl) hi.completed_le hi.doorbell_le (fun hsync => ?_) (hi.rung_goto hring) ?_
    · exact hafter.2.1
    · exact hi.lock_goto (iff_of_true (hhold hsync) (hafter.2.2 hsync)) hsync
    · by_cases hend : s.resvHead ≤ s.prodIdx
      · exact hi.covered_of_prodIdx hend hring
      · refine hi.covered_goto fun hc => ?_
        have := hcover hc
        omega

theorem Inv.ring (he : s.Enabled cfg (.ring t new)) : Inv cfg (s.effect cfg (.ring t new)) := by
  have hpc : s.pc t = .ringing new := he
  obtain ⟨hle, hsync⟩ : s.Ok cfg (.ringing new) := hpc ▸ hi.ok t
  have hcomp := hi.completed_le
  have hdoor := hi.doorbell_le
  have hprod := hi.prodIdx_le
  have hready := hi.readyHead_le
  -- the doorbell does not go back
  obtain ⟨d, hd, hlo, hnew, hhi⟩ : ∃ d, (if cfg.useAsyncPostsend then Max.max s.doorbell new
      else new) = d ∧ s.doorbell ≤ d ∧ new ≤ d ∧ d ≤ s.prodIdx := by
    refine ⟨_, rfl, ?_⟩
    split
    · exact ⟨le_max_left _ _, le_max_right _ _, max_le hdoor hle⟩
    · next hasync =>
      have := hsync (by simpa using hasync)
      exact ⟨by omega, le_rfl, hle⟩
  have hafter := s.afterPost_ok cfg
  rw [effect, hd]
  refine hi.goto_post (by rw [hpc]; rfl) hafter.1 rfl rfl rfl rfl rfl ?_ le_rfl hprod
    (fun _ _ _ _ => rfl) (hcomp.trans hlo) hhi (fun hs => ?_) ?_ ?_
  · exact hafter.2.1
  · refine hi.lock_goto (iff_of_true ?_ (hafter.2.2 hs)) hs
    rw [hpc]
    trivial
  · rcases hi.rung with heq | h
    · exact .inl (show d = s.prodIdx by omega)
    · by_cases heq : new = s.prodIdx
      · exact .inl (show d = s.prodIdx by omega)
      · refine .inr (exists_goto (P := (· = .ringing s.prodIdx)) h fun hr => ?_)
        rw [hpc] at hr
        injection hr with hr
        exact absurd hr heq
  · rcases hi.covered with heq | h
    · exact .inl (show d = s.resvHead by omega)
    · by_cases heq : new = s.resvHead
      · exact .inl (show d = s.resvHead by omega)
      · refine .inr (exists_goto (P := Pc.Covers s.resvHead) h fun hc => ?_)
        rw [hpc] at hc
        exact absurd hc heq

theorem Inv.unlock (he : s.Enabled cfg (.unlock t)) : Inv cfg (s.effect cfg (.unlock t)) := by
  have hpc : s.pc t = .unlocking := he
  have hhold : (s.pc t).Holding := by
    rw [hpc]
    trivial
  refine hi.goto_post (by rw [hpc]; rfl) rfl rfl rfl rfl rfl rfl trivial le_rfl hi.prodIdx_le
    (fun _ _ _ _ => rfl) hi.completed_le hi.doorbell_le (fun hsync => ?_)
    (hi.rung_goto (by simp [hpc])) ?_
  · refine forall_goto (P := fun u p => p.Holding ↔ none = some u) (iff_of_false id (by simp)) ?_
    intro u hu
    exact iff_of_false (fun h => hu (hi.holding_unique hsync hhold h)) (by simp)
  · refine hi.covered_goto ?_
    rw [hpc]
    exact id

omit [DecidableEq τ] in
theorem Inv.complete (he : s.completed < s.doorbell) :
    Inv cfg { s with completed := s.completed + 1 } := by
  refine ⟨he, hi.doorbell_le, hi.prodIdx_le, hi.readyHead_le, fun u => ?_, hi.disjoint,
    fun x i hx => ?_, fun i hlo hhi => hi.full i (by dsimp only at hlo; omega) hhi, hi.lock,
    hi.rung, hi.covered⟩
  · exact (hi.ok u).of_le le_rfl le_rfl (le_succ _) le_rfl (fun _ _ => rfl)
      (fun x hx => (hi.ok u).readyHead_le hx) (fun _ _ h => h) hi.completed_le_readyHead
  · obtain ⟨hslot, hlt, hw⟩ := hi.slots x i hx
    exact ⟨hslot, by dsimp only; omega, hw⟩

theorem Inv.step (hs : State.step cfg s a = some s') : Inv cfg s' := by
  obtain ⟨he, rfl⟩ := step_eq_some.mp hs
  cases a with
  | reserve t num => exact hi.reserve he
  | wait t base num => exact hi.wait he
  | fill t base num filled => exact hi.fill he
  | submit t base num => exact hi.submit he
  | decide t base num => exact hi.decide he
  | lock t new => exact hi.acquire he
  | max t new => exact hi.max he
  | ring t new => exact hi.ring he
  | unlock t => exact hi.unlock he
  | complete => exact hi.complete he
  | quiet t =>
    have hpc : s.pc t = .idle := he
    exact hi.goto_outside (le_refl s.readyHead) (by rw [hpc]; trivial) trivial
  | read t start =>
    have hpc : s.pc t = .quiet start := he
    have hok : s.Ok cfg (.quiet start) := hpc ▸ hi.ok t
    exact hi.goto_outside hok (by rw [hpc]; trivial) trivial
  | poll t start prodIdx =>
    obtain ⟨hpc, hle⟩ := he
    have hok : s.Ok cfg (.polling start prodIdx) := hpc ▸ hi.ok t
    exact hi.goto_outside (le_trans hok hle) (by rw [hpc]; trivial) trivial
  | finish t start =>
    have hpc : s.pc t = .quieted start := he
    exact hi.goto_outside trivial (by rw [hpc]; trivial) trivial

omit [DecidableEq τ] in
theorem Inv.safe : s.Safe cfg where
  completed_le := hi.completed_le.trans hi.doorbell_le
  prodIdx_le := hi.prodIdx_le
  readyHead_le := hi.readyHead_le
  rewrite _ _ _ _ hpc hlt _ hold := hi.lt_completed hpc hlt hold
  filled := ⟨hi.doorbell_le.trans hi.prodIdx_le, fun i hlo hhi =>
    hi.full i hlo (hhi.trans_le (hi.doorbell_le.trans hi.prodIdx_le))⟩
  posted hout := by
    refine hi.covered.resolve_right ?_
    rintro ⟨t, ht⟩
    have := hout t
    cases hpc : s.pc t <;> rw [hpc] at ht this <;> first | exact ht | exact this
  quiet t start hpc := by
    have hok : s.Ok cfg (.quieted start) := hpc ▸ hi.ok t
    exact hok

end Steps

end State

/-- Whatever the threads and the NIC do, the queue is safe. -/
theorem sendQueue_safe {τ : Type*} [DecidableEq τ] (cfg : Config) (s : State τ)
    (h : Reachable (State.step cfg) .init s) : s.Safe cfg :=
  (h.invariant State.inv_init fun hi hs => hi.step hs).safe

/-- A queue of two slots that one thread fills, and the NIC is told of them. -/
theorem sendQueue_safe_twoSlots :
    ∃ s : State Unit, Reachable (State.step ⟨1, 0, false, by decide⟩) .init s ∧
      s.doorbell = 2 ∧ s.Safe ⟨1, 0, false, by decide⟩ := by
  exact Reachable.exists_of_exec [.reserve () 2, .wait () 0 2, .fill () 0 2 0, .fill () 0 2 1,
    .submit () 0 2, .decide () 0 2, .lock () 2, .max () 2, .ring () 2] (fun s => s.doorbell = 2)
    (by decide) fun s hr hdoorbell => ⟨hdoorbell, sendQueue_safe _ s hr⟩

end Nvshmem.SendQueue
