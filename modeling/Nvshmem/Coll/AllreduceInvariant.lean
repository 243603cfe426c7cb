import Nvshmem.Coll.AllreduceLayout

/-! # Invariants of the allreduces

A signal says that the puts before it have arrived, so a PE that has finished `i` phases of a call
knows that all PEs with the same digits from digit `i` on have entered the call. A PE that is two
calls ahead therefore writes to places that nobody needs any more. If all offsets fit an `int`,
every PE has in each phase what the exchange gives it.
-/

namespace Nvshmem.Allreduce

open Transition Mailbox Config Function

namespace State

variable {cfg : Config} {s t : State cfg} {p : Packet} {q : Signal} {c c' i x y pe e : ℕ}

def Reached (s : State cfg) (c i pe : ℕ) : Prop := c < s.call pe ∨ c = s.call pe ∧ i ≤ s.phase pe

def Retired (s : State cfg) (c : ℕ) : Prop := ∀ pe < cfg.size, c < s.call pe

def AllArrived (s : State cfg) (c i pe : ℕ) (isCopy : Bool) : Prop :=
  ∀ b < (cfg.call c).nbytes, s.scratch.status ⟨c, i, pe, isCopy, b⟩ = .arrived

theorem InPhase.lt (h : s.InPhase pe c i) : i < cfg.m := step2Nphases_eq h.1 ▸ h.2.2.2.2

theorem InPhase.reached (h : s.InPhase pe c i) : s.Reached c i pe :=
  .inr ⟨h.2.2.1, h.2.2.2.1.le⟩

theorem InPhase.validSignal (h : s.InPhase pe c i) : cfg.ValidSignal ⟨c, i, pe⟩ :=
  ⟨h.2.1, h.lt, h.1⟩

structure Proto (s : State cfg) : Prop where
  phase_le : ∀ {x}, x < cfg.size → s.phase x ≤ cfg.m
  call_le : ∀ {x}, x < cfg.size → s.call x ≤ cfg.calls.length + 1
  start : ∀ {x}, x < cfg.size → s.call x = 0 → s.phase x = cfg.m
  sent : ∀ {p}, s.scratch.status p ≠ .idle → cfg.Valid p ∧ s.Reached p.call p.phase p.src ∧
    (p.isCopy = false → s.AllArrived p.call p.phase p.src true)
  posted : ∀ {p}, s.scratch.status p = .posted → p.isCopy = false
  signalled : ∀ {q}, s.pSync.status q ≠ .idle → cfg.ValidSignal q ∧
    s.Reached q.call q.phase q.src ∧ s.HasPut q.call q.phase q.src ∧ s.pSync.status q ≠ .posted
  fenced : ∀ {q}, s.pSync.status q = .arrived → s.AllArrived q.call q.phase q.src false
  past : ∀ {c i x}, x < cfg.size → cfg.IsCall c → i < cfg.m → s.Past c i x →
    s.pSync.status ⟨c, i, x⟩ ≠ .idle ∧ s.pSync.status ⟨c, i, cfg.nbr x i⟩ = .arrived
  waiting : ∀ {x}, x < cfg.size → s.waited x = true → s.InPhase x (s.call x) (s.phase x) ∧
    s.HasPut (s.call x) (s.phase x) x ∧
    s.pSync.status ⟨s.call x, s.phase x, cfg.nbr x (s.phase x)⟩ = .arrived
  entered : ∀ {c i x y}, x < cfg.size → y < cfg.size → cfg.IsCall c → i ≤ cfg.m →
    s.Reached c i x → y / 2 ^ i = x / 2 ^ i → c ≤ s.call y
  sync : Mailbox.Inv cfg.signalPlace (fun q => cfg.counter q.call) cfg.pSync
    (fun q => s.Retired q.call) s.pSync

theorem proto_init : (init cfg).Proto where
  phase_le hx := (step2Nphases_eq hx).le
  call_le _ := Nat.zero_le _
  start hx _ := step2Nphases_eq hx
  sent h := absurd rfl h
  posted h := by cases h
  signalled h := absurd rfl h
  fenced h := by cases h
  past _ hc _ h := by
    rcases h with h | ⟨rfl, -⟩
    · cases h
    · exact absurd hc.1 (Nat.lt_irrefl 0)
  waiting _ h := by cases h
  entered _ _ hc _ h _ := by
    rcases h with h | ⟨rfl, -⟩
    · cases h
    · exact Nat.zero_le _
  sync := ⟨fun h => (by cases h), fun _ => .inl rfl, fun h => (by cases h)⟩

namespace Proto

variable (h : s.Proto)
include h

theorem le_call_succ (hc : cfg.IsCall c) (hx : x < cfg.size) (hy : y < cfg.size)
    (hr : s.Reached c i x) : c ≤ s.call y + 1 := by
  rcases Nat.lt_or_ge 1 c with h1 | h1
  · have hlt : c - 1 < s.call x := by
      rcases hr with hr | ⟨hr, -⟩ <;> omega
    have := h.entered hx hy ⟨by omega, by have := hc.2; omega⟩ le_rfl (.inl hlt)
      ((Nat.div_eq_of_lt hy).trans (Nat.div_eq_of_lt hx).symm)
    omega
  · omega

theorem retired_of_reached (hc' : cfg.IsCall c') (hx : x < cfg.size) (hr : s.Reached c' i x)
    (hle : c + 2 ≤ c') : s.Retired c := by
  intro y hy
  have := h.le_call_succ hc' hx hy hr
  omega

theorem signal_arrived_of_retired (hq : cfg.ValidSignal q) (hret : s.Retired q.call) :
    s.pSync.status q = .arrived := by
  have hlt := nbr_lt hq.src_lt hq.phase_lt
  have := (h.past hlt hq.isCall hq.phase_lt (.inl (hret _ hlt))).2
  rwa [nbr_nbr hq.src_lt hq.phase_lt] at this

theorem arrived_of_retired (hp : cfg.Valid p) (hret : s.Retired p.call) :
    s.scratch.status p = .arrived := by
  have hput := h.fenced (h.signal_arrived_of_retired hp.validSignal hret) p.byte hp.byte_lt
  obtain ⟨c, i, x, k, b⟩ := p
  cases k with
  | false => exact hput
  | true =>
    have hcopy := (h.sent (show s.scratch.status ⟨c, i, x, false, b⟩ ≠ .idle by
      rw [hput]; simp)).2.2 rfl
    exact hcopy b hp.byte_lt

theorem arrived_of_counter (hin : s.InPhase pe c i)
    (hle : cfg.counter c ≤ s.pSync.mem (pe, cfg.counter c % 2, cfg.nbr pe i)) :
    s.pSync.status ⟨c, i, cfg.nbr pe i⟩ = .arrived := by
  have hv : cfg.ValidSignal ⟨c, i, cfg.nbr pe i⟩ := ⟨hin.2.1, hin.lt, nbr_lt hin.1 hin.lt⟩
  have hplace : cfg.signalPlace ⟨c, i, cfg.nbr pe i⟩ =
      (pe, cfg.counter c % 2, cfg.nbr pe i) := by
    rw [signalPlace, nbr_nbr hin.1 hin.lt]
  rw [← hplace] at hle
  refine (h.sync.arrived_of_accept (fun w => cfg.counter c ≤ w) hle ?_ ?_).1
  · exact Nat.not_le.mpr ((cfg.pSync_lt _).trans_le (Nat.le_add_right _ _))
  · intro r hr hsame hacc
    obtain ⟨hvr, hreach, -⟩ := h.signalled (show s.pSync.status r ≠ .idle by rw [hr]; simp)
    have hpos := hvr.isCall.1
    have hle : c ≤ r.call := by
      simp only [counter] at hacc
      omega
    rcases Nat.lt_or_eq_of_le hle with hlt | heq
    · have htwo := two_le_of_signalPlace hv hsame.symm hlt
      have := h.retired_of_reached hvr.isCall hvr.src_lt hreach htwo pe hin.1
      exact absurd hin.2.2.1 this.ne
    · exact eq_of_signalPlace hvr hv hsame heq.symm

theorem setScratch {b : Box Packet (ℕ × ℤ) Byte}
    (hnew : ∀ p, b.status p ≠ .idle → s.scratch.status p ≠ .idle ∨
      s.InPhase p.src p.call p.phase ∧ p.byte < (cfg.call p.call).nbytes ∧
        (p.isCopy = false → s.AllArrived p.call p.phase p.src true))
    (hidle : ∀ p, s.scratch.status p ≠ .idle → b.status p ≠ .idle)
    (harr : ∀ p, s.scratch.status p = .arrived → b.status p = .arrived)
    (hposted : ∀ p, b.status p = .posted → p.isCopy = false) :
    ({ s with scratch := b } : State cfg).Proto where
  phase_le := h.phase_le
  call_le := h.call_le
  start := h.start
  sent := by
    intro p hp
    rcases hnew p hp with hold | ⟨hin, hbyte, hcopy⟩
    · obtain ⟨hv, hr, hcopy⟩ := h.sent hold
      exact ⟨hv, hr, fun hk b hb => harr _ (hcopy hk b hb)⟩
    · exact ⟨⟨hin.2.1, hin.lt, hin.1, hbyte⟩, hin.reached, fun hk b hb => harr _ (hcopy hk b hb)⟩
  posted := fun {p} => hposted p
  signalled := by
    intro q hq
    obtain ⟨hv, hr, hput, hnot⟩ := h.signalled hq
    exact ⟨hv, hr, fun b hb => hidle _ (hput b hb), hnot⟩
  fenced := fun hq b hb => harr _ (h.fenced hq b hb)
  past := h.past
  waiting := by
    intro x hx hw
    obtain ⟨hin, hput, hsig⟩ := h.waiting hx hw
    exact ⟨hin, fun b hb => hidle _ (hput b hb), hsig⟩
  entered := h.entered
  sync := h.sync

theorem setStatus {st : Status Byte} (hp : s.scratch.status p ≠ .arrived) (hst : st ≠ .idle)
    (hnew : s.scratch.status p ≠ .idle ∨
      s.InPhase p.src p.call p.phase ∧ p.byte < (cfg.call p.call).nbytes ∧
        (p.isCopy = false → s.AllArrived p.call p.phase p.src true))
    (hposted : st = .posted → p.isCopy = false) :
    ({ s with scratch := s.scratch.setStatus p st } : State cfg).Proto := by
  refine h.setScratch (fun p' hp' => ?_) (fun p' hp' => ?_) (fun p' hp' => ?_) fun p' hp' => ?_
  all_goals rw [Box.status_setStatus] at *
  · split at hp'
    next heq => exact heq ▸ hnew
    next => exact .inl hp'
  · split
    next => exact hst
    next => exact hp'
  · have hne : p' ≠ p := fun heq => hp (heq ▸ hp')
    rw [if_neg hne]
    exact hp'
  · split at hp'
    next heq => exact heq ▸ hposted hp'
    next => exact h.posted hp'

theorem deliver (he : (s.scratch.status p).IsFlying) :
    ({ s with scratch := s.scratch.deliver p (cfg.place p) } : State cfg).Proto := by
  refine h.setScratch (fun p' hp' => .inl ?_) (fun p' hp' => ?_) (fun p' hp' => ?_) fun p' hp' => ?_
  all_goals rw [Box.status_deliver he] at *
  · split at hp'
    next heq =>
      obtain ⟨w, hw⟩ := Status.isFlying_iff.mp he
      rw [heq, hw]
      simp
    next => exact hp'
  · split
    next => simp
    next => exact hp'
  · rw [hp', ite_self]
  · split at hp'
    next => cases hp'
    next => exact h.posted hp'

theorem setSync {b : Box Signal (ℕ × ℕ × ℕ) ℕ}
    (hnew : ∀ q, b.status q ≠ .idle → s.pSync.status q ≠ .idle ∨
      s.InPhase q.src q.call q.phase ∧ s.HasPut q.call q.phase q.src)
    (hidle : ∀ q, s.pSync.status q ≠ .idle → b.status q ≠ .idle)
    (harr : ∀ q, s.pSync.status q = .arrived → b.status q = .arrived)
    (hposted : ∀ q, b.status q ≠ .posted)
    (hfenced : ∀ q, b.status q = .arrived →
      s.pSync.status q = .arrived ∨ s.AllArrived q.call q.phase q.src false)
    (hsync : Mailbox.Inv cfg.signalPlace (fun q => cfg.counter q.call) cfg.pSync
      (fun q => s.Retired q.call) b) :
    ({ s with pSync := b } : State cfg).Proto where
  phase_le := h.phase_le
  call_le := h.call_le
  start := h.start
  sent := h.sent
  posted := h.posted
  signalled := by
    intro q hq
    rcases hnew q hq with hold | ⟨hin, hput⟩
    · obtain ⟨hv, hr, hput, -⟩ := h.signalled hold
      exact ⟨hv, hr, hput, hposted q⟩
    · exact ⟨hin.validSignal, hin.reached, hput, hposted q⟩
  fenced := fun {q} hq => (hfenced q hq).elim h.fenced id
  past := by
    intro c i x hx hc hi hpast
    exact (h.past hx hc hi hpast).imp (hidle _) (harr _)
  waiting := by
    intro x hx hw
    obtain ⟨hin, hput, hsig⟩ := h.waiting hx hw
    exact ⟨hin, hput, harr _ hsig⟩
  entered := h.entered
  sync := hsync

theorem signal (he : s.Enabled (.signal q)) : (s.effect (.signal q)).Proto := by
  obtain ⟨hin, hput, hst⟩ := he
  have hnarr : s.pSync.status q ≠ .arrived := by simp [hst]
  refine h.setSync (fun q' hq' => ?_) (fun q' hq' => ?_) (fun q' hq' => ?_) (fun q' hq' => ?_)
    (fun q' hq' => .inl ?_) (h.sync.setStatus hnarr (by simp) (by simp))
  all_goals rw [Box.status_setStatus] at *
  · split at hq'
    next heq => exact .inr (heq ▸ ⟨hin, hput⟩)
    next => exact .inl hq'
  · split
    next => simp
    next => exact hq'
  · have hne : q' ≠ q := fun heq => hnarr (heq ▸ hq')
    rw [if_neg hne]
    exact hq'
  · split at hq'
    next => cases hq'
    next => exact (h.signalled (by rw [hq']; simp)).2.2.2 hq'
  · split at hq'
    next => cases hq'
    next => exact hq'

theorem deliverSignal (he : s.Enabled (.deliverSignal q)) :
    (s.effect (.deliverSignal q)).Proto := by
  obtain ⟨hfly, hputs⟩ := he
  obtain ⟨w, hw⟩ := Status.isFlying_iff.mp hfly
  obtain ⟨hv, hreach, -, -⟩ := h.signalled (show s.pSync.status q ≠ .idle by rw [hw]; simp)
  have hclash : ∀ r, r ≠ q → cfg.signalPlace r = cfg.signalPlace q →
      s.pSync.status r = .arrived → s.Retired r.call := by
    intro r hne hplace harr
    obtain ⟨hvr, hreachr, -⟩ := h.signalled (show s.pSync.status r ≠ .idle by rw [harr]; simp)
    rcases Nat.lt_trichotomy r.call q.call with hlt | heq | hlt
    · exact h.retired_of_reached hv.isCall hv.src_lt hreach
        (two_le_of_signalPlace hvr hplace hlt)
    · exact absurd (eq_of_signalPlace hvr hv hplace heq) hne
    · have hret := h.retired_of_reached hvr.isCall hvr.src_lt hreachr
        (two_le_of_signalPlace hv hplace.symm hlt)
      have := h.signal_arrived_of_retired hv hret
      rw [hw] at this
      cases this
  refine h.setSync (fun q' hq' => .inl ?_) (fun q' hq' => ?_) (fun q' hq' => ?_)
    (fun q' hq' => ?_) (fun q' hq' => ?_) (h.sync.deliver hfly hclash)
  all_goals rw [Box.status_deliver hfly] at *
  · split at hq'
    next heq =>
      rw [heq, hw]
      simp
    next => exact hq'
  · split
    next => simp
    next => exact hq'
  · rw [hq', ite_self]
  · split at hq'
    next => cases hq'
    next => exact (h.signalled (by rw [hq']; simp)).2.2.2 hq'
  · split at hq'
    next heq => exact .inr (heq ▸ hputs)
    next => exact .inl hq'

theorem wait (he : s.Enabled (.wait pe)) : (s.effect (.wait pe)).Proto := by
  obtain ⟨hin, hput, -, hle⟩ := he
  have hwaited : ∀ x, (s.effect (.wait pe)).waited x = if x = pe then true else s.waited x :=
    fun x => update_apply ..
  refine { h with waiting := ?_ }
  intro x hx hw
  by_cases hxp : x = pe
  · subst hxp
    exact ⟨hin, hput, h.arrived_of_counter hin hle⟩
  · rw [hwaited, if_neg hxp] at hw
    exact h.waiting hx hw

theorem advance (hcall : ∀ x, s.call x ≤ t.call x) (hscratch : t.scratch = s.scratch)
    (hpSync : t.pSync = s.pSync)
    (hphase : ∀ x < cfg.size, t.phase x ≤ cfg.m) (hle : ∀ x < cfg.size,
      t.call x ≤ cfg.calls.length + 1)
    (hstart : ∀ x < cfg.size, t.call x = 0 → t.phase x = cfg.m)
    (hmono : ∀ {c i x}, s.Reached c i x → t.Reached c i x)
    (hreached : ∀ {c i x}, x < cfg.size → i ≤ cfg.m → t.Reached c i x →
      s.Reached c i x ∨ ∀ y < cfg.size, y / 2 ^ i = x / 2 ^ i → c ≤ t.call y)
    (hpast : ∀ {c i x}, x < cfg.size → i < cfg.m → t.Past c i x → s.Past c i x ∨
      s.pSync.status ⟨c, i, x⟩ ≠ .idle ∧ s.pSync.status ⟨c, i, cfg.nbr x i⟩ = .arrived)
    (hwaited : ∀ x < cfg.size, t.waited x = true →
      s.waited x = true ∧ t.call x = s.call x ∧ t.phase x = s.phase x) : t.Proto where
  phase_le := hphase _
  call_le := hle _
  start := hstart _
  sent := by
    intro p hp
    rw [hscratch] at hp
    obtain ⟨hv, hr, hcopy⟩ := h.sent hp
    refine ⟨hv, hmono hr, fun hk b hb => ?_⟩
    rw [hscratch]
    exact hcopy hk b hb
  posted := by
    rw [hscratch]
    exact h.posted
  signalled := by
    intro q hq
    rw [hpSync] at hq ⊢
    obtain ⟨hv, hr, hput, hnot⟩ := h.signalled hq
    refine ⟨hv, hmono hr, fun b hb => ?_, hnot⟩
    rw [hscratch]
    exact hput b hb
  fenced := by
    intro q hq b hb
    rw [hpSync] at hq
    rw [hscratch]
    exact h.fenced hq b hb
  past := by
    intro c i x hx hc hi hp
    rw [hpSync]
    exact (hpast hx hi hp).elim (h.past hx hc hi) id
  waiting := by
    intro x hx hw
    obtain ⟨hold, hc, hp⟩ := hwaited x hx hw
    obtain ⟨hin, hput, hsig⟩ := h.waiting hx hold
    rw [hpSync, hc, hp]
    refine ⟨⟨hin.1, hin.2.1, hc.symm, hp.symm, hin.2.2.2.2⟩, fun b hb => ?_, hsig⟩
    rw [hscratch]
    exact hput b hb
  entered := by
    intro c i x y hx hy hc hi hr hdiv
    rcases hreached hx hi hr with hold | hnew
    · exact (h.entered hx hy hc hi hold hdiv).trans (hcall y)
    · exact hnew y hy hdiv
  sync := by
    rw [hpSync]
    exact h.sync.mono fun q hret y hy => (hret y hy).trans_le (hcall y)

theorem nextPhase (he : s.Enabled (.nextPhase pe)) : (s.effect (.nextPhase pe)).Proto := by
  obtain ⟨hpe, hw, -, hown⟩ := he
  obtain ⟨hin, -, hsig⟩ := h.waiting hpe hw
  have hlt := hin.lt
  have hphase : ∀ x, (s.effect (.nextPhase pe)).phase x =
      if x = pe then s.phase pe + 1 else s.phase x := fun x => update_apply ..
  have hwaited : ∀ x, (s.effect (.nextPhase pe)).waited x =
      if x = pe then false else s.waited x := fun x => update_apply ..
  refine h.advance (fun _ => le_rfl) rfl rfl (fun x hx => ?_) (fun _ => h.call_le)
    (fun x hx hc => ?_) (fun {c i x} hr => ?_) (fun {c i x} hx hi hr => ?_)
    (fun {c i x} hx hi hp => ?_)
    fun x hx hwx => ?_
  · rw [hphase]
    split
    next => omega
    next => exact h.phase_le hx
  · rw [hphase, if_neg]
    · exact h.start hx hc
    · rintro rfl
      exact absurd (h.start hx hc) hlt.ne
  · refine hr.imp_right (And.imp_right fun hle => ?_)
    rw [hphase]
    split
    next heq =>
      rw [heq] at hle
      omega
    next => exact hle
  · rcases hr with hr | ⟨hc, hle⟩
    · exact .inl (.inl hr)
    · rw [hphase] at hle
      split at hle
      next heq =>
        subst heq
        rcases Nat.lt_or_eq_of_le hle with hold | rfl
        · exact .inl (.inr ⟨hc, Nat.lt_succ_iff.mp hold⟩)
        · refine .inr fun y hy hdiv => ?_
          have hcall : cfg.IsCall c := hc ▸ hin.2.1
          rcases div_eq_or_nbr hx hlt hdiv with hdiv | hdiv
          · exact h.entered hx hy hcall hlt.le (.inr ⟨hc, le_rfl⟩) hdiv
          · have hr := (h.signalled (show s.pSync.status _ ≠ .idle by rw [hsig]; simp)).2.1
            exact h.entered (nbr_lt hx hlt) hy hcall hlt.le (hc ▸ hr) hdiv
      next => exact .inl (.inr ⟨hc, hle⟩)
  · rcases hp with hp | ⟨hc, hi'⟩
    · exact .inl (.inl hp)
    · rw [hphase] at hi'
      split at hi'
      next heq =>
        subst heq
        rcases Nat.lt_or_eq_of_le (Nat.lt_succ_iff.mp hi') with hold | rfl
        · exact .inl (.inr ⟨hc, hold⟩)
        · obtain rfl : c = s.call x := hc
          exact .inr ⟨hown, hsig⟩
      next => exact .inl (.inr ⟨hc, hi'⟩)
  · rw [hwaited] at hwx
    split at hwx
    next => cases hwx
    next hne =>
      rw [hphase, if_neg hne]
      exact ⟨hwx, rfl, rfl⟩

theorem next (he : s.Enabled (.next pe)) : (s.effect (.next pe)).Proto := by
  obtain ⟨hpe, hend, hle⟩ := he
  rw [step2Nphases_eq hpe] at hend
  have hphase : ∀ x, (s.effect (.next pe)).phase x = if x = pe then 0 else s.phase x :=
    fun x => update_apply ..
  have hcall : ∀ x, (s.effect (.next pe)).call x =
      if x = pe then s.call pe + 1 else s.call x := fun x => update_apply ..
  have hmono : ∀ x, s.call x ≤ (s.effect (.next pe)).call x := by
    intro x
    rw [hcall]
    split
    next heq =>
      rw [heq]
      omega
    next => exact le_rfl
  refine h.advance hmono rfl rfl (fun x hx => ?_) (fun x hx => ?_) (fun x hx hc => ?_)
    (fun {c i x} hr => ?_) (fun {c i x} hx hi hr => ?_) (fun {c i x} hx hi hp => ?_)
    fun x hx hwx => ?_
  · rw [hphase]
    split
    next => exact Nat.zero_le _
    next => exact h.phase_le hx
  · rw [hcall]
    split
    next => omega
    next => exact h.call_le hx
  · rw [hcall] at hc
    split at hc
    next => omega
    next hne =>
      rw [hphase, if_neg hne]
      exact h.start hx hc
  · rw [Reached, hcall, hphase]
    rcases hr with hr | ⟨hc, hi⟩
    · exact .inl (hr.trans_le (hcall x ▸ hmono x))
    · split
      next heq =>
        rw [heq] at hc
        exact .inl (by omega)
      next => exact .inr ⟨hc, hi⟩
  · rw [Reached, hcall, hphase] at hr
    split at hr
    next heq =>
      subst heq
      rcases hr with hr | ⟨rfl, hi0⟩
      · rcases Nat.lt_or_eq_of_le (Nat.lt_succ_iff.mp hr) with hlt | heq
        · exact .inl (.inl hlt)
        · exact .inl (.inr ⟨heq, hend ▸ hi⟩)
      · refine .inr fun y hy hdiv => ?_
        rw [Nat.le_zero.mp hi0, pow_zero, Nat.div_one, Nat.div_one] at hdiv
        rw [hdiv, hcall, if_pos rfl]
    next => exact .inl hr
  · rw [Past, hcall, hphase] at hp
    split at hp
    next heq =>
      subst heq
      rcases hp with hp | ⟨-, hi0⟩
      · rcases Nat.lt_or_eq_of_le (Nat.lt_succ_iff.mp hp) with hlt | heq
        · exact .inl (.inl hlt)
        · exact .inl (.inr ⟨heq, hend ▸ hi⟩)
      · cases hi0
    next => exact .inl hp
  · have hne : x ≠ pe := by
      rintro rfl
      exact absurd (h.waiting hx hwx).1.lt (by omega)
    rw [hphase, hcall, if_neg hne, if_neg hne]
    exact ⟨hwx, rfl, rfl⟩

theorem step {a : Action} (hs : State.step cfg s a = some t) : t.Proto := by
  obtain ⟨he, rfl⟩ := step_eq_some.mp hs
  cases a with
  | copy p =>
    obtain ⟨hin, hk, hb, hst⟩ := he
    exact h.setStatus (by simp [hst]) (by simp)
      (.inr ⟨hin, hb, fun hf => absurd (hk.symm.trans hf) (by simp)⟩) (by simp)
  | put p =>
    obtain ⟨hin, hk, hb, hst, hcopy⟩ := he
    exact h.setStatus (by simp [hst]) (by simp) (.inr ⟨hin, hb, fun _ => hcopy⟩) fun _ => hk
  | fetch p =>
    have hst : s.scratch.status p = .posted := he
    exact h.setStatus (by simp [hst]) (by simp) (.inl (by simp [hst])) (by simp)
  | deliver p => exact h.deliver he
  | signal q => exact h.signal he
  | deliverSignal q => exact h.deliverSignal he
  | wait pe => exact h.wait he
  | reduce pe e => exact { h with }
  | nextPhase pe => exact h.nextPhase he
  | next pe => exact h.next he

end Proto

end State

end Nvshmem.Allreduce
