import Nvshmem.Coll.AllreduceInvariant

/-! # Results of the allreduces

If the offsets of all slots fit an `int`, the packets carry what the exchange gives to their senders
in their phases, and every PE combines it with the same for its neighbour.
-/

namespace Nvshmem.Allreduce

open Transition Mailbox Config Function

namespace State

variable {cfg : Config} {s t : State cfg} {p : Packet} {c i x pe e : ℕ}

structure Values (s : State cfg) : Prop where
  box : Mailbox.Inv cfg.place (fun p => cfg.part p.call p.phase p.src p.byte) cfg.scratch
    (fun p => s.Retired p.call) s.scratch
  clean : ∀ {x}, x < cfg.size → s.waited x = false → ∀ e, s.reduced x e = false
  current : ∀ {x}, x < cfg.size → cfg.IsCall (s.call x) → ∀ b < (cfg.call (s.call x)).nbytes,
    s.dst (s.call x) x b = cfg.part (s.call x)
      (s.phase x + if s.reduced x (b / (cfg.call (s.call x)).sizeofT) then 1 else 0) x b
  done : ∀ {c x}, x < cfg.size → c < s.call x → cfg.IsCall c → ∀ b < (cfg.call c).nbytes,
    s.dst c x b = cfg.part c cfg.m x b

theorem values_init : (init cfg).Values where
  box := ⟨fun h => (by cases h), fun _ => .inl rfl, fun h => (by cases h)⟩
  clean _ _ _ := rfl
  current _ hc := absurd hc.1 (Nat.lt_irrefl 0)
  done _ hlt := by cases hlt

namespace Values

variable (v : s.Values) (h : s.Proto)
include v

theorem dst_of_not_waited (hx : x < cfg.size) (hw : s.waited x = false)
    (hc : cfg.IsCall (s.call x)) {b : ℕ} (hb : b < (cfg.call (s.call x)).nbytes) :
    s.dst (s.call x) x b = cfg.part (s.call x) (s.phase x) x b := by
  rw [v.current hx hc b hb, v.clean hx hw]
  rfl

include h

theorem copy (he : s.Enabled (.copy p)) : (s.effect (.copy p)).Values := by
  obtain ⟨hin, hk, hb, hst⟩ := he
  obtain ⟨hx, hc, hcall, hphase, -⟩ := hin
  have hw : s.waited p.src = false := by
    refine Bool.eq_false_of_not_eq_true fun hw => ?_
    have hput := (h.waiting hx hw).2.1
    rw [← hcall, ← hphase] at hput
    have harr := (h.sent (hput p.byte hb)).2.2 rfl p.byte hb
    obtain ⟨c, i, x, k, b⟩ := p
    obtain rfl : k = true := hk
    exact absurd (hst.symm.trans harr) (by simp)
  refine { v with box := v.box.setStatus (by simp [hst]) (by simp) fun w hfly => ?_ }
  rw [← Status.flying.inj hfly, hcall, hphase]
  exact v.dst_of_not_waited hx hw (hcall ▸ hc) (hcall ▸ hb)

theorem fetch (he : s.Enabled (.fetch p)) : (s.effect (.fetch p)).Values := by
  have hst : s.scratch.status p = .posted := he
  have hne : s.scratch.status p ≠ .idle := by simp [hst]
  obtain ⟨hv, -, hcopy⟩ := h.sent hne
  have hret : ¬ s.Retired p.call := fun hret => by
    rw [h.arrived_of_retired hv hret] at hst
    cases hst
  have hmem := v.box.kept (hcopy (h.posted hst) p.byte hv.byte_lt) hret
  refine { v with box := v.box.setStatus (by simp [hst]) (by simp) fun w hfly => ?_ }
  rw [← Status.flying.inj hfly]
  exact hmem

theorem deliver (he : s.Enabled (.deliver p)) : (s.effect (.deliver p)).Values := by
  obtain ⟨w, hw⟩ := Status.isFlying_iff.mp he
  obtain ⟨hv, hreach, -⟩ := h.sent (show s.scratch.status p ≠ .idle by rw [hw]; simp)
  refine { v with box := v.box.deliver he fun r hne hplace harr => ?_ }
  obtain ⟨hvr, hreachr, -⟩ := h.sent (show s.scratch.status r ≠ .idle by rw [harr]; simp)
  rcases Nat.lt_trichotomy r.call p.call with hlt | heq | hlt
  · exact h.retired_of_reached hv.isCall hv.src_lt hreach (two_le_of_place hvr hv hplace hlt)
  · exact absurd (eq_of_place hvr hv hplace heq) hne
  · have hret := h.retired_of_reached hvr.isCall hvr.src_lt hreachr
      (two_le_of_place hv hvr hplace.symm hlt)
    have := h.arrived_of_retired hv hret
    rw [hw] at this
    cases this

variable (hn : cfg.Narrow)
include hn

theorem slot_of_waited (hx : x < cfg.size) (hw : s.waited x = true) {b : ℕ}
    (hb : b < (cfg.call (s.call x)).nbytes) :
    s.slot x (s.call x) (s.phase x) b =
      cfg.part (s.call x) (s.phase x) (cfg.nbr x (s.phase x)) b := by
  obtain ⟨hin, -, hsig⟩ := h.waiting hx hw
  have hslot := slot_eq (b := b) (s := s) hn hin.2.1 hin.lt (nbr_lt hx hin.lt)
  rw [nbr_nbr hx hin.lt] at hslot
  rw [hslot]
  exact v.box.kept (h.fenced hsig b hb) fun hret => Nat.lt_irrefl _ (hret x hx)

theorem reduce (he : s.Enabled (.reduce pe e)) : (s.effect (.reduce pe e)).Values := by
  obtain ⟨hpe, hw, -, hnot⟩ := he
  have hdst : ∀ c x, (s.effect (.reduce pe e)).dst c x =
      if c = s.call pe ∧ x = pe then s.reduceElem pe e else s.dst c x := fun _ _ => rfl
  have hred : ∀ x e', (s.effect (.reduce pe e)).reduced x e' =
      if x = pe ∧ e' = e then true else s.reduced x e' := fun _ _ => rfl
  refine { v with clean := ?_, current := ?_, done := ?_ }
  · intro x hx hwx e'
    have hne : ¬ (x = pe ∧ e' = e) := by
      rintro ⟨rfl, -⟩
      exact absurd (hwx.symm.trans hw) (by simp)
    rw [hred, if_neg hne]
    exact v.clean hx hwx e'
  · intro x hx hc b hb
    change _ = cfg.part (s.call x) (s.phase x + if (s.effect (.reduce pe e)).reduced x
      (b / (cfg.call (s.call x)).sizeofT) then 1 else 0) x b
    by_cases hand : x = pe ∧ b / (cfg.call (s.call x)).sizeofT = e
    · rw [hred, if_pos hand]
      obtain ⟨rfl, hbe⟩ := hand
      have hlt : ∀ b', b' / (cfg.call (s.call x)).sizeofT = b / (cfg.call (s.call x)).sizeofT →
          b' < (cfg.call (s.call x)).nbytes := by
        intro b' hb'
        rw [Call.lt_nbytes_iff, hb', ← Call.lt_nbytes_iff]
        exact hb
      have hself : (s.effect (.reduce x e)).dst (s.call x) x = s.reduceElem x e := by
        rw [hdst, if_pos ⟨rfl, rfl⟩]
      change (s.effect (.reduce x e)).dst (s.call x) x b = _
      rw [hself, reduceElem, if_pos hbe]
      refine Call.linearReduce_congr (fun b' hb' => ?_) fun b' hb' => ?_
      · -- The bytes of the element have not been combined yet.
        rw [v.current hx hc b' (hlt b' hb'), hb', hbe, hnot]
        rfl
      · exact v.slot_of_waited h hn hx hw (hlt b' hb')
    · have hsame : (s.effect (.reduce pe e)).dst (s.call x) x b = s.dst (s.call x) x b := by
        rw [hdst]
        split
        next heq =>
          obtain ⟨-, rfl⟩ := heq
          rw [reduceElem, if_neg fun hbe => hand ⟨rfl, hbe⟩]
        next => rfl
      rw [hred, if_neg hand]
      exact hsame.trans (v.current hx hc b hb)
  · intro c x hx hlt hc b hb
    have hne : ¬ (c = s.call pe ∧ x = pe) := by
      rintro ⟨rfl, rfl⟩
      exact Nat.lt_irrefl _ hlt
    rw [hdst, if_neg hne]
    exact v.done hx hlt hc b hb

theorem nextPhase (he : s.Enabled (.nextPhase pe)) : (s.effect (.nextPhase pe)).Values := by
  obtain ⟨hpe, hw, hall, -⟩ := he
  have hin := (h.waiting hpe hw).1
  have hphase : ∀ x, (s.effect (.nextPhase pe)).phase x =
      if x = pe then s.phase pe + 1 else s.phase x := fun x => update_apply ..
  have hwaited : ∀ x, (s.effect (.nextPhase pe)).waited x =
      if x = pe then false else s.waited x := fun x => update_apply ..
  have hred : ∀ x, (s.effect (.nextPhase pe)).reduced x =
      if x = pe then fun _ => false else s.reduced x := fun x => update_apply ..
  refine { v with clean := ?_, current := ?_ }
  · intro x hx hwx e'
    rw [hwaited] at hwx
    rw [hred]
    split at hwx
    next heq => rw [if_pos heq]
    next hne =>
      rw [if_neg hne]
      exact v.clean hx hwx e'
  · intro x hx hc b hb
    rw [hphase, hred]
    by_cases hxp : x = pe
    · subst hxp
      have helem : b / (cfg.call (s.call x)).sizeofT < (cfg.call (s.call x)).reduceCount := by
        rw [reduceCount_eq hn hin.2.1 hin.lt]
        exact Call.lt_nbytes_iff.mp hb
      rw [if_pos rfl, if_pos rfl]
      refine (v.current hx hc b hb).trans ?_
      rw [hall _ helem]
      rfl
    · rw [if_neg hxp, if_neg hxp]
      exact v.current hx hc b hb

omit hn in
theorem next (he : s.Enabled (.next pe)) : (s.effect (.next pe)).Values := by
  obtain ⟨hpe, hend, -⟩ := he
  rw [step2Nphases_eq hpe] at hend
  have hw : s.waited pe = false :=
    Bool.eq_false_of_not_eq_true fun hw => absurd (h.waiting hpe hw).1.lt (by omega)
  have hphase : ∀ x, (s.effect (.next pe)).phase x = if x = pe then 0 else s.phase x :=
    fun x => update_apply ..
  have hcall : ∀ x, (s.effect (.next pe)).call x =
      if x = pe then s.call pe + 1 else s.call x := fun x => update_apply ..
  have hdst : ∀ c x, (s.effect (.next pe)).dst c x =
      if c = s.call pe + 1 ∧ x = pe then (cfg.call (s.call pe + 1)).source pe else s.dst c x :=
    fun _ _ => rfl
  refine ⟨v.box.mono fun p hret y hy => ?_, v.clean, ?_, ?_⟩
  · rw [hcall]
    have := hret y hy
    split
    next heq =>
      rw [heq] at this
      omega
    next => exact this
  · intro x hx hc b hb
    rw [hcall] at hc hb ⊢
    rw [hphase, hdst]
    by_cases hxp : x = pe
    · subst hxp
      rw [if_pos rfl, if_pos rfl, if_pos ⟨rfl, rfl⟩]
      show _ = cfg.part (s.call x + 1) (0 + if s.reduced x _ = true then 1 else 0) x b
      rw [v.clean hx hw]
      rfl
    · rw [if_neg hxp] at hc hb
      rw [if_neg hxp, if_neg hxp, if_neg fun hand => hxp hand.2]
      exact v.current hx hc b hb
  · intro c x hx hlt hc b hb
    rw [hcall] at hlt
    by_cases hxp : x = pe
    · subst hxp
      rw [if_pos rfl] at hlt
      rw [hdst, if_neg fun hand => hlt.ne hand.1]
      rcases Nat.lt_or_eq_of_le (Nat.lt_succ_iff.mp hlt) with hold | rfl
      · exact v.done hx hold hc b hb
      · rw [v.dst_of_not_waited hx hw hc hb, hend]
    · rw [if_neg hxp] at hlt
      rw [hdst, if_neg fun hand => hxp hand.2]
      exact v.done hx hlt hc b hb

theorem step {a : Action} (hs : State.step cfg s a = some t) : t.Values := by
  obtain ⟨he, rfl⟩ := step_eq_some.mp hs
  cases a with
  | copy p => exact v.copy h he
  | put p =>
    obtain ⟨-, -, -, hst, -⟩ := he
    exact { v with box := v.box.setStatus (by simp [hst]) (by simp) (by simp) }
  | fetch p => exact v.fetch h he
  | deliver p => exact v.deliver h he
  | signal q => exact { v with }
  | deliverSignal q => exact { v with }
  | wait pe =>
    refine { v with clean := fun {x} hx hwx => v.clean hx ?_ }
    simp only [effect, update_apply] at hwx
    split at hwx
    next => cases hwx
    next => exact hwx
  | reduce pe e => exact v.reduce h hn he
  | nextPhase pe => exact v.nextPhase h hn he
  | next pe => exact v.next h he

theorem correct : s.Correct where
  complete x hx c hlt hc b hb := by rw [v.done hx hlt hc b hb, part_eq_combine hx]
  unread p hk harr hpast := by
    obtain ⟨hv, -, -⟩ := h.sent (show s.scratch.status p ≠ .idle by rw [harr]; simp)
    have hret : ¬ s.Retired p.call := fun hret =>
      hpast (.inl (hret _ (nbr_lt hv.src_lt hv.phase_lt)))
    rw [slot_eq hn hv.isCall hv.phase_lt hv.src_lt]
    obtain ⟨c, i, x, k, b⟩ := p
    obtain rfl : k = false := hk
    exact v.box.kept harr hret
  unsent p _ harr hnot := by
    obtain ⟨hv, -, -⟩ := h.sent (show s.scratch.status p.copy ≠ .idle by rw [harr]; simp)
    have hvp : cfg.Valid p := ⟨hv.isCall, hv.phase_lt, hv.src_lt, hv.byte_lt⟩
    exact v.box.kept harr fun hret => hnot (h.arrived_of_retired hvp hret)

end Values

end State

end Nvshmem.Allreduce
