import Nvshmem.Coll.FcollectLLInvariant

/-! # Low-latency collects end

Every step brings the words and the PEs closer to the end. As long as some PE has not
returned from its last call, the one that is furthest behind can go on: all have sent it the
words of its call, and the words that it has not read are still there.
-/

namespace Nvshmem.FcollectLL

open Transition Mailbox Finset Function

namespace Config

variable {cfg : Config} {p : Packet cfg.size}

def packets (cfg : Config) : Finset (Packet cfg.size) :=
  (Finset.range (cfg.calls.length + 1) ×ˢ Finset.univ ×ˢ Finset.univ ×ˢ
    Finset.range (cfg.fcollectLlThreshold + 1)).image fun z => ⟨z.1, z.2.1, z.2.2.1, z.2.2.2⟩

theorem Valid.mem_packets (h : cfg.Valid p) : p ∈ cfg.packets := by
  obtain ⟨c, -, hlt⟩ := h.exists_call
  have hle : c.numSubelems ≤ cfg.fcollectLlThreshold := (Nat.div_le_self _ _).trans c.fits
  have hcall := h.call_le
  refine mem_image.mpr ⟨(p.call, p.src, p.dst, p.idx), ?_, rfl⟩
  simp only [mem_product, mem_range, mem_univ, true_and]
  exact ⟨by omega, by omega⟩

end Config

namespace State

variable {cfg : Config} {s t : State cfg} {a : Action cfg} {p q : Packet cfg.size}

section Progress

def cost (s : State cfg) (p : Packet cfg.size) : ℕ :=
  (s.box.status p).remaining + (s.dest p).elim 1 fun _ => 0

def measure (s : State cfg) : ℕ :=
  ∑ p ∈ cfg.packets, s.cost p + ∑ pe, (cfg.calls.length + 1 - s.fcollectCount pe)

theorem measure_lt_of_cost (hvalid : cfg.Valid p) (hcount : t.fcollectCount = s.fcollectCount)
    (hne : ∀ q, q ≠ p → t.cost q = s.cost q) (hlt : t.cost p < s.cost p) :
    t.measure < s.measure := by
  have hle : ∀ q ∈ cfg.packets, t.cost q ≤ s.cost q := by
    intro q _
    by_cases hq : q = p
    · exact hq ▸ hlt.le
    · exact (hne q hq).le
  unfold measure
  rw [hcount]
  exact Nat.add_lt_add_right (sum_lt_sum hle ⟨p, hvalid.mem_packets, hlt⟩) _

theorem cost_lt_of_status (hdest : t.dest = s.dest)
    (h : (t.box.status p).remaining < (s.box.status p).remaining) : t.cost p < s.cost p := by
  unfold cost
  rw [hdest]
  exact Nat.add_lt_add_right h _

theorem cost_eq_of_status (hdest : t.dest = s.dest) (h : t.box.status q = s.box.status q) :
    t.cost q = s.cost q := by
  unfold cost
  rw [hdest, h]

theorem Inv.measure_lt (hi : s.Inv) (h : State.step cfg s a = some t) : t.measure < s.measure := by
  obtain ⟨he, rfl⟩ := step_eq_some.mp h
  cases a with
  | store p =>
    obtain ⟨-, hvalid, hidle⟩ := he
    refine measure_lt_of_cost hvalid rfl
      (fun q hq => cost_eq_of_status rfl (update_of_ne hq ..)) (cost_lt_of_status rfl ?_)
    simp only [effect, Box.status_setStatus, if_true, hidle]
    split <;> simp [Status.remaining]
  | fetch p =>
    have hposted : s.box.status p = .posted := he
    refine measure_lt_of_cost (hi.sent_le (p := p) (by simp [hposted])).1 rfl
      (fun q hq => cost_eq_of_status rfl (update_of_ne hq ..)) (cost_lt_of_status rfl ?_)
    simp [effect, Box.fetch, hposted, Status.remaining]
  | deliver p =>
    obtain ⟨w, hw⟩ := Status.isFlying_iff.mp he
    refine measure_lt_of_cost (hi.sent_le (p := p) (by simp [hw])).1 rfl
      (fun q hq => cost_eq_of_status rfl ?_) (cost_lt_of_status rfl ?_)
    · exact (Box.status_deliver he).trans (if_neg hq)
    · simp [effect, Box.status_deliver he, hw, Status.remaining]
  | recv p =>
    obtain ⟨-, hvalid, hnone, -⟩ := he
    refine measure_lt_of_cost hvalid rfl (fun q hq => ?_) ?_
    · simp [cost, effect, update_of_ne hq]
    · simp [cost, effect, hnone]
  | next pe =>
    refine Nat.add_lt_add_left (sum_lt_sum (fun i _ => ?_) ⟨pe, mem_univ _, ?_⟩) _
    · by_cases hpe : i = pe
      · subst hpe
        simp only [effect, update_self]
        omega
      · simp [effect, update_of_ne hpe]
    · have hle := he.1
      simp only [effect, update_self]
      omega

def Quiet (s : State cfg) : Prop := ∀ a, s.PutsPacked a → ¬ s.Enabled a

theorem Quiet.arrived_of_sent (hq : s.Quiet) (h : s.box.status p ≠ .idle) :
    s.box.status p = .arrived := by
  cases hst : s.box.status p with
  | idle => exact absurd hst h
  | posted => exact absurd hst (hq (.fetch p) trivial)
  | flying w => exact absurd (Status.isFlying_iff.mpr ⟨w, hst⟩) (hq (.deliver p) trivial)
  | arrived => rfl

variable (hi : s.Inv) (hq : s.Quiet)
include hi hq

theorem Inv.arrived_of_le (hvalid : cfg.Valid p) (hle : p.call ≤ s.fcollectCount p.src) :
    s.box.status p = .arrived := by
  have hown : ∀ {q}, cfg.Valid q → q.call = s.fcollectCount q.src → s.PutsPacked (.store q) →
      s.box.status q = .arrived := by
    intro q hqv hcall hok
    refine hq.arrived_of_sent fun hidle => ?_
    exact hq (.store q) hok ⟨hcall, hqv, hidle⟩
  rcases Nat.lt_or_eq_of_le hle with hlt | heq
  · exact hq.arrived_of_sent (hi.sent hvalid hlt)
  · have hpacked : s.box.status p.own = .arrived :=
      hown (q := p.own) hvalid heq (.inl (cfg.direct_self _))
    exact hown hvalid heq (.inr hpacked)

theorem Inv.finished_of_quiet : s.Finished := by
  by_contra hnot
  unfold Finished at hnot
  push Not at hnot
  obtain ⟨pe₀, hpe₀⟩ := hnot
  have : Nonempty (Fin cfg.size) := ⟨pe₀⟩
  obtain ⟨pe, hmin⟩ := Finite.exists_min s.fcollectCount
  have hle : s.fcollectCount pe ≤ cfg.calls.length := by
    have := hi.count_le pe₀
    have := hmin pe₀
    omega
  refine hq (.next pe) trivial ⟨hle, fun i j hj => ⟨?_, fun hnone => ?_⟩⟩
  · have harr : s.box.status ⟨s.fcollectCount pe, pe, i, j⟩ = .arrived :=
      hi.arrived_of_le hq hj le_rfl
    simp [harr]
  · have harr : s.box.status ⟨s.fcollectCount pe, i, pe, j⟩ = .arrived :=
      hi.arrived_of_le hq hj (hmin i)
    have hmem := hi.correct.unread _ harr hnone
    exact hq (.recv ⟨s.fcollectCount pe, i, pe, j⟩) trivial
      ⟨rfl, hj, hnone, congrArg Word.flag hmem⟩

end Progress

/-- If calls with data alternate between the halves of the psync area and puts are posted for
packed words only, all PEs get the blocks that were passed to the same call, and all calls
end. -/
theorem correct_of_reachable (cfg : Config) (halt : cfg.Alternating) (s : State cfg)
    (h : Reachable (restrict PutsPacked (step cfg)) (init cfg) s) :
    s.Correct ∧ Inevitable (fun _ => True) (restrict PutsPacked (step cfg)) Finished s := by
  have hnext : ∀ {s a t}, Inv s → restrict PutsPacked (step cfg) s a = some t → Inv t := by
    intro s a t hi hs
    obtain ⟨ok, hs⟩ := restrict_eq_some.mp hs
    exact hi.step halt ok hs
  have hi : s.Inv := h.invariant Inv.init hnext
  refine ⟨hi.correct, Inevitable.of_measure measure hnext ?_ ?_ hi⟩
  · intro s a t hi _ hs
    exact hi.measure_lt (restrict_eq_some.mp hs).2
  · intro s hi hnot
    by_contra hnone
    refine hnot (hi.finished_of_quiet fun a ok he => hnone ?_)
    exact ⟨a, s.effect a, trivial, restrict_eq_some.mpr ⟨ok, step_eq_some.mpr ⟨he, rfl⟩⟩⟩

def twoPes : Config where
  size := 2
  fcollectLlThreshold := 2048
  calls := [⟨4, 2, fun pe j => .ofNat 32 (pe + j), .inl rfl, rfl, by decide⟩,
    ⟨8, 2, fun pe j => .ofNat 32 (pe * j), .inr rfl, rfl, by decide⟩]
  direct i j := i = j ∨ i.val = 0
  direct_self _ := decide_eq_true (.inl rfl)
  threshold_mod := rfl
  length_lt := by decide

/-- The two calls end, with the right blocks everywhere. -/
theorem correct_of_reachable_twoPes :
    ∃ s, Reachable (restrict PutsPacked (step twoPes)) (init twoPes) s ∧ s.Finished ∧
      s.Correct := by
  obtain ⟨s, hs, hfin⟩ :=
    (correct_of_reachable twoPes (by decide) _ ⟨[], rfl⟩).2.exists_reachable
  exact ⟨s, hs, hfin, (correct_of_reachable twoPes (by decide) s hs).1⟩

def emptyBetween : Config where
  size := 2
  fcollectLlThreshold := 2048
  calls := [⟨4, 2, fun _ _ => 1, .inl rfl, rfl, by decide⟩,
    ⟨4, 0, fun _ _ => 2, .inl rfl, rfl, by decide⟩, ⟨4, 2, fun _ _ => 3, .inl rfl, rfl, by decide⟩]
  direct _ _ := true
  direct_self _ := rfl
  threshold_mod := rfl
  length_lt := by decide

local instance neZero_emptyBetween : NeZero emptyBetween.size := ⟨two_ne_zero⟩

def overtaking : List (Action emptyBetween) :=
  [.next 0, .next 1, .store ⟨1, 0, 0, 0⟩, .store ⟨1, 0, 0, 1⟩, .store ⟨1, 0, 1, 0⟩,
    .store ⟨1, 0, 1, 1⟩, .store ⟨1, 1, 0, 0⟩, .store ⟨1, 1, 0, 1⟩, .deliver ⟨1, 0, 0, 0⟩,
    .deliver ⟨1, 0, 0, 1⟩, .deliver ⟨1, 0, 1, 0⟩, .deliver ⟨1, 1, 0, 0⟩, .deliver ⟨1, 1, 0, 1⟩,
    .recv ⟨1, 0, 0, 0⟩, .recv ⟨1, 0, 0, 1⟩, .recv ⟨1, 1, 0, 0⟩, .recv ⟨1, 1, 0, 1⟩,
    .next 0, .next 0, .store ⟨3, 0, 1, 0⟩, .deliver ⟨3, 0, 1, 0⟩]

/-- A word of the third call replaces a word of the first one that has not been read. -/
theorem not_correct_emptyBetween :
    ∃ s, exec (step emptyBetween) (init emptyBetween) overtaking = some s ∧ ¬ s.Correct := by
  refine exists_of_exec (fun s => s.box.status ⟨1, 0, 1, 0⟩ = .arrived ∧
    s.dest ⟨1, 0, 1, 0⟩ = none ∧ s.box.mem (emptyBetween.place ⟨1, 0, 1, 0⟩) ≠
      emptyBetween.content ⟨1, 0, 1, 0⟩) (by decide +kernel) ?_
  rintro s - ⟨harr, hnone, hmem⟩ hc
  exact hmem (hc.unread _ harr hnone)

end State

end Nvshmem.FcollectLL
