import Mathlib

/-! # Packets that are written to cells

A packet is posted, fetched from its source, flies, and is written to its cell when it
arrives. Many packets may have the same cell. As long as a packet is not retired, it is
found in its cell, provided that only retired packets have arrived in the cell of a packet
that still flies.
-/

namespace Mailbox

open Function

variable {κ π ω : Type*}

/-- How far a packet has come. A posted packet has not been read from its source yet. -/
inductive Status (ω : Type*) where
  | idle
  | posted
  | flying (w : ω)
  | arrived
  deriving DecidableEq

def Status.remaining : Status ω → ℕ
  | .idle => 3
  | .posted => 2
  | .flying _ => 1
  | .arrived => 0

def Status.IsFlying : Status ω → Prop
  | .flying _ => True
  | _ => False

instance : DecidablePred (@Status.IsFlying ω)
  | .flying _ => isTrue trivial
  | .idle => isFalse id
  | .posted => isFalse id
  | .arrived => isFalse id

theorem Status.isFlying_iff {st : Status ω} : st.IsFlying ↔ ∃ w, st = .flying w := by
  cases st <;> simp [IsFlying]

structure Box (κ π ω : Type*) where
  status : κ → Status ω
  mem : π → ω

/-- The packets that have arrived are the only ones to have been written, and they are still there
unless they are retired. -/
structure Inv (place : κ → π) (content : κ → ω) (init : π → ω) (retired : κ → Prop)
    (b : Box κ π ω) : Prop where
  flying : ∀ {p w}, b.status p = .flying w → w = content p
  traced : ∀ x, b.mem x = init x ∨ ∃ p, b.status p = .arrived ∧ place p = x ∧ b.mem x = content p
  kept : ∀ {p}, b.status p = .arrived → ¬ retired p → b.mem (place p) = content p

variable {place : κ → π} {content : κ → ω} {init : π → ω} {retired : κ → Prop} {b : Box κ π ω}
  {p q : κ} {x y : π} {st : Status ω} {w : ω}

section Post

variable [DecidableEq κ]

def Box.setStatus (b : Box κ π ω) (p : κ) (st : Status ω) : Box κ π ω :=
  ⟨update b.status p st, b.mem⟩

def Box.fetch (b : Box κ π ω) (p : κ) (x : π) : Box κ π ω := b.setStatus p (.flying (b.mem x))

@[simp]
theorem Box.status_setStatus : (b.setStatus p st).status q = if q = p then st else b.status q :=
  update_apply ..

@[simp]
theorem Box.mem_setStatus : (b.setStatus p st).mem = b.mem := rfl

theorem Inv.setStatus (h : Inv place content init retired b) (hp : b.status p ≠ .arrived)
    (hst : st ≠ .arrived) (hfly : ∀ w, st = .flying w → w = content p) :
    Inv place content init retired (b.setStatus p st) := by
  have harr : ∀ q, (b.setStatus p st).status q = .arrived ↔ b.status q = .arrived := by
    intro q
    rw [Box.status_setStatus]
    split
    next hq => exact iff_of_false hst (hq ▸ hp)
    next => exact Iff.rfl
  constructor
  · intro q w hq
    rw [Box.status_setStatus] at hq
    split at hq
    next heq => exact heq ▸ hfly w hq
    next => exact h.flying hq
  · simp only [harr]
    exact h.traced
  · intro q hq hnot
    exact h.kept ((harr q).mp hq) hnot

end Post

section Deliver

variable [DecidableEq κ] [DecidableEq π]

def Box.deliver (b : Box κ π ω) (p : κ) (x : π) : Box κ π ω :=
  match b.status p with
  | .flying w => ⟨update b.status p .arrived, update b.mem x w⟩
  | _ => b

theorem Box.status_deliver (h : (b.status p).IsFlying) :
    (b.deliver p x).status q = if q = p then .arrived else b.status q := by
  obtain ⟨w, hw⟩ := Status.isFlying_iff.mp h
  rw [deliver, hw]
  exact update_apply ..

theorem Box.mem_deliver (h : b.status p = .flying w) :
    (b.deliver p x).mem y = if y = x then w else b.mem y := by
  rw [deliver, h]
  exact update_apply ..

theorem Inv.deliver (h : Inv place content init retired b) (hp : (b.status p).IsFlying)
    (hclash : ∀ q, q ≠ p → place q = place p → b.status q = .arrived → retired q) :
    Inv place content init retired (b.deliver p (place p)) := by
  obtain ⟨w, hw⟩ := Status.isFlying_iff.mp hp
  obtain rfl := h.flying hw
  constructor
  · intro q w hq
    rw [Box.status_deliver hp] at hq
    split at hq
    next => exact absurd hq.symm (by simp)
    next => exact h.flying hq
  · intro x
    rw [Box.mem_deliver hw]
    split
    next hx => exact .inr ⟨p, by rw [Box.status_deliver hp, if_pos rfl], hx.symm, rfl⟩
    next =>
      refine (h.traced x).imp id ?_
      rintro ⟨q, hq, hplace, hmem⟩
      exact ⟨q, by rw [Box.status_deliver hp, hq, ite_self], hplace, hmem⟩
  · intro q hq hnot
    rw [Box.status_deliver hp] at hq
    rw [Box.mem_deliver hw]
    by_cases hqp : q = p
    · rw [hqp, if_pos rfl]
    · rw [if_neg hqp] at hq
      rw [if_neg fun hplace => hnot (hclash q hqp hplace hq)]
      exact h.kept hq hnot

end Deliver

theorem Inv.mono {retired' : κ → Prop} (h : Inv place content init retired b)
    (hret : ∀ p, retired p → retired' p) : Inv place content init retired' b :=
  ⟨h.flying, h.traced, fun hp hnot => h.kept hp fun hr => hnot (hret _ hr)⟩

theorem Inv.arrived_of_accept (h : Inv place content init retired b) (accept : ω → Prop)
    (hacc : accept (b.mem (place p))) (hinit : ¬ accept (init (place p)))
    (huniq : ∀ q, b.status q = .arrived → place q = place p → accept (content q) → q = p) :
    b.status p = .arrived ∧ b.mem (place p) = content p := by
  rcases h.traced (place p) with hmem | ⟨q, hq, hplace, hmem⟩
  · rw [hmem] at hacc
    exact absurd hacc hinit
  · rw [hmem] at hacc ⊢
    obtain rfl := huniq q hq hplace hacc
    exact ⟨hq, rfl⟩

end Mailbox
