import Nvshmem.Transition.Exec

/-! # Tag matching of the socket bootstrap

A rank accepts connections in the order in which they were opened, and keeps those that the
receive in progress did not ask for. Receives from a peer with a tag get what it sent, in order.
-/

namespace Nvshmem.Bootstrap

open Transition List

/-- A connection, with the rank and the tag that are read from it first. -/
structure Conn (α : Type*) where
  peer : ℕ
  tag : ℕ
  sock : α

variable {α : Type*} {k k' : ℕ × ℕ} {c : Conn α} {l l' : List (Conn α)}

def Conn.key (c : Conn α) : ℕ × ℕ := (c.peer, c.tag)

def unexpectedDequeue (k : ℕ × ℕ) : List (Conn α) → Option (Conn α × List (Conn α))
  | [] => none
  | elem :: next =>
    if elem.key = k then some (elem, next)
    else (unexpectedDequeue k next).map fun r => (r.1, elem :: r.2)

def on (k : ℕ × ℕ) (l : List (Conn α)) : List (Conn α) := l.filter (·.key = k)

theorem on_append : on k (l ++ l') = on k l ++ on k l' := filter_append ..

theorem on_cons : on k (c :: l) = on k [c] ++ on k l := filter_append [c] l

theorem on_singleton_of_ne (h : c.key ≠ k) : on k [c] = [] :=
  filter_cons_of_neg (by simpa using h)

/-- A connection is only overtaken by those of other peers or with other tags. -/
theorem on_comm (h : on c.key l = []) : on k l ++ on k [c] = on k [c] ++ on k l := by
  by_cases hk : c.key = k
  · rw [← hk, h, nil_append, append_nil]
  · rw [on_singleton_of_ne hk, nil_append, append_nil]

theorem on_of_dequeue_some (h : unexpectedDequeue k l = some (c, l')) :
    c.key = k ∧ on k' l = on k' [c] ++ on k' l' := by
  induction l generalizing l' with
  | nil => cases h
  | cons elem next ih =>
    rw [unexpectedDequeue] at h
    split_ifs at h with hk
    · cases h
      exact ⟨hk, on_cons⟩
    · obtain ⟨r, hr, h⟩ := Option.map_eq_some_iff.mp h
      cases h
      obtain ⟨hc, hnext⟩ := ih hr
      refine ⟨hc, ?_⟩
      rw [on_cons, hnext, ← append_assoc, on_comm (on_singleton_of_ne (hc ▸ hk)), append_assoc,
        ← on_cons]

theorem on_of_dequeue_none (h : unexpectedDequeue k l = none) : on k l = [] := by
  induction l with
  | nil => rfl
  | cons elem next ih =>
    rw [unexpectedDequeue] at h
    split_ifs at h with hk
    rw [on_cons, on_singleton_of_ne hk, ih (Option.map_eq_none_iff.mp h), nil_append]

/-- A rank, with all connections opened to it and those that receives got. -/
structure Rank (α : Type*) where
  unexpected : List (Conn α)
  incoming : List (Conn α)
  receiving : Option (ℕ × ℕ)
  opened : List (Conn α)
  received : List (Conn α)

inductive Action (α : Type*) where
  /-- `bootstrap_send` of a peer -/
  | send (c : Conn α)
  /-- `bootstrap_recv` up to its loop, and a round of the loop -/
  | recv (k : ℕ × ℕ)
  | accept

namespace Rank

def step (s : Rank α) : Action α → Option (Rank α)
  | .send c => some { s with incoming := s.incoming ++ [c], opened := s.opened ++ [c] }
  | .recv k =>
    match s.receiving, unexpectedDequeue k s.unexpected with
    | some _, _ => none
    | none, some (c, l) => some { s with unexpected := l, received := s.received ++ [c] }
    | none, none => some { s with receiving := some k }
  | .accept =>
    match s.receiving, s.incoming with
    | some k, c :: l =>
      if c.key = k then
        some { s with incoming := l, receiving := none, received := s.received ++ [c] }
      else some { s with incoming := l, unexpected := s.unexpected ++ [c] }
    | _, _ => none

/-- Nothing is lost, got twice or overtaken, and a receive that waits has missed nothing. -/
structure Matched (s : Rank α) : Prop where
  inOrder : ∀ k, on k s.opened = on k s.received ++ (on k s.unexpected ++ on k s.incoming)
  waits : ∀ k, s.receiving = some k → on k s.unexpected = []

theorem Matched.step {s t : Rank α} {a : Action α} (h : s.Matched) (ht : s.step a = some t) :
    t.Matched := by
  cases a with
  | send c =>
    cases ht
    refine ⟨fun k => ?_, h.waits⟩
    simp only [on_append, h.inOrder, append_assoc]
  | recv k =>
    rw [Rank.step] at ht
    split at ht
    · cases ht
    · next c l hnone hc =>
      cases ht
      refine ⟨fun k' => ?_, fun k' hk' => ?_⟩
      · rw [h.inOrder, (on_of_dequeue_some hc).2, on_append, append_assoc,
          append_assoc]
      · cases hnone.symm.trans hk'
    · next hc =>
      cases ht
      exact ⟨h.inOrder, fun k' hk' => Option.some.inj hk' ▸ on_of_dequeue_none hc⟩
  | accept =>
    rw [Rank.step] at ht
    split at ht
    · next k c l hk hl =>
      split_ifs at ht with hc
      · cases ht
        refine ⟨fun k' => ?_, fun _ hk' => by cases hk'⟩
        rw [h.inOrder, hl, on_cons, on_append, append_assoc, ← append_assoc (on k' s.unexpected),
          on_comm (h.waits _ (hc ▸ hk)), append_assoc]
      · cases ht
        refine ⟨fun k' => ?_, fun k' hk' => ?_⟩
        · rw [h.inOrder, hl, on_cons, on_append, append_assoc]
        · obtain rfl := Option.some.inj (hk.symm.trans hk')
          rw [on_append, h.waits _ hk, on_singleton_of_ne hc, nil_append]
    · cases ht

theorem exec_accept {s : Rank α} (hk : s.receiving = some k) (hl : s.incoming = l)
    (hne : on k l ≠ []) : ∃ n t c, exec step s (replicate n .accept) = some t ∧ c.key = k ∧
      t.received = s.received ++ [c] := by
  induction l generalizing s with
  | nil => exact absurd rfl hne
  | cons c l ih =>
    by_cases hc : c.key = k
    · exact ⟨1, _, c, by simp only [exec, replicate, step, hk, hl, if_pos hc]; rfl, hc, rfl⟩
    · rw [on_cons, on_singleton_of_ne hc, nil_append] at hne
      obtain ⟨n, t, d, ht, hd⟩ :=
        ih (s := { s with incoming := l, unexpected := s.unexpected ++ [c] }) hk rfl hne
      refine ⟨n + 1, t, d, exec_cons_eq_some.mpr ⟨_, ?_, ht⟩, hd⟩
      simp only [step, hk, hl, if_neg hc]

/-- In every run the receives of a rank match the connections opened to it, and one that waits
returns when there is a connection for it. -/
theorem matched_of_reachable {s : Rank α} (hs : Reachable step ⟨[], [], none, [], []⟩ s) :
    s.Matched ∧ ∀ k, s.receiving = some k → on k s.opened ≠ on k s.received →
      ∃ n t c, exec step s (replicate n .accept) = some t ∧ c.key = k ∧
        t.received = s.received ++ [c] := by
  have h : s.Matched := hs.invariant ⟨fun _ => rfl, fun _ _ => rfl⟩ fun h ht => h.step ht
  refine ⟨h, fun k hk hne => exec_accept hk rfl fun hin => hne ?_⟩
  rw [h.inOrder, h.waits k hk, hin, append_nil, append_nil]

theorem matched_twoTags : ∃ s, exec step (⟨[], [], none, [], []⟩ : Rank Bool)
    [.send ⟨1, 7, true⟩, .send ⟨1, 8, false⟩, .recv (1, 8), .accept, .accept, .recv (1, 7)] =
      some s ∧ s.received.map Conn.tag = [8, 7] ∧ s.Matched :=
  exists_of_exec (fun s => s.received.map Conn.tag = [8, 7]) (by decide) fun _ hs h =>
    ⟨h, (matched_of_reachable (.of_exec hs)).1⟩

end Rank

end Nvshmem.Bootstrap
