import Nvshmem.Proxy.Delivery
import Nvshmem.Transition.Simulation

/-! # The channel as a queue

What the channel is for: requests are pushed by the device, and the proxy handles them in
the order in which they came. The channel simulates this queue. A reservation is a push,
and an update is a pop, where the operation handled is read off the entries consumed.
-/

namespace Nvshmem.Proxy

open Lists Transition Option List

structure Queue where
  pending : List Request
  handled : List (Option Posted)

inductive QueueAction where
  | push (r : Request)
  | pop

def Queue.step (q : Queue) : QueueAction → Option Queue
  | .push r => some { q with pending := q.pending ++ [r] }
  | .pop =>
    match q.pending with
    | r :: rs => some ⟨rs, q.handled ++ [some r.decoded]⟩
    | [] => none

def Action.onQueue : Action → Option QueueAction
  | .reserve _ r => some (.push r)
  | .update => some .pop
  | _ => none

def decodeWords (words : List (BitVec 64)) : Option Posted :=
  (dispatch (baseOp (words.getD 0 0))).map fun kind => (process (words.getD · 0) kind).posted

theorem decodeWords_words (cfg : Setup) (p : ℕ) (r : Request) :
    decodeWords (r.words cfg p) = some r.decoded := by
  have hreads : Reads ((r.words cfg p).getD · 0) r fun k =>
      channelFlag cfg.logSize (channelEntryBytes * (p + k)) := by
    intro k payload hk
    dsimp only
    rw [getD_eq_getElem?_getD, Request.words, getElem?_mapIdx, hk]
    rfl
  obtain ⟨hdispatch, -, hprocess⟩ := process_eq hreads
  rw [decodeWords, hdispatch, map_some, hprocess]

namespace Channel

variable {cfg : Setup} {s t : Channel}

def queue (s : Channel) : Queue where
  pending := s.requests.drop s.consumed.length
  handled := s.consumed.map decodeWords

theorem exec_push {thread : ℕ} {request : Request} (h : s.Inv cfg)
    (hs : s.reserve cfg thread request = some t) :
    exec Queue.step s.queue [.push request] = some t.queue := by
  obtain ⟨-, rfl⟩ := reserve_eq_some.mp hs
  simp only [exec, Queue.step, queue, requests, map_append, map_singleton,
    bind_some, some.injEq, Queue.mk.injEq, and_true]
  exact (drop_append_of_le_length h.consumption.length_le).symm

theorem exec_pop (h : s.Inv cfg) (hs : s.update = some t) :
    exec Queue.step s.queue [.pop] = some t.queue := by
  obtain ⟨words, result, hhost, rfl⟩ := update_eq_some.mp hs
  have hinv := h.host
  rw [hhost] at hinv
  obtain ⟨req, hreq, rfl, -, -⟩ := hinv
  have hpending : s.requests.drop s.consumed.length =
      req :: s.requests.drop (s.consumed.length + 1) := by
    obtain ⟨hlt, rfl⟩ := List.getElem?_eq_some_iff.mp hreq
    exact drop_eq_getElem_cons hlt
  simp only [exec, Queue.step, queue, hpending, bind_some, map_append,
    map_singleton, decodeWords_words, length_append, length_singleton]
  rfl

theorem queue_eq_of_step {a : Action} (ha : a.onQueue = none) (hs : s.step cfg a = some t) :
    t.queue = s.queue := by
  have hchange := change_of_step hs
  rw [queue, queue, requests, requests]
  generalize t.reservations = rs at hchange
  generalize t.consumed = consumed at hchange
  cases hchange with
  | refl => rfl
  | reserve | consume => exact absurd ha (some_ne_none _)
  | set hi hreq => rw [map_set_eq Reservation.request hi hreq]

theorem simulates_queue : Simulates (step cfg) Queue.step (Inv cfg) Action.onQueue queue := by
  intro s a t h hs
  cases ha : a.onQueue with
  | none => exact congrArg some (queue_eq_of_step ha hs).symm
  | some b =>
    cases a with
    | reserve thread request =>
      cases ha
      exact exec_push h hs
    | update =>
      cases ha
      exact exec_pop h (of_running hs)
    | _ => exact absurd ha.symm (some_ne_none b)

theorem exec_queue {as : List Action} (h : exec (step cfg) init as = some s) :
    exec Queue.step ⟨[], []⟩ (as.filterMap Action.onQueue) = some s.queue :=
  simulates_queue.exec_eq (fun hu hs => hu.step hs) Inv.init h

theorem exec_queue_quietThenPut : ∃ s, exec (step fourEntries) init quietThenPut = some s ∧
    exec Queue.step ⟨[], []⟩ (quietThenPut.filterMap Action.onQueue) = some s.queue :=
  exists_of_exec (fun _ => True) (by decide +kernel) fun _ hs _ => exec_queue hs

end Channel

end Nvshmem.Proxy
