import Nvshmem.Transition.Exec

/-! # Calls and answers over channels

A party issues calls on channels to other parties, which deliver in order. What is delivered is
polled in order; a polled call waits in one queue with those of all channels, is served when it
is first in the queue, and is answered on the channel in the other direction before the next one is
served. An answer is complete when the caller has polled it.

Whatever the order of these steps, the calls of a channel pass through the same places in the order
in which they were issued, so that the places of a channel, one after the other, always hold the
calls that were issued on it.
-/

namespace Rpc

open Transition List Option Function Option List

variable {ι ρ β σ : Type*}

structure Channel (ι : Type*) where
  lane : ℕ
  src : ι
  dst : ι
deriving DecidableEq

def Channel.back (ch : Channel ι) : Channel ι := ⟨ch.lane, ch.dst, ch.src⟩

@[simp]
theorem Channel.back_back (ch : Channel ι) : ch.back.back = ch := rfl

theorem Channel.back_inj {ch ch' : Channel ι} (h : ch.back = ch'.back) : ch = ch' :=
  congrArg Channel.back h

structure Call (ι ρ : Type*) where
  id : ℕ
  channel : Channel ι
  request : ρ

inductive Packet (ι ρ β : Type*) where
  | call (c : Call ι ρ)
  | answer (c : Call ι ρ) (b : β)

def Packet.route : Packet ι ρ β → Channel ι
  | .call c => c.channel
  | .answer c _ => c.channel.back

/-- What is on the way, and the history: the calls issued, those served with their answers, and the
answers that have been delivered and those that have been polled. -/
@[ext]
structure Flow (ι ρ β σ : Type*) where
  wire : Channel ι → List (Packet ι ρ β)
  inbox : ι → List (Channel ι × Packet ι ρ β)
  queue : ι → List (Channel ι × Call ι ρ)
  /-- The answer to the first call of the queue, which has been served. -/
  serving : ι → Option β
  state : ι → σ
  issued : List (Call ι ρ)
  served : List (Call ι ρ × β)
  delivered : List (Call ι ρ × β)
  polled : List (Call ι ρ × β)

inductive Event (ι ρ : Type*) where
  | issue (ch : Channel ι) (r : ρ)
  | deliver (ch : Channel ι)
  | poll (i : ι)
  | serve (i : ι)
  | answer (i : ι)

def Packet.answer? : Packet ι ρ β → Option (Call ι ρ × β)
  | .call _ => none
  | .answer c b => some (c, b)

namespace Flow

def start (init : ι → σ) : Flow ι ρ β σ where
  wire _ := []
  inbox _ := []
  queue _ := []
  serving _ := none
  state := init
  issued := []
  served := []
  delivered := []
  polled := []

variable [DecidableEq ι] (serve : ρ → σ → σ × β) (n : Flow ι ρ β σ)

def issue (ch : Channel ι) (r : ρ) : Flow ι ρ β σ :=
  { n with
    wire := update n.wire ch (n.wire ch ++ [.call ⟨n.issued.length, ch, r⟩])
    issued := n.issued ++ [⟨n.issued.length, ch, r⟩] }

def deliver (ch : Channel ι) (p : Packet ι ρ β) (ps : List (Packet ι ρ β)) : Flow ι ρ β σ :=
  { n with
    wire := update n.wire ch ps
    inbox := update n.inbox ch.dst (n.inbox ch.dst ++ [(ch, p)])
    delivered := n.delivered ++ p.answer?.toList }

def pollCall (i : ι) (ch : Channel ι) (c : Call ι ρ) (ps : List (Channel ι × Packet ι ρ β)) :
    Flow ι ρ β σ :=
  { n with
    inbox := update n.inbox i ps
    queue := update n.queue i (n.queue i ++ [(ch, c)]) }

def pollAnswer (i : ι) (c : Call ι ρ) (b : β) (ps : List (Channel ι × Packet ι ρ β)) :
    Flow ι ρ β σ :=
  { n with
    inbox := update n.inbox i ps
    polled := n.polled ++ [(c, b)] }

def serveCall (i : ι) (c : Call ι ρ) : Flow ι ρ β σ :=
  { n with
    serving := update n.serving i (some (serve c.request (n.state i)).2)
    state := update n.state i (serve c.request (n.state i)).1
    served := n.served ++ [(c, (serve c.request (n.state i)).2)] }

def answerCall (i : ι) (b : β) (ch : Channel ι) (c : Call ι ρ) (cs : List (Channel ι × Call ι ρ)) :
    Flow ι ρ β σ :=
  { n with
    wire := update n.wire ch.back (n.wire ch.back ++ [.answer c b])
    queue := update n.queue i cs
    serving := update n.serving i none }

def step : Event ι ρ → Option (Flow ι ρ β σ)
  | .issue ch r => some (n.issue ch r)
  | .deliver ch =>
    match n.wire ch with
    | [] => none
    | p :: ps => some (n.deliver ch p ps)
  | .poll i =>
    match n.inbox i with
    | [] => none
    | (ch, .call c) :: ps => some (n.pollCall i ch c ps)
    | (_, .answer c b) :: ps => some (n.pollAnswer i c b ps)
  | .serve i =>
    match n.serving i, n.queue i with
    | none, (_, c) :: _ => some (n.serveCall serve i c)
    | _, _ => none
  | .answer i =>
    match n.serving i, n.queue i with
    | some b, (ch, c) :: cs => some (n.answerCall i b ch c cs)
    | _, _ => none

inductive Moved : Flow ι ρ β σ → Prop
  | issue (ch : Channel ι) (r : ρ) : Moved (n.issue ch r)
  | deliver {ch : Channel ι} {p : Packet ι ρ β} {ps : List (Packet ι ρ β)} :
      n.wire ch = p :: ps → Moved (n.deliver ch p ps)
  | pollCall {i : ι} {ch : Channel ι} {c : Call ι ρ} {ps : List (Channel ι × Packet ι ρ β)} :
      n.inbox i = (ch, .call c) :: ps → Moved (n.pollCall i ch c ps)
  | pollAnswer {i : ι} {ch : Channel ι} {c : Call ι ρ} {b : β}
      {ps : List (Channel ι × Packet ι ρ β)} :
      n.inbox i = (ch, .answer c b) :: ps → Moved (n.pollAnswer i c b ps)
  | serve {i : ι} {ch : Channel ι} {c : Call ι ρ} {cs : List (Channel ι × Call ι ρ)} :
      n.serving i = none → n.queue i = (ch, c) :: cs → Moved (n.serveCall serve i c)
  | answer {i : ι} {b : β} {ch : Channel ι} {c : Call ι ρ} {cs : List (Channel ι × Call ι ρ)} :
      n.serving i = some b → n.queue i = (ch, c) :: cs → Moved (n.answerCall i b ch c cs)

variable {serve n} {e : Event ι ρ} {n' : Flow ι ρ β σ}

theorem Moved.of_step (h : n.step serve e = some n') : Moved serve n n' := by
  cases e with
  | issue ch r => exact some.inj h ▸ .issue ch r
  | deliver ch =>
    rw [step] at h
    split at h
    · exact nomatch h
    · next hwire => exact some.inj h ▸ .deliver hwire
  | poll i =>
    rw [step] at h
    split at h
    · exact nomatch h
    · next hinbox => exact some.inj h ▸ .pollCall hinbox
    · next hinbox => exact some.inj h ▸ .pollAnswer hinbox
  | serve i =>
    rw [step] at h
    split at h
    · next hserving hqueue => exact some.inj h ▸ .serve hserving hqueue
    · exact nomatch h
  | answer i =>
    rw [step] at h
    split at h
    · next hserving hqueue => exact some.inj h ▸ .answer hserving hqueue
    · exact nomatch h

end Flow

section Places

variable [DecidableEq ι] (ch : Channel ι)

def Packet.callOn : Packet ι ρ β → Option (Call ι ρ)
  | .call c => if c.channel = ch then some c else none
  | .answer _ _ => none

def Packet.answerOn : Packet ι ρ β → Option (Call ι ρ × β)
  | .call _ => none
  | .answer c b => if c.channel = ch then some (c, b) else none

def callsOn (cs : List (Call ι ρ)) : List (Call ι ρ) := cs.filter (·.channel = ch)

def answersOn (as : List (Call ι ρ × β)) : List (Call ι ρ × β) := as.filter (·.1.channel = ch)

variable {ch} {p : Packet ι ρ β} {cs cs' : List (Call ι ρ)} {as as' : List (Call ι ρ × β)}
  {c : Call ι ρ} {a : Call ι ρ × β}

theorem Packet.route_of_callOn (h : p.callOn ch ≠ none) : p.route = ch := by
  cases p with
  | call c =>
    rw [callOn, Ne, ite_eq_right_iff, not_forall] at h
    exact h.1
  | answer c b => exact absurd rfl h

theorem Packet.route_of_answerOn (h : p.answerOn ch ≠ none) : p.route = ch.back := by
  cases p with
  | call c => exact absurd rfl h
  | answer c b =>
    rw [answerOn, Ne, ite_eq_right_iff, not_forall] at h
    exact congrArg Channel.back h.1

theorem callsOn_append : callsOn ch (cs ++ cs') = callsOn ch cs ++ callsOn ch cs' :=
  filter_append _ _

theorem answersOn_append : answersOn ch (as ++ as') = answersOn ch as ++ answersOn ch as' :=
  filter_append _ _

theorem callsOn_map_fst : callsOn ch (as.map Prod.fst) = (answersOn ch as).map Prod.fst :=
  filter_map ..

theorem callsOn_of_ne (h : c.channel ≠ ch) : callsOn ch [c] = [] := by
  rw [callsOn, filter_singleton, decide_eq_false h]
  rfl

theorem answersOn_of_ne {b : β} (h : c.channel ≠ ch) : answersOn ch [(c, b)] = [] := by
  rw [answersOn, filter_singleton, decide_eq_false h]
  rfl

theorem answersOn_singleton (c : Call ι ρ) (b : β) :
    answersOn ch [(c, b)] = ((Packet.answer c b).answerOn ch).toList := by
  rw [answersOn, filter_singleton, Packet.answerOn]
  split <;> simp_all

theorem callsOn_singleton (c : Call ι ρ) :
    callsOn ch [c] = ((Packet.call c : Packet ι ρ β).callOn ch).toList := by
  rw [callsOn, filter_singleton, Packet.callOn]
  split <;> simp_all

theorem mem_callsOn : c ∈ callsOn ch cs ↔ c ∈ cs ∧ c.channel = ch := by
  rw [callsOn, mem_filter, decide_eq_true_iff]

theorem mem_answersOn : a ∈ answersOn ch as ↔ a ∈ as ∧ a.1.channel = ch := by
  rw [answersOn, mem_filter, decide_eq_true_iff]

theorem nodup_of_forall_callsOn (h : ∀ ch, (callsOn ch cs).Nodup) : cs.Nodup := by
  induction cs with
  | nil => exact nodup_nil
  | cons c cs ih =>
    refine nodup_cons.mpr ⟨fun hc => ?_, ih fun ch => (h ch).sublist ?_⟩
    · have hcons : callsOn c.channel (c :: cs) = c :: callsOn c.channel cs :=
        filter_cons_of_pos (decide_eq_true rfl)
      have hnodup := h c.channel
      rw [hcons, nodup_cons] at hnodup
      exact hnodup.1 (mem_callsOn.mpr ⟨hc, rfl⟩)
    · exact (sublist_cons_self c cs).filter _

end Places

namespace Flow

variable (n : Flow ι ρ β σ)

def waiting (i : ι) : List (Channel ι × Call ι ρ) :=
  if (n.serving i).isSome then (n.queue i).tail else n.queue i

def current (i : ι) : List (Call ι ρ × β) :=
  match n.serving i, n.queue i with
  | some b, (_, c) :: _ => [(c, b)]
  | _, _ => []

structure Routed : Prop where
  wire : ∀ ch, ∀ p ∈ n.wire ch, p.route = ch
  inbox : ∀ i, ∀ x ∈ n.inbox i, x.2.route = x.1 ∧ x.1.dst = i
  queue : ∀ i, ∀ x ∈ n.queue i, x.2.channel = x.1 ∧ x.1.dst = i
  queue_ne_nil : ∀ i, n.serving i ≠ none → n.queue i ≠ []

variable {n} {serve : ρ → σ → σ × β} {n' : Flow ι ρ β σ}

theorem Routed.start (init : ι → σ) : (start init : Flow ι ρ β σ).Routed :=
  ⟨nofun, nofun, nofun, fun _ h => absurd rfl h⟩

variable [DecidableEq ι]

theorem Routed.moved (h : n.Routed) (hn : Moved serve n n') : n'.Routed := by
  cases hn with
  | issue ch r =>
    refine ⟨fun ch' => ?_, h.inbox, h.queue, h.queue_ne_nil⟩
    simp only [issue, update_apply]
    split_ifs with heq
    · subst heq
      exact forall_mem_append.mpr ⟨h.wire _, forall_mem_singleton.mpr rfl⟩
    · exact h.wire ch'
  | @deliver ch p ps hwire =>
    have hp := h.wire ch
    rw [hwire] at hp
    refine ⟨fun ch' => ?_, fun i => ?_, h.queue, h.queue_ne_nil⟩ <;>
      simp only [deliver, update_apply] <;> split_ifs with heq
    · subst heq
      exact fun q hq => hp q (mem_cons_of_mem _ hq)
    · exact h.wire ch'
    · subst heq
      exact forall_mem_append.mpr ⟨h.inbox _,
        forall_mem_singleton.mpr ⟨hp p mem_cons_self, rfl⟩⟩
    · exact h.inbox i
  | @pollCall i ch c ps hinbox =>
    have hx := h.inbox i
    rw [hinbox] at hx
    refine ⟨h.wire, fun j => ?_, fun j => ?_, fun j => ?_⟩ <;>
      simp only [pollCall, update_apply] <;> split_ifs with heq
    · subst heq
      exact fun x hx' => hx x (mem_cons_of_mem _ hx')
    · exact h.inbox j
    · subst heq
      exact forall_mem_append.mpr ⟨h.queue _,
        forall_mem_singleton.mpr (hx _ mem_cons_self)⟩
    · exact h.queue j
    · exact fun _ => append_ne_nil_of_right_ne_nil _ (cons_ne_nil _ _)
    · exact h.queue_ne_nil j
  | @pollAnswer i ch c b ps hinbox =>
    have hx := h.inbox i
    rw [hinbox] at hx
    refine ⟨h.wire, fun j => ?_, h.queue, h.queue_ne_nil⟩
    simp only [pollAnswer, update_apply]
    split_ifs with heq
    · subst heq
      exact fun x hx' => hx x (mem_cons_of_mem _ hx')
    · exact h.inbox j
  | @serve i ch c cs hserving hqueue =>
    refine ⟨h.wire, h.inbox, h.queue, fun j => ?_⟩
    simp only [serveCall, update_apply]
    split_ifs with heq
    · subst heq
      exact fun _ => hqueue ▸ cons_ne_nil _ _
    · exact h.queue_ne_nil j
  | @answer i b ch c cs hserving hqueue =>
    have hx := h.queue i
    rw [hqueue] at hx
    refine ⟨fun ch' => ?_, h.inbox, fun j => ?_, fun j => ?_⟩ <;>
      simp only [answerCall, update_apply] <;> split_ifs with heq
    · subst heq
      refine forall_mem_append.mpr ⟨h.wire _, forall_mem_singleton.mpr ?_⟩
      exact congrArg Channel.back (hx _ mem_cons_self).1
    · exact h.wire ch'
    · subst heq
      exact fun x hx' => hx x (mem_cons_of_mem _ hx')
    · exact h.queue j
    · exact fun hne => absurd rfl hne
    · exact h.queue_ne_nil j

section Places

variable (n : Flow ι ρ β σ) (ch : Channel ι)

def wireCalls : List (Call ι ρ) := (n.wire ch).filterMap (·.callOn ch)

def inboxCalls : List (Call ι ρ) := (n.inbox ch.dst).filterMap (·.2.callOn ch)

def waitingCalls : List (Call ι ρ) := callsOn ch ((n.waiting ch.dst).map Prod.snd)

def currentAnswers : List (Call ι ρ × β) := answersOn ch (n.current ch.dst)

def wireAnswers : List (Call ι ρ × β) := (n.wire ch.back).filterMap (·.answerOn ch)

def inboxAnswers : List (Call ι ρ × β) := (n.inbox ch.src).filterMap (·.2.answerOn ch)

end Places

/-- The places of a channel, one after the other, hold the calls issued on it, and the places for
answers hold those of the calls served. -/
structure Placed (n : Flow ι ρ β σ) : Prop where
  calls : ∀ ch, callsOn ch (n.served.map Prod.fst) ++ (n.waitingCalls ch ++ (n.inboxCalls ch ++
    n.wireCalls ch)) = callsOn ch n.issued
  answers : ∀ ch, answersOn ch n.polled ++ (n.inboxAnswers ch ++ n.wireAnswers ch ++
    n.currentAnswers ch) = answersOn ch n.served
  delivered : ∀ ch, answersOn ch n.delivered = answersOn ch n.polled ++ n.inboxAnswers ch

theorem Placed.start (init : ι → σ) : (start init : Flow ι ρ β σ).Placed :=
  ⟨fun _ => rfl, fun _ => rfl, fun _ => rfl⟩

namespace Placed

section Deliver

variable {ch : Channel ι} {p : Packet ι ρ β} {ps : List (Packet ι ρ β)}

theorem filterMap_inbox_deliver {α : Type*} {f : Packet ι ρ β → Option α} (ch₁ : Channel ι)
    (hf : ∀ q, f q ≠ none → q.route = ch₁) (h : n.Routed) (hwire : n.wire ch = p :: ps) :
    ((n.deliver ch p ps).inbox ch₁.dst).filterMap (f ·.2) =
      (n.inbox ch₁.dst).filterMap (f ·.2) ++ (f p).toList := by
  simp only [Flow.deliver, update_apply]
  split_ifs with hdst
  · rw [hdst]
    cases hp : f p <;> simp [hp]
  · have hnone : f p = none := by
      by_contra hne
      have hroute := h.wire ch p (hwire ▸ mem_cons_self)
      exact hdst (congrArg Channel.dst ((hf p hne).symm.trans hroute))
    rw [hnone, toList_none, append_nil]

theorem filterMap_deliver {α : Type*} {f : Packet ι ρ β → Option α} (ch₁ : Channel ι)
    (hf : ∀ q, f q ≠ none → q.route = ch₁) (h : n.Routed) (hwire : n.wire ch = p :: ps) :
    ((n.deliver ch p ps).inbox ch₁.dst).filterMap (f ·.2) ++
        ((n.deliver ch p ps).wire ch₁).filterMap f =
      (n.inbox ch₁.dst).filterMap (f ·.2) ++ (n.wire ch₁).filterMap f := by
  rw [filterMap_inbox_deliver ch₁ hf h hwire, append_assoc]
  congr 1
  by_cases hch : ch₁ = ch
  · subst hch
    simp only [Flow.deliver, update_self, hwire]
    cases hp : f p <;> simp [hp]
  · have hnone : f p = none := by
      by_contra hne
      exact hch ((hf p hne).symm.trans (h.wire ch p (hwire ▸ mem_cons_self)))
    simp only [hnone, Flow.deliver, update_of_ne hch, toList_none, nil_append]

theorem deliver (h : n.Placed) (hr : n.Routed) (hwire : n.wire ch = p :: ps) :
    (n.deliver ch p ps).Placed where
  calls ch' := by
    have hmove : (n.deliver ch p ps).inboxCalls ch' ++ (n.deliver ch p ps).wireCalls ch' =
        n.inboxCalls ch' ++ n.wireCalls ch' :=
      filterMap_deliver ch' (fun _ => Packet.route_of_callOn) hr hwire
    rw [hmove]
    exact h.calls ch'
  answers ch' := by
    have hmove : (n.deliver ch p ps).inboxAnswers ch' ++ (n.deliver ch p ps).wireAnswers ch' =
        n.inboxAnswers ch' ++ n.wireAnswers ch' :=
      filterMap_deliver ch'.back (fun _ => Packet.route_of_answerOn) hr hwire
    rw [hmove]
    exact h.answers ch'
  delivered ch' := by
    have hmove : (n.deliver ch p ps).inboxAnswers ch' = n.inboxAnswers ch' ++
        (p.answerOn ch').toList :=
      filterMap_inbox_deliver ch'.back (fun _ => Packet.route_of_answerOn) hr hwire
    have hp : answersOn ch' p.answer?.toList = (p.answerOn ch').toList := by
      cases p with
      | call c => rfl
      | answer c b => exact answersOn_singleton c b
    rw [hmove, ← append_assoc]
    change answersOn ch' (n.delivered ++ p.answer?.toList) = _
    rw [answersOn_append, h.delivered ch', hp]
    rfl

end Deliver

theorem issue (h : n.Placed) (ch : Channel ι) (r : ρ) : (n.issue ch r).Placed where
  calls ch' := by
    have hwire : (n.issue ch r).wireCalls ch' =
        n.wireCalls ch' ++ callsOn ch' [⟨n.issued.length, ch, r⟩] := by
      rw [callsOn_singleton (β := β)]
      simp only [wireCalls, Flow.issue, update_apply]
      split_ifs with hch
      · rw [hch]
        simp [Packet.callOn]
      · simp [Packet.callOn, Ne.symm hch]
    rw [hwire]
    change _ ++ (n.waitingCalls ch' ++ (n.inboxCalls ch' ++ _)) = callsOn ch' (n.issued ++ _)
    rw [callsOn_append, ← h.calls ch']
    simp only [append_assoc]
    rfl
  answers ch' := by
    have hwire : (n.issue ch r).wireAnswers ch' = n.wireAnswers ch' := by
      simp only [wireAnswers, Flow.issue, update_apply]
      split_ifs with hch
      · rw [hch]
        simp [Packet.answerOn]
      · rfl
    rw [hwire]
    exact h.answers ch'
  delivered := h.delivered

section Poll

variable {i : ι} {ch : Channel ι} {c : Call ι ρ} {b : β} {ps : List (Channel ι × Packet ι ρ β)}

theorem waiting_pollCall (hr : n.Routed) (j : ι) :
    (n.pollCall i ch c ps).waiting j = n.waiting j ++ if j = i then [(ch, c)] else [] := by
  simp only [waiting, Flow.pollCall, update_apply]
  split_ifs with hserving hj hj
  · subst hj
    exact tail_append_of_ne_nil (hr.queue_ne_nil _ (isSome_iff_ne_none.mp hserving))
  · exact (append_nil _).symm
  · rw [hj]
  · exact (append_nil _).symm

theorem current_pollCall (hr : n.Routed) (j : ι) :
    (n.pollCall i ch c ps).current j = n.current j := by
  simp only [current, Flow.pollCall, update_apply]
  split_ifs with hj
  · subst hj
    cases hserving : n.serving j with
    | none => rfl
    | some b =>
      obtain ⟨x, xs, hqueue⟩ := exists_cons_of_ne_nil
        (hr.queue_ne_nil j (hserving ▸ some_ne_none b))
      rw [hqueue]
      rfl
  · rfl

theorem pollCall (h : n.Placed) (hr : n.Routed) (hinbox : n.inbox i = (ch, .call c) :: ps) :
    (n.pollCall i ch c ps).Placed := by
  have hanswers : ∀ ch', (n.pollCall i ch c ps).inboxAnswers ch' = n.inboxAnswers ch' := by
    intro ch'
    simp only [inboxAnswers, Flow.pollCall, update_apply]
    split_ifs with hi
    · rw [hi, hinbox]
      rfl
    · rfl
  refine ⟨fun ch' => ?_, fun ch' => ?_, fun ch' => ?_⟩
  · refine Eq.trans ?_ (h.calls ch')
    congr 1
    simp only [waitingCalls, waiting_pollCall hr, map_append, callsOn_append,
      append_assoc]
    congr 1
    rw [← append_assoc]
    congr 1
    simp only [inboxCalls, Flow.pollCall, update_apply]
    split_ifs with hi
    · rw [hi, hinbox, map_singleton, callsOn_singleton (β := β), filterMap_cons]
      cases (Packet.call c : Packet ι ρ β).callOn ch' <;> rfl
    · rfl
  · rw [hanswers]
    have hcurrent : (n.pollCall i ch c ps).currentAnswers ch' = n.currentAnswers ch' :=
      congrArg (answersOn ch') (current_pollCall hr _)
    rw [hcurrent]
    exact h.answers ch'
  · rw [hanswers]
    exact h.delivered ch'

theorem pollAnswer (h : n.Placed) (hr : n.Routed) (hinbox : n.inbox i = (ch, .answer c b) :: ps) :
    (n.pollAnswer i c b ps).Placed := by
  have hsrc : c.channel.src = i := by
    obtain ⟨hroute, hdst⟩ := hr.inbox i (ch, .answer c b) (hinbox ▸ mem_cons_self)
    rw [← hdst, ← hroute]
    rfl
  have hanswers : ∀ ch', answersOn ch' [(c, b)] ++ (n.pollAnswer i c b ps).inboxAnswers ch' =
      n.inboxAnswers ch' := by
    intro ch'
    simp only [inboxAnswers, Flow.pollAnswer, update_apply]
    split_ifs with hi
    · rw [hi, hinbox, answersOn_singleton, filterMap_cons]
      cases (Packet.answer c b).answerOn ch' <;> rfl
    · rw [answersOn_of_ne, nil_append]
      rintro rfl
      exact hi hsrc
  refine ⟨fun ch' => ?_, fun ch' => ?_, fun ch' => ?_⟩
  · have hcalls : (n.pollAnswer i c b ps).inboxCalls ch' = n.inboxCalls ch' := by
      simp only [inboxCalls, Flow.pollAnswer, update_apply]
      split_ifs with hi
      · rw [hi, hinbox]
        rfl
      · rfl
    rw [hcalls]
    exact h.calls ch'
  · refine Eq.trans ?_ (h.answers ch')
    rw [← hanswers ch']
    change answersOn ch' (n.polled ++ [(c, b)]) ++
      (_ ++ n.wireAnswers ch' ++ n.currentAnswers ch') = _
    simp only [answersOn_append, append_assoc]
  · change answersOn ch' n.delivered = answersOn ch' (n.polled ++ [(c, b)]) ++ _
    rw [answersOn_append, append_assoc, hanswers, h.delivered]

end Poll

section Serve

variable {i : ι} {ch : Channel ι} {c : Call ι ρ} {b : β} {cs : List (Channel ι × Call ι ρ)}

theorem serveCall (h : n.Placed) (hr : n.Routed) (hserving : n.serving i = none)
    (hqueue : n.queue i = (ch, c) :: cs) : (n.serveCall serve i c).Placed := by
  have hdst : c.channel.dst = i := by
    obtain ⟨hch, hdst⟩ := hr.queue i (ch, c) (hqueue ▸ mem_cons_self)
    rw [hch, hdst]
  have hne : ∀ {ch' : Channel ι}, ch'.dst ≠ i → c.channel ≠ ch' := by
    rintro ch' hi rfl
    exact hi hdst
  refine ⟨fun ch' => ?_, fun ch' => ?_, h.delivered⟩
  · have hwaiting : callsOn ch' [c] ++ (n.serveCall serve i c).waitingCalls ch' =
        n.waitingCalls ch' := by
      simp only [waitingCalls, waiting, Flow.serveCall, update_apply]
      by_cases hi : ch'.dst = i
      · simp only [hi, if_true, hserving, isSome_some, isSome_none,
          Bool.false_eq_true, if_false, hqueue, tail_cons, map_cons]
        exact callsOn_append.symm
      · rw [callsOn_of_ne (hne hi), nil_append, if_neg hi]
    refine Eq.trans ?_ (h.calls ch')
    rw [← hwaiting]
    change callsOn ch' ((n.served ++ [(c, _)]).map Prod.fst) ++
      (_ ++ (n.inboxCalls ch' ++ n.wireCalls ch')) = _
    simp only [map_append, callsOn_append, append_assoc]
    rfl
  · have hcurrent : (n.serveCall serve i c).currentAnswers ch' =
        n.currentAnswers ch' ++ answersOn ch' [(c, (serve c.request (n.state i)).2)] := by
      simp only [currentAnswers, current, Flow.serveCall, update_apply]
      by_cases hi : ch'.dst = i
      · simp only [hi, if_true, hserving, hqueue]
        rfl
      · rw [answersOn_of_ne (hne hi), append_nil, if_neg hi]
    change _ = answersOn ch' (n.served ++ _)
    rw [hcurrent, answersOn_append, ← h.answers ch']
    simp only [append_assoc]
    rfl

theorem answerCall (h : n.Placed) (hr : n.Routed) (hserving : n.serving i = some b)
    (hqueue : n.queue i = (ch, c) :: cs) : (n.answerCall i b ch c cs).Placed := by
  obtain ⟨hch, hdst⟩ : c.channel = ch ∧ ch.dst = i :=
    hr.queue i (ch, c) (hqueue ▸ mem_cons_self)
  refine ⟨fun ch' => ?_, fun ch' => ?_, h.delivered⟩
  · have hwaiting : (n.answerCall i b ch c cs).waitingCalls ch' = n.waitingCalls ch' := by
      simp only [waitingCalls, waiting, Flow.answerCall, update_apply]
      by_cases hi : ch'.dst = i
      · simp [hi, hserving, hqueue]
      · simp [hi]
    have hwire : (n.answerCall i b ch c cs).wireCalls ch' = n.wireCalls ch' := by
      simp only [wireCalls, Flow.answerCall, update_apply]
      split_ifs with heq
      · rw [heq]
        simp [Packet.callOn]
      · rfl
    rw [hwaiting, hwire]
    exact h.calls ch'
  · have hmove : (n.answerCall i b ch c cs).wireAnswers ch' ++
        (n.answerCall i b ch c cs).currentAnswers ch' =
          n.wireAnswers ch' ++ n.currentAnswers ch' := by
      by_cases heq : ch' = ch
      · subst heq
        simp [wireAnswers, currentAnswers, current, Flow.answerCall, hdst, hserving, hqueue,
          answersOn, Packet.answerOn, hch]
      · have hback : ch'.back ≠ ch.back := fun h' => heq (Channel.back_inj h')
        simp only [wireAnswers, Flow.answerCall, update_of_ne hback]
        congr 1
        simp only [currentAnswers, current, update_apply]
        by_cases hi : ch'.dst = i
        · simp [hi, hserving, hqueue, answersOn, hch, Ne.symm heq]
        · simp [hi]
    refine Eq.trans ?_ (h.answers ch')
    simp only [append_assoc, hmove]
    rfl

end Serve

theorem moved (h : n.Placed) (hr : n.Routed) (hn : Moved serve n n') : n'.Placed := by
  cases hn with
  | issue ch r => exact h.issue ch r
  | deliver hwire => exact h.deliver hr hwire
  | pollCall hinbox => exact h.pollCall hr hinbox
  | pollAnswer hinbox => exact h.pollAnswer hr hinbox
  | serve hserving hqueue => exact h.serveCall hr hserving hqueue
  | answer hserving hqueue => exact h.answerCall hr hserving hqueue

end Placed

section Replay

variable (serve : ρ → σ → σ × β) (init : ι → σ)

/-- The state of a party after it has served its calls among these, in this order. -/
def stateAfter (cs : List (Call ι ρ)) (i : ι) : σ :=
  (cs.filter (·.channel.dst = i)).foldl (fun st c => (serve c.request st).1) (init i)

structure Replayed (n : Flow ι ρ β σ) : Prop where
  state : ∀ i, n.state i = stateAfter serve init (n.served.map Prod.fst) i
  answer : ∀ as c b bs, n.served = as ++ (c, b) :: bs →
    b = (serve c.request (stateAfter serve init (as.map Prod.fst) c.channel.dst)).2

variable {serve init}

theorem stateAfter_concat (cs : List (Call ι ρ)) (c : Call ι ρ) (i : ι) :
    stateAfter serve init (cs ++ [c]) i =
      if c.channel.dst = i then (serve c.request (stateAfter serve init cs i)).1
      else stateAfter serve init cs i := by
  rw [stateAfter, filter_append, filter_singleton]
  split_ifs with hi
  · rw [decide_eq_true hi]
    exact foldl_concat ..
  · rw [decide_eq_false hi]
    exact congrArg _ (append_nil _)

theorem Replayed.start : (start init : Flow ι ρ β σ).Replayed serve init :=
  ⟨fun _ => rfl, fun as _ _ _ h => absurd h.symm (append_ne_nil_of_right_ne_nil as
    (cons_ne_nil _ _))⟩

theorem Replayed.serveCall {i : ι} {ch : Channel ι} {c : Call ι ρ}
    {cs : List (Channel ι × Call ι ρ)} (h : n.Replayed serve init) (hr : n.Routed)
    (hqueue : n.queue i = (ch, c) :: cs) : (n.serveCall serve i c).Replayed serve init := by
  have hdst : c.channel.dst = i := by
    obtain ⟨hch, hdst⟩ := hr.queue i (ch, c) (hqueue ▸ mem_cons_self)
    rw [hch, hdst]
  constructor
  · intro j
    change update n.state i _ j =
      stateAfter serve init ((n.served ++ [(c, _)]).map Prod.fst) j
    rw [map_append, map_singleton, stateAfter_concat, update_apply, hdst]
    by_cases hj : j = i
    · rw [if_pos hj, if_pos hj.symm, hj, h.state i]
    · rw [if_neg hj, if_neg (Ne.symm hj), h.state j]
  · intro as c' b bs hsplit
    rcases eq_nil_or_concat bs with rfl | ⟨bs, x, rfl⟩
    · obtain ⟨rfl, hlast⟩ := append_inj' hsplit rfl
      obtain ⟨rfl, rfl⟩ := Prod.mk.inj (singleton_inj.mp hlast)
      rw [h.state i, hdst]
    · rw [concat_eq_append, ← cons_append, ← append_assoc] at hsplit
      exact h.answer as c' b bs (append_inj' hsplit rfl).1

theorem Replayed.moved (h : n.Replayed serve init) (hr : n.Routed) (hn : Moved serve n n') :
    n'.Replayed serve init := by
  cases hn with
  | issue ch r => exact ⟨h.state, h.answer⟩
  | deliver hwire => exact ⟨h.state, h.answer⟩
  | pollCall hinbox => exact ⟨h.state, h.answer⟩
  | pollAnswer hinbox => exact ⟨h.state, h.answer⟩
  | serve hserving hqueue => exact h.serveCall hr hqueue
  | answer hserving hqueue => exact ⟨h.state, h.answer⟩

end Replay

def Numbered (n : Flow ι ρ β σ) : Prop := n.issued.map Call.id = List.range n.issued.length

omit [DecidableEq ι] in
theorem Numbered.start (init : ι → σ) : (start init : Flow ι ρ β σ).Numbered := rfl

theorem Numbered.moved (h : n.Numbered) (hn : Moved serve n n') : n'.Numbered := by
  cases hn with
  | issue ch r =>
    change (n.issued ++ [_]).map Call.id = range (n.issued ++ [_]).length
    rw [map_append, length_append, length_singleton, range_succ]
    exact congrArg (· ++ [_]) h
  | deliver hwire => exact h
  | pollCall hinbox => exact h
  | pollAnswer hinbox => exact h
  | serve hserving hqueue => exact h
  | answer hserving hqueue => exact h

structure Inv (serve : ρ → σ → σ × β) (init : ι → σ) (n : Flow ι ρ β σ) : Prop where
  routed : n.Routed
  placed : n.Placed
  replayed : n.Replayed serve init
  numbered : n.Numbered

namespace Inv

variable {init : ι → σ} {c : Call ι ρ} {a : Call ι ρ × β}

theorem start : Inv serve init (start init : Flow ι ρ β σ) :=
  ⟨.start init, .start init, .start, .start init⟩

theorem moved (h : Inv serve init n) (hn : Moved serve n n') : Inv serve init n' :=
  ⟨h.routed.moved hn, h.placed.moved h.routed hn, h.replayed.moved h.routed hn,
    h.numbered.moved hn⟩

section Once

variable (h : Inv serve init n)

include h

theorem nodup_issued : n.issued.Nodup := by
  have hids : (n.issued.map Call.id).Nodup := h.numbered ▸ nodup_range
  exact List.Nodup.of_map _ hids

theorem served_prefix_issued (ch : Channel ι) :
    callsOn ch (n.served.map Prod.fst) <+: callsOn ch n.issued :=
  ⟨_, h.placed.calls ch⟩

theorem polled_prefix_served (ch : Channel ι) : answersOn ch n.polled <+: answersOn ch n.served :=
  ⟨_, h.placed.answers ch⟩

theorem delivered_prefix_served (ch : Channel ι) :
    answersOn ch n.delivered <+: answersOn ch n.served := by
  refine ⟨n.wireAnswers ch ++ n.currentAnswers ch, ?_⟩
  rw [h.placed.delivered ch, ← h.placed.answers ch]
  simp only [append_assoc]

theorem nodup_served : (n.served.map Prod.fst).Nodup :=
  nodup_of_forall_callsOn fun ch =>
    (h.nodup_issued.filter _).sublist (h.served_prefix_issued ch).sublist

theorem nodup_of_prefix_served {as : List (Call ι ρ × β)}
    (has : ∀ ch, answersOn ch as <+: answersOn ch n.served) : (as.map Prod.fst).Nodup := by
  refine nodup_of_forall_callsOn fun ch => (h.nodup_served.filter (·.channel = ch)).sublist ?_
  change List.Sublist _ (callsOn ch (n.served.map Prod.fst))
  rw [callsOn_map_fst, callsOn_map_fst]
  exact ((has ch).map Prod.fst).sublist

theorem mem_issued (hc : c ∈ n.served.map Prod.fst) : c ∈ n.issued :=
  (mem_callsOn.mp ((h.served_prefix_issued c.channel).subset (mem_callsOn.mpr ⟨hc, rfl⟩))).1

theorem mem_served (ha : a ∈ n.polled) : a ∈ n.served :=
  (mem_answersOn.mp ((h.polled_prefix_served a.1.channel).subset (mem_answersOn.mpr ⟨ha, rfl⟩))).1

theorem mem_served_of_delivered (ha : a ∈ n.delivered) : a ∈ n.served :=
  (mem_answersOn.mp
    ((h.delivered_prefix_served a.1.channel).subset (mem_answersOn.mpr ⟨ha, rfl⟩))).1

theorem mem_delivered (ha : a ∈ n.polled) : a ∈ n.delivered := by
  have hmem : a ∈ answersOn a.1.channel n.delivered := by
    rw [h.placed.delivered]
    exact mem_append_left _ (mem_answersOn.mpr ⟨ha, rfl⟩)
  exact (mem_answersOn.mp hmem).1

theorem mem_served_iff (hc : c ∈ n.issued) : c ∈ n.served.map Prod.fst ↔
    c ∉ n.waitingCalls c.channel ++ (n.inboxCalls c.channel ++ n.wireCalls c.channel) := by
  have hcalls := h.placed.calls c.channel
  have hnodup : (callsOn c.channel n.issued).Nodup := h.nodup_issued.filter _
  have hmem : c ∈ callsOn c.channel n.issued := mem_callsOn.mpr ⟨hc, rfl⟩
  rw [← hcalls, nodup_append'] at hnodup
  rw [← hcalls, mem_append] at hmem
  constructor
  · exact fun hserved => hnodup.2.2 (mem_callsOn.mpr ⟨hserved, rfl⟩)
  · exact fun hnot => (mem_callsOn.mp (hmem.resolve_right hnot)).1

theorem mem_delivered_iff (ha : a ∈ n.served) : a ∈ n.delivered ↔
    a ∉ n.wireAnswers a.1.channel ++ n.currentAnswers a.1.channel := by
  have hanswers : answersOn a.1.channel n.delivered ++
      (n.wireAnswers a.1.channel ++ n.currentAnswers a.1.channel) =
        answersOn a.1.channel n.served := by
    rw [h.placed.delivered, ← h.placed.answers]
    simp only [append_assoc]
  have hnodup : (answersOn a.1.channel n.served).Nodup :=
    (List.Nodup.of_map _ h.nodup_served).filter _
  have hmem : a ∈ answersOn a.1.channel n.served := mem_answersOn.mpr ⟨ha, rfl⟩
  rw [← hanswers, nodup_append'] at hnodup
  rw [← hanswers, mem_append] at hmem
  constructor
  · exact fun hdelivered => hnodup.2.2 (mem_answersOn.mpr ⟨hdelivered, rfl⟩)
  · exact fun hnot => (mem_answersOn.mp (hmem.resolve_right hnot)).1

theorem exists_mem_polled {i : ι}
    (hlen : (n.issued.filter (·.channel.src = i)).length ≤ (n.polled.filter (·.1.channel.src =
      i)).length) (hc : c ∈ n.issued) (hsrc : c.channel.src = i) : ∃ b, (c, b) ∈ n.polled := by
  have hsub : ((n.polled.map Prod.fst).filter (·.channel.src = i)).Subperm
      (n.issued.filter (·.channel.src = i)) := by
    refine subperm_of_subset ((h.nodup_of_prefix_served h.polled_prefix_served).filter _) fun c' hc' => ?_
    obtain ⟨hc', hsrc'⟩ := mem_filter.mp hc'
    obtain ⟨a, ha, rfl⟩ := List.mem_map.mp hc'
    exact mem_filter.mpr ⟨h.mem_issued (List.mem_map_of_mem (h.mem_served ha)), hsrc'⟩
  have hperm := hsub.perm_of_length_le (by
    rw [List.filter_map, length_map]
    exact hlen)
  have hmem := hperm.mem_iff.mpr (mem_filter.mpr ⟨hc, decide_eq_true hsrc⟩)
  obtain ⟨⟨_, b⟩, ha, rfl⟩ := List.mem_map.mp (mem_of_mem_filter hmem)
  exact ⟨b, ha⟩

end Once

end Inv

end Flow

end Rpc
