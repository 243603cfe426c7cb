import Nvshmem.Proxy.Delivery

/-! # Flow control of the proxy channel

The device learns only now and then how far the proxy is. What it has not been told is less than
1024 bytes, so a request that leaves that much of the ring can be stored as soon as it is the next
one. Then the thread that has reserved it or the proxy can go on.
-/

namespace Nvshmem.Proxy

open Lists Transition List

def Reservation.Written (r : Reservation) : Prop := r.request.entries.length ≤ r.stored

def Request.Admissible (cfg : Setup) (req : Request) : Prop := req.bytes + 1023 ≤ cfg.bufSize

def Action.Continues : Action → Prop
  | .reserve .. | .quiet _ => False
  | _ => True

namespace Channel

/-- What the device knows is late by less than 1024 bytes. When all requests that are written have
been consumed, the first one that is not written has room, and while the next request has not been
consumed, a thread can go on. -/
structure FlowControlled (cfg : Setup) (s : Channel) : Prop where
  complete_le : s.complete ≤ s.processed
  processed_lt : s.processed < s.complete + 1024
  available : (∀ (i : ℕ) (r : Reservation), s.reservations[i]? = some r → r.Written →
      i < s.consumed.length) →
    ∀ (i : ℕ) (r : Reservation), s.reservations[i]? = some r → ¬ r.Written →
      (∀ (j : ℕ) (r' : Reservation), j < i → s.reservations[j]? = some r' → r'.Written) →
      r.request.Admissible cfg → r.tail ≤ s.complete + (cfg.bufSize - 1)
  proceeds : ∀ r : Reservation, s.reservations[s.consumed.length]? = some r → r.request.Admissible cfg →
    ∃ a t, a.Continues ∧ s.step cfg a = some t

variable {cfg : Setup} {s t : Channel} {r r' : Reservation} {i : ℕ}

/-- The proxy tells the device at the last call that it notices, and a thread returns after it has
stored its request. -/
structure Batched (s : Channel) : Prop where
  lastSync_eq : s.lastSync = s.complete
  processed_lt : s.processed < s.complete + 1024
  returned : ∀ r ∈ s.reservations, r.phase = .returned → r.Written

namespace Batched

theorem init : Batched .init := ⟨rfl, by decide, fun _ hr => absurd hr not_mem_nil⟩

theorem set (h : s.Batched) (hr' : r'.phase = .returned → r'.Written) :
    Batched { s with reservations := s.reservations.set i r' } :=
  { h with returned := forall_mem_set h.returned hr' }

theorem update (h : s.Batched) (hs : s.update = some t) : t.Batched := by
  obtain ⟨words, result, -, rfl⟩ := update_eq_some.mp hs
  cases hsync : s.synced result with
  | true => exact ⟨by simp, by simp, h.returned⟩
  | false =>
    have hlt : s.processed + result.bytes - s.lastSync < 1024 := by
      simp only [synced, Bool.or_eq_false_iff, decide_eq_false_iff_not, not_le] at hsync
      exact hsync.1
    have hsame := h.lastSync_eq
    refine ⟨by simpa using hsame, ?_, h.returned⟩
    simp only [Bool.false_eq_true, if_false]
    omega

theorem step (h : s.Batched) {a : Action} (hs : s.step cfg a = some t) : t.Batched := by
  cases a with
  | reserve thread request =>
    obtain ⟨-, rfl⟩ := reserve_eq_some.mp hs
    exact { h with returned := forall_mem_concat h.returned fun hp => (by cases hp) }
  | checkAvailability i =>
    obtain ⟨r, r', hr, hr', rfl⟩ := advance_eq_some.mp hs
    split_ifs at hr' <;> cases hr' <;>
      exact h.set fun hp => (by cases hp)
  | waitAvailability i | readComplete i =>
    obtain ⟨r, r', hr, hr', rfl⟩ := advance_eq_some.mp hs
    split_ifs at hr'
    cases hr'
    exact h.set fun hp => (by cases hp)
  | finish i =>
    obtain ⟨r, r', hr, hr', rfl⟩ := advance_eq_some.mp hs
    split_ifs at hr' with hfinish
    cases hr'
    exact h.set fun _ => hfinish.2.1.ge
  | refresh i =>
    obtain ⟨r, c, hr, -, rfl⟩ := refresh_eq_some.mp hs
    exact { h with returned := forall_mem_set h.returned fun hp => (by cases hp) }
  | store i =>
    obtain ⟨r, payload, hr, hphase, -, rfl⟩ := store_eq_some.mp hs
    refine { h with returned := forall_mem_set h.returned fun hp => ?_ }
    cases hphase.symm.trans hp
  | pollBase =>
    obtain ⟨-, -, -, rfl⟩ := pollBase_eq_some.mp (of_running hs)
    exact { h with }
  | readBase =>
    obtain ⟨-, ⟨kind, -, rfl⟩ | ⟨-, rfl⟩⟩ := readBase_eq_some.mp (of_running hs)
    · exact { h with }
    · exact { h with }
  | pollEntry =>
    obtain ⟨base, kind, seen, -, -, -, rfl⟩ := pollEntry_eq_some.mp (of_running hs)
    exact { h with }
  | handle =>
    obtain ⟨base, kind, -, rfl⟩ := handle_eq_some.mp (of_running hs)
    exact { h with }
  | update => exact h.update (of_running hs)
  | quiet _ | announceQuiet _ | finishQuiet _ | checkQuiet | readQuiet | testQuiet | quietAll
  | ackQuiet =>
    obtain ⟨_, _, _, _, _, _, rfl⟩ := exists_quiet hs trivial
    exact { h with }

theorem of_reachable (h : Reachable (Channel.step cfg) Channel.init s) : s.Batched :=
  h.invariant .init fun hu hs => hu.step hs

end Batched

theorem Inv.tail_le (h : s.Inv cfg) (hb : s.Batched) (hr : s.reservations[s.consumed.length]? = some r)
    (hadm : r.request.Admissible cfg) : r.tail ≤ s.complete + (cfg.bufSize - 1) := by
  have hstart : r.start = s.processed := by
    rw [h.layout.start_eq _ r hr, h.consumption.processed_eq, requests]
  have hlt := hb.processed_lt
  have hbytes := r.request.bytes_pos
  rw [Request.Admissible] at hadm
  rw [Reservation.tail]
  omega

theorem Inv.eq_consumed (h : s.Inv cfg)
    (hall : ∀ (i : ℕ) (r : Reservation), s.reservations[i]? = some r → r.Written →
      i < s.consumed.length)
    (hi : s.reservations[i]? = some r) (hnot : ¬ r.Written)
    (hfirst : ∀ (j : ℕ) (r' : Reservation), j < i → s.reservations[j]? = some r' → r'.Written) :
    i = s.consumed.length := by
  apply le_antisymm
  · cases i with
    | zero => exact Nat.zero_le _
    | succ j =>
      obtain ⟨r', hr'⟩ : ∃ r', s.reservations[j]? = some r' :=
        ⟨_, getElem?_eq_getElem ((Nat.lt_succ_self j).trans (List.getElem?_eq_some_iff.mp hi).1)⟩
      exact hall j r' hr' (hfirst j r' (Nat.lt_succ_self j) hr')
  · by_contra hlt
    exact hnot (h.delivered.stored i r (not_le.mp hlt) hi)

theorem thread_proceeds (hb : s.Batched) (hi : s.reservations[i]? = some r) (hnot : ¬ r.Written)
    (htail : r.tail ≤ s.complete + (cfg.bufSize - 1)) :
    ∃ a t, a.Continues ∧ s.step cfg a = some t := by
  cases hphase : r.phase with
  | reserved =>
    refine ⟨.checkAvailability i, _, trivial, advance_eq_some.mpr ⟨r, _, hi, if_pos hphase, rfl⟩⟩
  | waiting =>
    refine ⟨.waitAvailability i, _, trivial,
      advance_eq_some.mpr ⟨r, _, hi, if_pos ⟨hphase, htail⟩, rfl⟩⟩
  | available =>
    refine ⟨.readComplete i, _, trivial, advance_eq_some.mpr ⟨r, _, hi, if_pos hphase, rfl⟩⟩
  | refreshing c => exact ⟨.refresh i, _, trivial, refresh_eq_some.mpr ⟨r, c, hi, hphase, rfl⟩⟩
  | storing =>
    have hpayload := getElem?_eq_getElem (not_le.mp hnot)
    exact ⟨.store i, _, trivial, store_eq_some.mpr ⟨r, _, hi, hphase, hpayload, rfl⟩⟩
  | returned => exact absurd (hb.returned r (mem_of_getElem? hi) hphase) hnot

section Host

variable (h : s.Inv cfg) (hr : s.reservations[s.consumed.length]? = some r) (hwritten : r.Written)

include h hr hwritten

theorem Inv.written_next {k : ℕ} (hk : k < r.request.entries.length) :
    s.written (offset s.requests s.consumed.length + k) ≠ none := by
  have heq := h.stores.written_eq _ r hr k _ (getElem?_eq_getElem hk)
  rw [if_pos (hk.trans_le hwritten)] at heq
  rw [requests, heq]
  exact Option.some_ne_none _

theorem Inv.flagByte_next {k : ℕ} (hk : k < r.request.entries.length) :
    flagByte (s.entry cfg k) = channelFlag cfg.logSize (s.processed + channelEntryBytes * k) := by
  have hpayload := getElem?_eq_getElem hk
  rw [h.entry_eq_wordAt (getElem?_map_request hr) hpayload (h.written_next hr hwritten hk), wordAt,
    flagByte_stamped (field_flag _ _ (getElem_mem hk)), h.consumption.processed_eq,
    ← Nat.mul_add]

theorem Inv.host_proceeds : ∃ a t, a.Continues ∧ s.step cfg a = some t := by
  have hrunning {next : Option Channel} : (if s.exited then none else next) = next := by
    rw [h.running]
    exact if_neg Bool.false_ne_true
  have hhost := h.host
  cases hphase : s.host with
  | polling =>
    have hpos := length_pos_of_ne_nil r.request.entries_ne_nil
    have hflag : flagByte (s.entry cfg 0) &&& 1 = channelFlag cfg.logSize s.processed := by
      rw [h.flagByte_next hr hwritten hpos, channelFlag_and_one]
      rfl
    cases hquiet : s.quietInProgress with
    | inactive =>
      exact ⟨.pollBase, _, trivial,
        hrunning.trans (pollBase_eq_some.mpr ⟨hphase, .inl hquiet, hflag, rfl⟩)⟩
    | inProgress =>
      exact ⟨.pollBase, _, trivial,
        hrunning.trans (pollBase_eq_some.mpr ⟨hphase, .inr hquiet, hflag, rfl⟩)⟩
    | issued =>
      exact ⟨.readQuiet, _, trivial, hrunning.trans (readQuiet_eq_some.mpr ⟨hquiet, rfl⟩)⟩
    | done => exact ⟨.quietAll, _, trivial, hrunning.trans (quietAll_eq_some.mpr ⟨hquiet, rfl⟩)⟩
    | quieted =>
      exact ⟨.ackQuiet, _, trivial, hrunning.trans (ackQuiet_eq_some.mpr ⟨hquiet, rfl⟩)⟩
  | found =>
    cases hdispatch : dispatch (baseOp (s.entry cfg 0)) with
    | none =>
      exact ⟨.readBase, _, trivial,
        hrunning.trans (readBase_eq_some.mpr ⟨hphase, .inr ⟨hdispatch, rfl⟩⟩)⟩
    | some kind =>
      exact ⟨.readBase, _, trivial,
        hrunning.trans (readBase_eq_some.mpr ⟨hphase, .inl ⟨kind, hdispatch, rfl⟩⟩)⟩
  | waiting base kind seen =>
    rw [hphase] at hhost
    obtain ⟨req, hreq, -, -, hawaited, -, hseen, -⟩ := hhost
    obtain rfl : r.request = req := Option.some.inj ((getElem?_map_request hr).symm.trans hreq)
    rcases hseen.eq_or_lt with heq | hlt
    · rw [heq, ← hawaited] at hphase
      exact ⟨.handle, _, trivial, hrunning.trans (handle_eq_some.mpr ⟨base, kind, hphase, rfl⟩)⟩
    · exact ⟨.pollEntry, _, trivial, hrunning.trans (pollEntry_eq_some.mpr
        ⟨base, kind, seen, hphase, hawaited ▸ hlt, h.flagByte_next hr hwritten hlt, rfl⟩)⟩
  | handled words result =>
    exact ⟨.update, _, trivial, hrunning.trans (update_eq_some.mpr ⟨words, result, hphase, rfl⟩)⟩

end Host

/-- For any threads, requests and interleaving, flow control does not deadlock. -/
theorem flowControlled_of_reachable (h : Reachable (step cfg) init s) : s.FlowControlled cfg := by
  have hi := Inv.of_reachable h
  have hb := Batched.of_reachable h
  refine ⟨hi.complete_le, hb.processed_lt, ?_, ?_⟩
  · intro hall i r hr hnot hfirst hadm
    obtain rfl := hi.eq_consumed hall hr hnot hfirst
    exact hi.tail_le hb hr hadm
  · intro r hr hadm
    by_cases hwritten : r.Written
    · exact hi.host_proceeds hr hwritten
    · exact thread_proceeds hb hr hwritten (hi.tail_le hb hr hadm)

def twoKilobytes : Setup := ⟨11, by decide, fourEntries.job⟩

def putThenReserve : List Action :=
  [.reserve 0 (.dma .put 0x40 0x7000 16 1 qpDefault), .checkAvailability 0, .store 0, .store 0,
    .store 0, .store 0, .pollBase, .readBase, .pollEntry, .pollEntry, .pollEntry, .handle, .update,
    .finish 0, .reserve 0 (.dma .put 0x80 0x8000 16 1 qpDefault)]

theorem flowControlled_putThenReserve : ∃ s,
    exec (step twoKilobytes) init putThenReserve = some s ∧ s.processed = 32 ∧ s.complete = 0 ∧
      s.FlowControlled twoKilobytes := by
  refine exists_of_exec (fun s => s.processed = 32 ∧ s.complete = 0) (by decide +kernel) ?_
  rintro s hs ⟨hprocessed, hcomplete⟩
  exact ⟨hprocessed, hcomplete, flowControlled_of_reachable (.of_exec hs)⟩

end Channel

end Nvshmem.Proxy
