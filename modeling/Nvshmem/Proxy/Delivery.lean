import Nvshmem.Proxy.Layout

/-! # Delivery of requests

Entries are stored only where they are less than a lap ahead of the proxy, so the ring is
one of flagged words, and the flags that the proxy waits for are those of the entries of
the request that was reserved at `processed`.
-/

namespace Nvshmem.Proxy

open Lists Transition List Option Reservation

namespace Channel

def requests (s : Channel) : List Request := s.reservations.map (·.request)

structure Inv (cfg : Setup) (s : Channel) : Prop where
  layout : Layout s.reservations s.issue
  room : Room cfg s.reservations s.complete
  completeLocal_le : s.completeLocal ≤ s.complete
  complete_le : s.complete ≤ s.processed
  stores : Stores cfg s.reservations s.written
  consumption : Consumption cfg s.requests s.consumed s.processed
  ring : Ring.Valid cfg.slots flagBit lapFlag (offset s.requests s.consumed.length) s.written
    (s.buf ∘ (channelEntryBytes * ·))
  host : HostInv cfg s.requests s.consumed.length s.written s.host
  running : s.exited = false

/-- Requests are consumed in the order of their reservations, each once, after all their entries
have been stored and as they have been stored, and no entry is overwritten before that. -/
structure Delivered (cfg : Setup) (s : Channel) : Prop where
  consumed_eq : s.consumed = (s.reservations.take s.consumed.length).map (Reservation.words cfg)
  processed_eq :
    s.processed = ((s.reservations.take s.consumed.length).map (·.request.bytes)).sum
  stored : ∀ i r, i < s.consumed.length → s.reservations[i]? = some r →
    r.request.entries.length ≤ r.stored
  waiting : ∀ base kind seen, s.host = .waiting base kind seen →
    ∃ r, s.reservations[s.consumed.length]? = some r ∧ (r.words cfg)[0]? = some base ∧
      kind = r.request.kind ∧ seen ≤ r.stored
  handled : ∀ words result, s.host = .handled words result →
    ∃ r, s.reservations[s.consumed.length]? = some r ∧ words = r.words cfg ∧
      result = ⟨r.request.decoded, r.request.bytes, decide (r.request.kind = .qpQuiet)⟩
  intact : ∀ i r k payload, s.consumed.length ≤ i → s.reservations[i]? = some r →
    r.request.entries[k]? = some payload → k < r.stored →
      s.buf (slot cfg.logSize (r.start + channelEntryBytes * k)) =
        stamped payload (channelFlag cfg.logSize (r.start + channelEntryBytes * k))
  running : s.exited = false

variable {cfg : Setup} {s t : Channel} {r r' : Reservation} {i : ℕ}

theorem bufSize_pos (cfg : Setup) : 0 < cfg.bufSize := Nat.pow_pos (by decide)

theorem fits_of_tail {complete : ℕ} (h : r.tail ≤ complete + (cfg.bufSize - 1)) :
    r.start + r.request.bytes ≤ complete + cfg.bufSize := by
  have hsize := bufSize_pos cfg
  rw [Reservation.tail] at h
  omega

namespace Inv

theorem init : Inv cfg .init where
  layout := ⟨by simp [Channel.init], rfl⟩
  room := ⟨by simp [Channel.init], by simp [Channel.init], by simp [Channel.init]⟩
  completeLocal_le := le_rfl
  complete_le := le_rfl
  stores := ⟨by simp [Channel.init], fun _ _ => rfl⟩
  consumption := ⟨rfl, by simp [Channel.init]⟩
  ring := Ring.Valid.init fun p _ => by
    change flagBit 0 ≠ lapFlag 0
    decide
  host := trivial
  running := rfl

section Facts

variable (h : s.Inv cfg)
include h

theorem reserve {thread : ℕ} {request : Request} (hs : s.reserve cfg thread request = some t) :
    t.Inv cfg := by
  obtain ⟨-, rfl⟩ := reserve_eq_some.mp hs
  have hlen := h.consumption.length_le
  have hreqs : requests { s with
      issue := s.issue + request.bytes
      reservations := s.reservations ++ [⟨thread, s.issue, request, .reserved, 0⟩] } =
      s.requests ++ [request] := by
    rw [requests, map_append]
    rfl
  refine ⟨h.layout.append, h.room.append, h.completeLocal_le, h.complete_le, h.stores.append, ?_,
    ?_, ?_, h.running⟩
  · rw [hreqs]
    exact h.consumption.append
  · rw [hreqs, offset_append hlen]
    exact h.ring
  · rw [hreqs]
    exact h.host.append hlen

theorem set (hi : s.reservations[i]? = some r) (hstart : r'.start = r.start)
    (hreq : r'.request = r.request) (hstored : r'.stored = r.stored)
    (hfits : r'.phase ≠ .reserved → r'.phase ≠ .waiting → r.start + r.request.bytes ≤ s.complete +
      cfg.bufSize) (hrefreshing : ∀ c, r'.phase = .refreshing c → c ≤ s.complete)
    (hblank : r'.phase = .reserved ∨ r'.phase = .waiting → r.stored = 0) :
    Inv cfg { s with reservations := s.reservations.set i r' } := by
  have hreqs : requests { s with reservations := s.reservations.set i r' } = s.requests :=
    map_set_eq request hi hreq
  refine ⟨h.layout.set hi hstart hreq, h.room.set ?_ hrefreshing ?_, h.completeLocal_le,
    h.complete_le, h.stores.set hi hreq hstored, ?_, ?_, ?_, h.running⟩
  · rw [hstart, hreq]
    exact hfits
  · rw [hstored]
    exact hblank
  · rw [hreqs]
    exact h.consumption
  · rw [hreqs]
    exact h.ring
  · rw [hreqs]
    exact h.host

theorem checkAvailability (hs : s.checkAvailability cfg i = some t) : t.Inv cfg := by
  obtain ⟨r, r', hi, hr', rfl⟩ := advance_eq_some.mp hs
  split_ifs at hr' with hphase hwait <;> cases hr'
  · have hblank := h.room.blank r (mem_of_getElem? hi) (Or.inl hphase)
    exact h.set hi rfl rfl rfl (fun _ hne => absurd rfl hne) (fun _ hc => nomatch hc)
      fun _ => hblank
  · rw [Nat.add_sub_assoc (bufSize_pos cfg)] at hwait
    refine h.set hi rfl rfl rfl (fun _ _ => ?_) (fun _ hc => nomatch hc) (by simp)
    exact (fits_of_tail (not_lt.mp hwait)).trans (Nat.add_le_add_right h.completeLocal_le _)

theorem waitAvailability (hs : s.waitAvailability cfg i = some t) : t.Inv cfg := by
  obtain ⟨r, r', hi, hr', rfl⟩ := advance_eq_some.mp hs
  split_ifs at hr' with hphase
  cases hr'
  exact h.set hi rfl rfl rfl (fun _ _ => fits_of_tail hphase.2) (fun _ hc => nomatch hc) (by simp)

theorem readComplete (hs : s.readComplete i = some t) : t.Inv cfg := by
  obtain ⟨r, r', hi, hr', rfl⟩ := advance_eq_some.mp hs
  split_ifs at hr' with hphase
  cases hr'
  refine h.set hi rfl rfl rfl (fun _ _ => ?_) (fun c hc => ?_) (by simp)
  · exact h.room.fits r (mem_of_getElem? hi) (by simp [hphase]) (by simp [hphase])
  · exact (Phase.refreshing.inj hc).ge

theorem refresh (hs : s.refresh i = some t) : t.Inv cfg := by
  obtain ⟨r, c, hi, hphase, rfl⟩ := refresh_eq_some.mp hs
  have hr := mem_of_getElem? hi
  have hlocal : Inv cfg { s with completeLocal := max s.completeLocal c } :=
    { h with
      completeLocal_le := max_le h.completeLocal_le (h.room.refreshing r hr c hphase) }
  refine hlocal.set hi rfl rfl rfl (fun _ _ => ?_) (fun _ hc => nomatch hc) (by simp)
  exact h.room.fits r hr (by simp [hphase]) (by simp [hphase])

theorem finish (hs : s.finish i = some t) : t.Inv cfg := by
  obtain ⟨r, r', hi, hr', rfl⟩ := advance_eq_some.mp hs
  split_ifs at hr' with hphase
  cases hr'
  refine h.set hi rfl rfl rfl (fun _ _ => ?_) (fun _ hc => nomatch hc) (by simp)
  exact h.room.fits r (mem_of_getElem? hi) (by simp [hphase.1]) (by simp [hphase.1])

theorem position_eq (hi : s.reservations[i]? = some r) (k : ℕ) :
    r.start + channelEntryBytes * k = channelEntryBytes * (offset s.requests i + k) := by
  rw [h.layout.start_eq i r hi, Nat.mul_add]
  rfl

theorem lt_offset_add_slots (hi : s.reservations[i]? = some r) (hphase : r.phase = .storing)
    (hlt : r.stored < r.request.entries.length) :
    offset s.requests i + r.stored < offset s.requests s.consumed.length + cfg.slots := by
  have hfits := h.room.fits r (mem_of_getElem? hi) (by simp [hphase]) (by simp [hphase])
  have hposition := h.position_eq hi r.stored
  have hprocessed := h.consumption.processed_eq
  have hcomplete := h.complete_le
  rw [r.request.bytes_eq, bufSize_eq] at hfits
  rw [channelEntryBytes] at hfits hposition hprocessed
  omega

theorem exists_store (hs : s.store cfg i = some t) :
    ∃ r payload, s.reservations[i]? = some r ∧ r.phase = .storing ∧
      r.request.entries[r.stored]? = some payload ∧
      t = { s with
        buf := Function.update s.buf
          (channelEntryBytes * ((offset s.requests i + r.stored) % cfg.slots))
          (wordAt cfg (offset s.requests i + r.stored) payload)
        written := Function.update s.written (offset s.requests i + r.stored)
          (some (wordAt cfg (offset s.requests i + r.stored) payload))
        reservations := s.reservations.set i { r with stored := r.stored + 1 } } := by
  obtain ⟨r, payload, hi, hphase, hpayload, rfl⟩ := store_eq_some.mp hs
  refine ⟨r, payload, hi, hphase, hpayload, ?_⟩
  rw [h.position_eq hi, Nat.mul_div_cancel_left _ (by decide), slot_entry, ← wordAt]

theorem store (hs : s.store cfg i = some t) : t.Inv cfg := by
  obtain ⟨r, payload, hi, hphase, hpayload, rfl⟩ := h.exists_store hs
  have hmem := mem_of_getElem? hi
  have hahead := h.lt_offset_add_slots hi hphase (List.getElem?_eq_some_iff.mp hpayload).1
  have hunwritten : s.written (offset s.requests i + r.stored) = none := by
    rw [requests, h.stores.written_eq i r hi _ payload hpayload, if_neg (Nat.lt_irrefl _)]
  have hreqs : (s.reservations.set i { r with stored := r.stored + 1 }).map (·.request) =
      s.requests := map_set_eq request hi rfl
  refine ⟨h.layout.set hi rfl rfl, h.room.set (h.room.fits r hmem) (h.room.refreshing r hmem) ?_,
    h.completeLocal_le, h.complete_le, h.stores.store hi hpayload rfl rfl, ?_, ?_, ?_, h.running⟩
  · rintro (hp | hp) <;> exact nomatch hphase.symm.trans hp
  · rw [requests, hreqs]
    exact h.consumption
  · rw [requests, hreqs, Function.update_comp_eq_of_injective _ entryBytes_injective]
    exact h.ring.store hunwritten hahead (flagBit_wordAt (mem_of_getElem? hpayload))
  · rw [requests, hreqs]
    exact h.host.mono fun p => update_ne_none

theorem entry_eq (k : ℕ) : s.entry cfg k =
    s.buf (channelEntryBytes * ((offset s.requests s.consumed.length + k) % cfg.slots)) := by
  rw [entry, h.consumption.processed_eq, ← Nat.mul_add, slot_entry]

end Facts

theorem getElem?_reservations {n : ℕ} {req : Request} (hn : s.requests[n]? = some req) :
    ∃ r, s.reservations[n]? = some r ∧ r.request = req := by
  rw [requests, getElem?_map] at hn
  exact map_eq_some_iff.mp hn

section Keeps

variable (h : s.Inv cfg)
include h

theorem entry_eq_wordAt {req : Request} {payload : BitVec 64} {k : ℕ}
    (hn : s.requests[s.consumed.length]? = some req) (hk : req.entries[k]? = some payload)
    (hw : s.written (offset s.requests s.consumed.length + k) ≠ none) :
    s.entry cfg k = wordAt cfg (offset s.requests s.consumed.length + k) payload := by
  obtain ⟨r, hr, rfl⟩ := getElem?_reservations hn
  have hwritten := h.stores.written_eq _ r hr k payload hk
  split_ifs at hwritten with hstored
  · rw [h.entry_eq]
    exact h.ring.buf_eq (Nat.le_add_right ..) hwritten
  · exact absurd hwritten hw

/-- The flag of the lap at an entry of the request at `processed` means that it is written. -/
theorem written_of_flagBit {k : ℕ} (hk : k < cfg.slots)
    (hflag : flagBit (s.entry cfg k) = channelFlag cfg.logSize (s.processed + channelEntryBytes *
      k)) : s.written (offset s.requests s.consumed.length + k) ≠ none := by
  rw [h.consumption.processed_eq, ← Nat.mul_add, channelFlag_entry, h.entry_eq] at hflag
  rw [h.ring.written_of_flag lapFlag_succ_ne (Nat.add_lt_add_left hk _) (Nat.le_add_right ..)
    hflag]
  exact some_ne_none _

theorem request_of_written (hw : s.written (offset s.requests s.consumed.length) ≠ none) :
    ∃ req, s.requests[s.consumed.length]? = some req ∧ req.entries.length ≤ cfg.slots := by
  have hlt : s.consumed.length < s.reservations.length := by
    by_contra hle
    exact hw (h.stores.unwritten _ (offset_mono (not_lt.mp hle)))
  obtain ⟨r, hr⟩ : ∃ r, s.reservations[s.consumed.length]? = some r :=
    ⟨_, getElem?_eq_getElem hlt⟩
  refine ⟨r.request, getElem?_map_request hr, ?_⟩
  have hmem := mem_of_getElem? hr
  obtain ⟨payload, hpayload⟩ := r.request.exists_first
  have hstored : r.stored ≠ 0 := by
    intro hzero
    have hwritten := h.stores.written_eq _ r hr 0 payload hpayload
    rw [hzero, if_neg (Nat.lt_irrefl 0)] at hwritten
    exact hw hwritten
  have hfits := h.room.fits r hmem (fun hp => hstored (h.room.blank r hmem (.inl hp)))
    fun hp => hstored (h.room.blank r hmem (.inr hp))
  have hstart := h.layout.start_eq _ r hr
  have hprocessed := h.consumption.processed_eq
  have hcomplete := h.complete_le
  rw [requests] at hprocessed
  rw [r.request.bytes_eq, bufSize_eq, hstart, ← hprocessed, channelEntryBytes] at hfits
  omega

theorem reads_entry {req : Request} (hn : s.requests[s.consumed.length]? = some req)
    (hw : ∀ k < req.entries.length, s.written (offset s.requests s.consumed.length + k) ≠ none) :
    Reads (s.entry cfg) req fun k =>
      channelFlag cfg.logSize (channelEntryBytes * (offset s.requests s.consumed.length + k)) := by
  intro k payload hk
  exact h.entry_eq_wordAt hn hk (hw k (List.getElem?_eq_some_iff.mp hk).1)

theorem map_entry_eq {req : Request} (hn : s.requests[s.consumed.length]? = some req)
    (hw : ∀ k < req.entries.length, s.written (offset s.requests s.consumed.length + k) ≠ none) :
    (range req.entries.length).map (s.entry cfg) =
      req.words cfg (offset s.requests s.consumed.length) := by
  apply ext_getElem
  · rw [Request.words, length_map, length_range, length_mapIdx]
  · intro k hk hk'
    rw [length_map, length_range] at hk
    rw [getElem_map, getElem_range]
    simp only [Request.words, getElem_mapIdx]
    exact h.entry_eq_wordAt hn (getElem?_eq_getElem hk) (hw k hk)

theorem pollBase (hs : s.pollBase cfg = some t) : t.Inv cfg := by
  obtain ⟨-, -, hflag, rfl⟩ := pollBase_eq_some.mp hs
  exact { h with host := h.written_of_flagBit (k := 0) (Nat.pow_pos (by decide)) hflag }

theorem readBase (hs : s.readBase cfg = some t) : t.Inv cfg := by
  obtain ⟨hhost, hs⟩ := readBase_eq_some.mp hs
  have hw : s.written (offset s.requests s.consumed.length) ≠ none := by
    have hinv := h.host
    rwa [hhost] at hinv
  obtain ⟨req, hreq, hslots⟩ := h.request_of_written hw
  obtain ⟨payload, hpayload⟩ := req.exists_first
  have hentry := h.entry_eq_wordAt hreq hpayload hw
  obtain ⟨hdispatch, hawaited⟩ := dispatch_first
    (channelFlag cfg.logSize (channelEntryBytes * offset s.requests s.consumed.length)) hpayload
  rw [Nat.add_zero, wordAt] at hentry
  rw [hentry, hdispatch] at hs
  rcases hs with ⟨kind, hkind, rfl⟩ | ⟨hnone, -⟩
  · cases hkind
    refine { h with host := ⟨req, hreq, ?_, rfl, hawaited, hslots, ?_, ?_⟩ }
    · rw [Request.words, getElem?_mapIdx, hpayload]
      rfl
    · exact length_pos_of_ne_nil req.entries_ne_nil
    · intro k hk
      obtain rfl : k = 0 := by omega
      exact hw
  · exact absurd hnone (some_ne_none _)

theorem pollEntry (hs : s.pollEntry cfg = some t) : t.Inv cfg := by
  obtain ⟨base, kind, seen, hhost, hseen, hflag, rfl⟩ := pollEntry_eq_some.mp hs
  have hinv := h.host
  rw [hhost] at hinv
  obtain ⟨req, hreq, hbase, hkind, hawaited, hslots, -, hw⟩ := hinv
  rw [hawaited] at hseen
  have hbit : flagBit (s.entry cfg seen) =
      channelFlag cfg.logSize (s.processed + channelEntryBytes * seen) := by
    rw [flagBit, hflag, channelFlag_and_one]
  refine { h with host := ⟨req, hreq, hbase, hkind, hawaited, hslots, hseen, ?_⟩ }
  intro k hk
  rcases Nat.lt_succ_iff_lt_or_eq.mp hk with hk | rfl
  · exact hw k hk
  · exact h.written_of_flagBit (hseen.trans_le hslots) hbit

theorem handle (hs : s.handle cfg = some t) : t.Inv cfg := by
  obtain ⟨base, kind, hhost, rfl⟩ := handle_eq_some.mp hs
  have hinv := h.host
  rw [hhost] at hinv
  obtain ⟨req, hreq, -, rfl, hawaited, -, -, hw⟩ := hinv
  rw [hawaited] at hw ⊢
  obtain ⟨-, -, hresult⟩ := process_eq (h.reads_entry hreq hw)
  exact { h with host := ⟨req, hreq, h.map_entry_eq hreq hw, hresult, hw⟩ }

theorem update (hs : s.update = some t) : t.Inv cfg := by
  obtain ⟨words, result, hhost, rfl⟩ := update_eq_some.mp hs
  have hinv := h.host
  rw [hhost] at hinv
  obtain ⟨req, hreq, rfl, rfl, hw⟩ := hinv
  have hsucc := offset_succ hreq
  have hcomplete : s.complete ≤ s.processed + req.bytes :=
    h.complete_le.trans (Nat.le_add_right ..)
  have hmono : s.complete ≤ if s.synced ⟨req.decoded, req.bytes, decide (req.kind = .qpQuiet)⟩
      then s.processed + req.bytes else s.complete := by
    split_ifs
    · exact hcomplete
    · exact le_rfl
  refine ⟨h.layout, h.room.mono hmono, h.completeLocal_le.trans hmono, ?_, h.stores, ?_, ?_,
    trivial, h.running⟩
  · dsimp only
    split_ifs
    · exact le_rfl
    · exact hcomplete
  · exact h.consumption.concat hreq
  · change Ring.Valid _ _ _ (offset s.requests (s.consumed ++ [_]).length) _ _
    rw [length_append, length_singleton, hsucc]
    refine h.ring.advance (Nat.le_add_right ..) fun p hp => ?_
    rcases Nat.lt_or_ge p (offset s.requests s.consumed.length) with hlt | hge
    · exact h.ring.released p hlt
    · obtain ⟨k, rfl⟩ := Nat.exists_eq_add_of_le hge
      exact hw k (Nat.lt_of_add_lt_add_left hp)

theorem step {a : Action} (hs : s.step cfg a = some t) : t.Inv cfg := by
  cases a with
  | reserve thread request => exact h.reserve hs
  | checkAvailability i => exact h.checkAvailability hs
  | waitAvailability i => exact h.waitAvailability hs
  | readComplete i => exact h.readComplete hs
  | refresh i => exact h.refresh hs
  | store i => exact h.store hs
  | finish i => exact h.finish hs
  | pollBase => exact h.pollBase (of_running hs)
  | readBase => exact h.readBase (of_running hs)
  | pollEntry => exact h.pollEntry (of_running hs)
  | handle => exact h.handle (of_running hs)
  | update => exact h.update (of_running hs)
  | quiet _ | announceQuiet _ | finishQuiet _ | checkQuiet | readQuiet | testQuiet | quietAll
  | ackQuiet =>
    obtain ⟨_, _, _, _, _, _, rfl⟩ := exists_quiet hs trivial
    exact { h with }

end Keeps

theorem of_reachable (h : Reachable (Channel.step cfg) Channel.init s) : s.Inv cfg :=
  h.invariant .init fun hu hs => hu.step hs

theorem words_eq (h : s.Inv cfg) (hi : s.reservations[i]? = some r) :
    r.words cfg = r.request.words cfg (offset s.requests i) := by
  rw [words]
  congr 1
  funext k payload
  rw [h.position_eq hi, wordAt]

theorem le_stored_of_written (h : s.Inv cfg) (hi : s.reservations[i]? = some r) {m : ℕ}
    (hm : m ≤ r.request.entries.length)
    (hw : ∀ k < m, s.written (offset s.requests i + k) ≠ none) : m ≤ r.stored := by
  by_contra hlt
  rw [not_le] at hlt
  have hwritten := h.stores.written_eq i r hi _ _ (getElem?_eq_getElem (hlt.trans_le hm))
  rw [if_neg (Nat.lt_irrefl _)] at hwritten
  exact hw _ hlt hwritten

theorem delivered (h : s.Inv cfg) : s.Delivered cfg where
  consumed_eq := by
    apply ext_getElem?
    intro n
    rw [getElem?_map, getElem?_take]
    split_ifs with hlt
    · obtain ⟨req, hreq, hwords⟩ := h.consumption.consumed_eq n _ (getElem?_eq_getElem hlt)
      obtain ⟨r, hr, rfl⟩ := getElem?_reservations hreq
      rw [hr, map_some, h.words_eq hr, ← hwords, getElem?_eq_getElem hlt]
    · rw [getElem?_eq_none (not_lt.mp hlt), map_none]
  processed_eq := by
    rw [h.consumption.processed_eq, ← sum_bytes, requests, ← map_take, List.map_map]
    rfl
  stored := by
    intro i r hlt hi
    apply h.le_stored_of_written hi le_rfl
    intro k hk
    have hle := offset_add_le (getElem?_map_request hi) hlt
    exact h.ring.released _ ((Nat.add_lt_add_left hk _).trans_le hle)
  waiting := by
    intro base kind seen hhost
    have hinv := h.host
    rw [hhost] at hinv
    obtain ⟨req, hreq, hbase, hkind, -, -, hseen, hw⟩ := hinv
    obtain ⟨r, hr, rfl⟩ := getElem?_reservations hreq
    refine ⟨r, hr, ?_, hkind, h.le_stored_of_written hr hseen hw⟩
    rw [h.words_eq hr]
    exact hbase
  handled := by
    intro words result hhost
    have hinv := h.host
    rw [hhost] at hinv
    obtain ⟨req, hreq, hwords, hresult, hw⟩ := hinv
    obtain ⟨r, hr, rfl⟩ := getElem?_reservations hreq
    refine ⟨r, hr, ?_, hresult⟩
    rw [hwords, h.words_eq hr]
  intact := by
    intro i r k payload hle hi hk hstored
    have hwritten := h.stores.written_eq i r hi k payload hk
    rw [if_pos hstored] at hwritten
    rw [h.position_eq hi, slot_entry]
    exact h.ring.buf_eq ((offset_mono hle).trans (Nat.le_add_right ..)) hwritten
  running := h.running

end Inv

/-- For any threads, requests and interleaving, requests are delivered in order. -/
theorem delivered_of_reachable (h : Reachable (step cfg) init s) : s.Delivered cfg :=
  (Inv.of_reachable h).delivered

def fourEntries : Setup := ⟨5, by decide, ⟨2, 0, false, 1, 0, Nat.one_pos, by decide⟩⟩

def oneQp : QpList := ⟨[5], by decide⟩

def quietThenPut : List Action :=
  [.reserve 0 (.quietQp 1 oneQp), .checkAvailability 0,
    .reserve 1 (.dma .put 0x40 0x7000 16 1 qpDefault), .checkAvailability 1,
    .store 0, .pollBase, .readBase, .store 0, .pollEntry, .handle, .update,
    .waitAvailability 1, .readComplete 1, .refresh 1, .store 1, .pollBase, .readBase, .finish 0,
    .store 1, .store 1, .pollEntry, .store 1, .pollEntry, .pollEntry, .handle, .update]

theorem delivered_quietThenPut : ∃ s,
    exec (step fourEntries) init quietThenPut = some s ∧ s.processed = 48 ∧
      s.Delivered fourEntries := by
  exact exists_of_exec (fun s => s.processed = 48) (by decide +kernel) fun _ hs hprocessed =>
    ⟨hprocessed, delivered_of_reachable (.of_exec hs)⟩

end Channel

end Nvshmem.Proxy
