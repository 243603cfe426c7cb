import Nvshmem.Lists.Update
import Nvshmem.Proxy.Channel
import Nvshmem.Ring.Flagged

/-! # Positions of entries

The reservations follow each other without gaps, so the entries of all requests have
positions, and the proxy is at the position where the next request starts. A thread that
has passed `check_channel_availability` has room for its entries in the ring.
-/

namespace Nvshmem.Proxy

open Lists List Option Function Nat

section Offset

variable {reqs : List Request} {r r' : Request} {n i j k l : ℕ}

def offset (reqs : List Request) (n : ℕ) : ℕ := ((reqs.take n).map (·.entries.length)).sum

theorem offset_succ (h : reqs[n]? = some r) :
    offset reqs (n + 1) = offset reqs n + r.entries.length := by
  rw [offset, offset, take_add_one, h, toList_some, map_append, List.sum_append,
    map_singleton, sum_singleton]

theorem offset_append (h : n ≤ reqs.length) : offset (reqs ++ [r]) n = offset reqs n := by
  rw [offset, offset, take_append_of_le_length h]

theorem offset_mono (h : i ≤ j) : offset reqs i ≤ offset reqs j := by
  obtain ⟨d, rfl⟩ := Nat.exists_eq_add_of_le h
  rw [offset, offset, take_add, map_append, List.sum_append]
  exact Nat.le_add_right ..

theorem offset_add_le (h : reqs[i]? = some r) (hij : i < j) :
    offset reqs i + r.entries.length ≤ offset reqs j :=
  offset_succ h ▸ offset_mono hij

theorem eq_of_position_eq (hi : reqs[i]? = some r) (hj : reqs[j]? = some r')
    (hk : k < r.entries.length) (hl : l < r'.entries.length)
    (h : offset reqs i + k = offset reqs j + l) : i = j ∧ k = l := by
  rcases Nat.lt_trichotomy i j with hij | rfl | hji
  · have := offset_add_le hi hij
    omega
  · exact ⟨rfl, Nat.add_left_cancel h⟩
  · have := offset_add_le hj hji
    omega

theorem sum_bytes (reqs : List Request) (n : ℕ) :
    ((reqs.take n).map (·.bytes)).sum = channelEntryBytes * offset reqs n := by
  rw [offset, ← sum_map_mul_left]
  congr 1
  apply map_congr_left
  intro r _
  exact r.bytes_eq

end Offset

theorem entryBytes_injective : Function.Injective (channelEntryBytes * ·) :=
  fun _ _ h => Nat.eq_of_mul_eq_mul_left (by decide) h

theorem update_ne_none {α β : Type*} [DecidableEq α] {f : α → Option β} {a p : α} {b : β}
    (h : f p ≠ none) : Function.update f a (some b) p ≠ none := by
  rw [update_apply]
  split_ifs
  · exact some_ne_none b
  · exact h

section RingFlags

variable (cfg : Setup)

def Setup.slots : ℕ := 2 ^ (cfg.logSize - 3)

def flagBit (w : BitVec 64) : BitVec 8 := flagByte w &&& 1

def lapFlag (n : ℕ) : BitVec 8 := if n &&& 1 = 0 then 1 else 0

theorem lapFlag_succ_ne (n : ℕ) : lapFlag (n + 1) ≠ lapFlag n := by
  rw [lapFlag, lapFlag, and_one_is_mod, and_one_is_mod]
  rcases mod_two_eq_zero_or_one n with h | h
  · rw [if_neg (by omega), if_pos h]
    decide
  · rw [if_pos (by omega), if_neg (by omega)]
    decide

theorem lapFlag_and_one (n : ℕ) : lapFlag n &&& 1 = lapFlag n := by
  rw [lapFlag]
  split_ifs <;> rfl

theorem channelFlag_and_one (logSize idx : ℕ) :
    channelFlag logSize idx &&& 1 = channelFlag logSize idx :=
  lapFlag_and_one (idx >>> logSize)

theorem bufSize_eq : cfg.bufSize = channelEntryBytes * cfg.slots := by
  rw [Setup.bufSize, Setup.slots, channelEntryBytes, show 8 = 2 ^ 3 from rfl, ← Nat.pow_add,
    Nat.add_sub_cancel' cfg.logSize_ge]

theorem channelFlag_entry (p : ℕ) :
    channelFlag cfg.logSize (channelEntryBytes * p) = lapFlag (p / cfg.slots) := by
  rw [channelFlag, lapFlag, shiftRight_eq_div_pow, ← Setup.bufSize, bufSize_eq,
    Nat.mul_div_mul_left _ _ (by decide)]

theorem slot_entry (p : ℕ) :
    slot cfg.logSize (channelEntryBytes * p) = channelEntryBytes * (p % cfg.slots) := by
  rw [slot_eq_mod, ← Setup.bufSize, bufSize_eq, mul_mod_mul_left]

end RingFlags

def wordAt (cfg : Setup) (p : ℕ) (payload : BitVec 64) : BitVec 64 :=
  stamped payload (channelFlag cfg.logSize (channelEntryBytes * p))

def Request.words (cfg : Setup) (p : ℕ) (r : Request) : List (BitVec 64) :=
  r.entries.mapIdx fun k payload => wordAt cfg (p + k) payload

def Reservation.words (cfg : Setup) (r : Reservation) : List (BitVec 64) :=
  r.request.entries.mapIdx fun k payload =>
    stamped payload (channelFlag cfg.logSize (r.start + channelEntryBytes * k))

theorem flagBit_wordAt {cfg : Setup} {p : ℕ} {r : Request} {payload : BitVec 64}
    (h : payload ∈ r.entries) : flagBit (wordAt cfg p payload) = lapFlag (p / cfg.slots) := by
  rw [flagBit, wordAt, flagByte_stamped (field_flag r payload h), channelFlag_entry,
    lapFlag_and_one]

/-- The reservations follow each other, up to `issue`. -/
structure Layout (rs : List Reservation) (issue : ℕ) : Prop where
  start_eq : ∀ i r, rs[i]? = some r → r.start = channelEntryBytes * offset (rs.map (·.request)) i
  issue_eq : issue = channelEntryBytes * offset (rs.map (·.request)) rs.length

/-- A thread that has passed `check_channel_availability` has room for its request, and the others
have stored nothing. -/
structure Room (cfg : Setup) (rs : List Reservation) (complete : ℕ) : Prop where
  fits : ∀ r ∈ rs, r.phase ≠ .reserved → r.phase ≠ .waiting →
    r.start + r.request.bytes ≤ complete + cfg.bufSize
  refreshing : ∀ r ∈ rs, ∀ c, r.phase = .refreshing c → c ≤ complete
  blank : ∀ r ∈ rs, r.phase = .reserved ∨ r.phase = .waiting → r.stored = 0

structure Stores (cfg : Setup) (rs : List Reservation) (written : ℕ → Option (BitVec 64)) :
    Prop where
  written_eq : ∀ i r, rs[i]? = some r → ∀ k payload, r.request.entries[k]? = some payload →
    written (offset (rs.map (·.request)) i + k) =
      if k < r.stored then some (wordAt cfg (offset (rs.map (·.request)) i + k) payload) else none
  unwritten : ∀ p, offset (rs.map (·.request)) rs.length ≤ p → written p = none

structure Consumption (cfg : Setup) (reqs : List Request) (consumed : List (List (BitVec 64)))
    (processed : ℕ) : Prop where
  processed_eq : processed = channelEntryBytes * offset reqs consumed.length
  consumed_eq : ∀ n words, consumed[n]? = some words →
    ∃ r : Request, reqs[n]? = some r ∧ words = r.words cfg (offset reqs n)

/-- What the proxy knows of the request with number `n`. -/
def HostInv (cfg : Setup) (reqs : List Request) (n : ℕ) (written : ℕ → Option (BitVec 64)) :
    HostPhase → Prop
  | .polling => True
  | .found => written (offset reqs n) ≠ none
  | .waiting base kind seen => ∃ r : Request, reqs[n]? = some r ∧
      (r.words cfg (offset reqs n))[0]? = some base ∧ kind = r.kind ∧
      awaited base kind = r.entries.length ∧ r.entries.length ≤ cfg.slots ∧
      seen ≤ r.entries.length ∧ ∀ k < seen, written (offset reqs n + k) ≠ none
  | .handled words result => ∃ r : Request, reqs[n]? = some r ∧
      words = r.words cfg (offset reqs n) ∧
      result = ⟨r.decoded, r.bytes, decide (r.kind = .qpQuiet)⟩ ∧
      ∀ k < r.entries.length, written (offset reqs n + k) ≠ none

section Set

variable {cfg : Setup} {rs : List Reservation} {r r' : Reservation} {i : ℕ}
  {issue complete complete' : ℕ} {written : ℕ → Option (BitVec 64)} {thread : ℕ} {req : Request}

theorem Layout.set (h : Layout rs issue) (hi : rs[i]? = some r) (hstart : r'.start = r.start)
    (hreq : r'.request = r.request) : Layout (rs.set i r') issue where
  start_eq := by
    rw [map_set_eq (·.request) hi hreq]
    exact forall_getElem?_set h.start_eq (hstart ▸ h.start_eq i r hi)
  issue_eq := by
    rw [map_set_eq (·.request) hi hreq, length_set]
    exact h.issue_eq

theorem offset_append_request {n : ℕ} (h : n ≤ rs.length) :
    offset ((rs ++ [r]).map (·.request)) n = offset (rs.map (·.request)) n := by
  rw [map_append, map_singleton, offset_append (by rwa [length_map])]

theorem offset_append_request_succ :
    offset ((rs ++ [r]).map (·.request)) (rs.length + 1) =
      offset (rs.map (·.request)) rs.length + r.request.entries.length := by
  rw [offset_succ (r := r.request) (by simp), offset_append_request le_rfl]

theorem Layout.append (h : Layout rs issue) :
    Layout (rs ++ [⟨thread, issue, req, .reserved, 0⟩]) (issue + req.bytes) where
  start_eq := by
    apply forall_getElem?_concat
    · intro j r hj
      rw [offset_append_request (List.getElem?_eq_some_iff.mp hj).1.le]
      exact h.start_eq j r hj
    · rw [offset_append_request le_rfl]
      exact h.issue_eq
  issue_eq := by
    rw [length_append, length_singleton, offset_append_request_succ, Nat.mul_add,
      ← h.issue_eq, req.bytes_eq]

theorem Room.mono (h : Room cfg rs complete) (hle : complete ≤ complete') :
    Room cfg rs complete' where
  fits r hr h₁ h₂ := (h.fits r hr h₁ h₂).trans (Nat.add_le_add_right hle _)
  refreshing r hr c hc := (h.refreshing r hr c hc).trans hle
  blank := h.blank

theorem Room.append (h : Room cfg rs complete) :
    Room cfg (rs ++ [⟨thread, issue, req, .reserved, 0⟩]) complete where
  fits := forall_mem_concat h.fits fun h => absurd rfl h
  refreshing := forall_mem_concat h.refreshing fun _ hc => nomatch hc
  blank := forall_mem_concat h.blank fun _ => rfl

theorem Room.set (h : Room cfg rs complete)
    (hfits : r'.phase ≠ .reserved → r'.phase ≠ .waiting →
      r'.start + r'.request.bytes ≤ complete + cfg.bufSize)
    (hrefreshing : ∀ c, r'.phase = .refreshing c → c ≤ complete)
    (hblank : r'.phase = .reserved ∨ r'.phase = .waiting → r'.stored = 0) :
    Room cfg (rs.set i r') complete where
  fits := forall_mem_set h.fits hfits
  refreshing := forall_mem_set h.refreshing hrefreshing
  blank := forall_mem_set h.blank hblank

theorem Stores.append (h : Stores cfg rs written) :
    Stores cfg (rs ++ [⟨thread, issue, req, .reserved, 0⟩]) written where
  written_eq := by
    apply forall_getElem?_concat
    · intro j r hj
      rw [offset_append_request (List.getElem?_eq_some_iff.mp hj).1.le]
      exact h.written_eq j r hj
    · intro k payload _
      rw [offset_append_request le_rfl, if_neg (Nat.not_lt_zero k)]
      exact h.unwritten _ (Nat.le_add_right ..)
  unwritten p hp := by
    rw [length_append, length_singleton, offset_append_request_succ] at hp
    exact h.unwritten p ((Nat.le_add_right ..).trans hp)

theorem Stores.set (h : Stores cfg rs written) (hi : rs[i]? = some r)
    (hreq : r'.request = r.request) (hstored : r'.stored = r.stored) :
    Stores cfg (rs.set i r') written where
  written_eq := by
    rw [map_set_eq (·.request) hi hreq]
    apply forall_getElem?_set h.written_eq
    rw [hreq, hstored]
    exact h.written_eq i r hi
  unwritten := by
    rw [map_set_eq (·.request) hi hreq, length_set]
    exact h.unwritten

theorem getElem?_map_request (hi : rs[i]? = some r) :
    (rs.map (·.request))[i]? = some r.request := by
  rw [getElem?_map, hi, map_some]

theorem Stores.store (h : Stores cfg rs written) (hi : rs[i]? = some r) {payload : BitVec 64}
    (hpayload : r.request.entries[r.stored]? = some payload) (hreq : r'.request = r.request)
    (hstored : r'.stored = r.stored + 1) :
    Stores cfg (rs.set i r')
      (Function.update written (offset (rs.map (·.request)) i + r.stored)
        (some (wordAt cfg (offset (rs.map (·.request)) i + r.stored) payload))) where
  written_eq j rj hj k p hk := by
    rw [map_set_eq (·.request) hi hreq]
    rw [getElem?_set] at hj
    split_ifs at hj with hij hlt
    · cases hj
      subst hij
      rw [hreq] at hk
      rw [hstored]
      by_cases hks : k = r.stored
      · subst hks
        obtain rfl : payload = p := some.inj (hpayload.symm.trans hk)
        rw [update_self, if_pos (lt_succ_self _)]
      · have hne : offset (rs.map (·.request)) i + k ≠ offset (rs.map (·.request)) i + r.stored :=
          fun heq => hks (Nat.add_left_cancel heq)
        rw [update_of_ne hne, h.written_eq i r hi k p hk]
        have hiff : k < r.stored + 1 ↔ k < r.stored := by omega
        simp only [hiff]
    · have hne : offset (rs.map (·.request)) j + k ≠ offset (rs.map (·.request)) i + r.stored :=
        fun heq => hij (eq_of_position_eq (getElem?_map_request hj) (getElem?_map_request hi)
          (List.getElem?_eq_some_iff.mp hk).1 (List.getElem?_eq_some_iff.mp hpayload).1 heq).1.symm
      rw [update_of_ne hne]
      exact h.written_eq j rj hj k p hk
  unwritten p hp := by
    rw [map_set_eq (·.request) hi hreq, length_set] at hp
    have hlt := offset_add_le (getElem?_map_request hi) (List.getElem?_eq_some_iff.mp hi).1
    have hstored := (List.getElem?_eq_some_iff.mp hpayload).1
    rw [update_of_ne (by omega)]
    exact h.unwritten p hp

end Set

section Append

variable {cfg : Setup} {reqs : List Request} {req : Request} {consumed : List (List (BitVec 64))}
  {processed n : ℕ} {written written' : ℕ → Option (BitVec 64)} {phase : HostPhase}

theorem Consumption.length_le (h : Consumption cfg reqs consumed processed) :
    consumed.length ≤ reqs.length := by
  by_contra hlt
  obtain ⟨words, hwords⟩ : ∃ words, consumed[reqs.length]? = some words :=
    ⟨_, getElem?_eq_getElem (not_le.mp hlt)⟩
  obtain ⟨r, hr, -⟩ := h.consumed_eq _ _ hwords
  exact Nat.lt_irrefl _ (List.getElem?_eq_some_iff.mp hr).1

theorem Consumption.append (h : Consumption cfg reqs consumed processed) :
    Consumption cfg (reqs ++ [req]) consumed processed where
  processed_eq := by
    rw [offset_append h.length_le]
    exact h.processed_eq
  consumed_eq n words hn := by
    obtain ⟨r, hr, hwords⟩ := h.consumed_eq n words hn
    refine ⟨r, getElem?_concat_of_some hr, ?_⟩
    rw [offset_append (List.getElem?_eq_some_iff.mp hr).1.le]
    exact hwords

theorem Consumption.concat (h : Consumption cfg reqs consumed processed)
    (hreq : reqs[consumed.length]? = some req) :
    Consumption cfg reqs (consumed ++ [req.words cfg (offset reqs consumed.length)])
      (processed + req.bytes) where
  processed_eq := by
    rw [length_append, length_singleton, offset_succ hreq, Nat.mul_add,
      ← h.processed_eq, req.bytes_eq]
  consumed_eq := forall_getElem?_concat h.consumed_eq ⟨req, hreq, rfl⟩

theorem HostInv.append (h : HostInv cfg reqs n written phase) (hn : n ≤ reqs.length) :
    HostInv cfg (reqs ++ [req]) n written phase := by
  cases phase with
  | polling => trivial
  | found => rwa [HostInv, offset_append hn]
  | waiting base kind seen | handled words result =>
    obtain ⟨r, hr, h⟩ := h
    refine ⟨r, getElem?_concat_of_some hr, ?_⟩
    rwa [offset_append hn]

theorem HostInv.mono (h : HostInv cfg reqs n written phase)
    (hle : ∀ p, written p ≠ none → written' p ≠ none) : HostInv cfg reqs n written' phase := by
  cases phase with
  | polling => trivial
  | found => exact hle _ h
  | waiting base kind seen =>
    obtain ⟨r, hr, hbase, hkind, hawaited, hslots, hseen, hw⟩ := h
    exact ⟨r, hr, hbase, hkind, hawaited, hslots, hseen, fun k hk => hle _ (hw k hk)⟩
  | handled words result =>
    obtain ⟨r, hr, hwords, hresult, hw⟩ := h
    exact ⟨r, hr, hwords, hresult, fun k hk => hle _ (hw k hk)⟩

end Append

end Nvshmem.Proxy
