import Nvshmem.Proxy.FetchSteps

/-! # The requests of the calls that fetch

The requests of the calls are on the channel with all others. A call has at most one request for its
operation and one for its quiet, which is behind it. The proxy posts the operation for a call when
it handles its request, and has waited for the endpoints of the operation when it has handled the
quiet, if the quiet names them.
-/

namespace Nvshmem.Proxy.Fetch

open Lists List Option Nat

namespace Config

variable (cfg : Config) (counter : ℕ)

theorem idxInBuf_eq : cfg.idxInBuf counter = gElemBytes * (counter % 2 ^ cfg.logSlots) := by
  have hsize : cfg.gBufSize = 2 ^ 4 * 2 ^ cfg.logSlots := rfl
  rw [idxInBuf, hsize, ← Nat.pow_add, and_two_pow_sub_one_eq_mod, Nat.pow_add, Nat.mul_comm]
  exact mul_mod_mul_left gElemBytes counter (2 ^ cfg.logSlots)

theorem elem_eq : cfg.elem counter = cfg.gBuf + gElemBytes * (counter % 2 ^ cfg.logSlots) := by
  rw [elem, idxInBuf_eq]

theorem coalesced_eq : cfg.coalesced counter =
    cfg.gCoalescingBuf + warpSize * 8 * (counter % 2 ^ cfg.logSlots) := by
  have hpos : 0 < gElemBytes := by decide
  rw [coalesced, idxInBuf_eq, Nat.mul_div_cancel_left _ hpos, Nat.mul_assoc, Nat.mul_comm]

theorem flag_eq : cfg.flag counter = counter / 2 ^ cfg.logSlots * 2 := by
  have hpos : 0 < 2 ^ 4 := by decide
  rw [flag, gBufLogSize, shiftRight_eq_div_pow, Nat.pow_add]
  exact congrArg (· * 2) (Nat.mul_div_mul_right counter (2 ^ cfg.logSlots) hpos)

theorem elem_lt : cfg.elem counter < cfg.gBuf + gElemBytes * 2 ^ cfg.logSlots := by
  rw [elem_eq]
  exact Nat.add_lt_add_left (Nat.mul_lt_mul_of_pos_left
    (mod_lt _ (Nat.two_pow_pos _)) (by decide)) _

theorem coalesced_lt :
    cfg.coalesced counter < cfg.gCoalescingBuf + warpSize * 8 * 2 ^ cfg.logSlots := by
  rw [coalesced_eq]
  exact Nat.add_lt_add_left (Nat.mul_lt_mul_of_pos_left
    (mod_lt _ (Nat.two_pow_pos _)) (by decide)) _

end Config

namespace Call

variable (cfg : Config) (c : Call)

def postPe : ℕ :=
  match c.operation with
  | .get .. => cfg.channel.job.translate c.pe.toNat
  | .amo .. => c.pe.toNat

def postQp : BitVec 32 :=
  match c.operation with
  | .get false _ => qpDefault
  | .get true _ | .amo .. => c.qp

def landing (counter : ℕ) : Landing :=
  match c.operation with
  | .get .. => .data (c.cell cfg counter)
  | .amo .. => .fetched (cfg.elem counter) (cfg.flag counter + 1)

/-- A QP quiet of the call waits for its operation: it names the QP, which is not the one for any QP
nor the default without default QPs, and the PE. -/
def QuietsPost : Prop :=
  c.qp.toNat ≠ Ibgda.qpAny ∧ (c.qp = qpDefault → 0 < cfg.ibNumRcPerDevice) ∧
    match c.operation with
    | .get coalesced _ => coalesced = true ∨ c.qp = qpDefault
    | .amo .. => cfg.channel.job.translate c.pe.toNat = c.pe.toNat

instance : Decidable (c.QuietsPost cfg) := by
  unfold QuietsPost
  cases c.operation <;> infer_instance

variable {cfg c}

theorem QuietsPost.postQp_eq (h : c.QuietsPost cfg) : c.postQp = c.qp := by
  obtain ⟨-, -, h⟩ := h
  rw [postQp]
  cases hop : c.operation with
  | get coalesced size =>
    cases coalesced with
    | true => rfl
    | false =>
      rw [hop] at h
      exact (h.resolve_left Bool.false_ne_true).symm
  | amo args fetches => rfl

theorem QuietsPost.postPe_eq (h : c.QuietsPost cfg) :
    c.postPe cfg = cfg.channel.job.translate c.pe.toNat := by
  obtain ⟨-, -, h⟩ := h
  rw [postPe]
  cases hop : c.operation with
  | get coalesced size => rfl
  | amo args fetches =>
    rw [hop] at h
    exact h.symm

theorem calls_deviceRequest (cfg : Config) (c : Call) (k : ℕ) :
    cfg.channel.job.calls (c.deviceRequest cfg k).decoded = [.post (c.postPe cfg) c.postQp] := by
  obtain ⟨thread, operation, roffset, pe, qp, request, quiet⟩ := c
  cases operation with
  | get coalesced size =>
    have hsize : ∀ n : ℕ, n = size.bytes ∨ n = warpSize * size.bytes →
        (BitVec.ofNat 48 n).setWidth 64 ≠ 0 := by
      rintro n (rfl | rfl) <;> cases size <;> decide
    cases coalesced with
    | true => exact if_neg (hsize _ (.inr rfl))
    | false => exact if_neg (hsize _ (.inl rfl))
  | amo args fetches => rfl

theorem landing_deviceRequest {k : ℕ} (hk : k < 2 ^ 56) :
    Fetch.landing cfg (c.deviceRequest cfg k).decoded = some (c.landing cfg k) := by
  have helem := (cfg.elem_lt k).trans_le cfg.gBuf_le
  have hcoalesced := (cfg.coalesced_lt k).trans_le cfg.gCoalescingBuf_le
  obtain ⟨thread, operation, roffset, pe, qp, request, quiet⟩ := c
  cases operation with
  | get coalesced size =>
    cases coalesced with
    | true => exact congrArg (some <| Landing.data ·) (mod_eq_of_lt hcoalesced)
    | false => exact congrArg (some <| Landing.data ·) (mod_eq_of_lt helem)
  | amo args fetches =>
    have hcounter : ((BitVec.ofNat 56 k).setWidth 64).toNat = k := by
      rw [BitVec.toNat_setWidth_of_le (by decide), BitVec.toNat_ofNat, mod_eq_of_lt hk]
    simp only [deviceRequest, Request.decoded, Request.supplied, Fetch.landing, if_pos fetches,
      hcounter, landing, Config.elem, Config.idxInBuf, Config.flag]

end Call

theorem handleOf_qpIndex (qp : BitVec 32) : (handleOf qp).qpIndex = qp.toNat := by
  unfold handleOf
  split_ifs with hhost hdefault hany
  · exact hhost.symm
  · exact hdefault.symm
  · exact hany.symm
  · rfl

structure Post.For (cfg : Config) (uses : List Ib.Use) (p : Post) (k : ℕ) (c : Call) : Prop where
  request : c.request = some p.number
  landing : p.landing = c.landing cfg k
  uses_ne : p.uses ≠ []
  uses : ∀ use ∈ p.uses, use ∈ uses ∧ use.me = cfg.channel.job.mype ∧ use.pe = c.postPe cfg ∧
    use.handle = handleOf c.postQp

def Post.WaitedFor (waits : List Wait) (p : Post) : Prop :=
  ∃ w ∈ waits, p.number < w.number ∧ ∀ use ∈ p.uses, use.ep ∈ w.endpoints

instance (waits : List Wait) (p : Post) : Decidable (p.WaitedFor waits) :=
  inferInstanceAs (Decidable (∃ w ∈ waits, _))

section Linked

structure Linked (cfg : Config) (calls : List Call) (requests : List Request) : Prop where
  request : ∀ (k : ℕ) (c : Call), calls[k]? = some c → ∀ i ∈ c.request,
    requests[i]? = some (c.deviceRequest cfg k)
  quiet : ∀ (k : ℕ) (c : Call), calls[k]? = some c → ∀ j ∈ c.quiet,
    requests[j]? = some c.quietRequest ∧ ∃ i ∈ c.request, i < j
  eq_of_request : ∀ (k : ℕ) (c : Call), calls[k]? = some c → ∀ (k' : ℕ) (c' : Call),
    calls[k']? = some c' → ∀ i ∈ c.request, i ∈ c'.request → k = k'
  owner : ∀ (i : ℕ) (req : Request), requests[i]? = some req →
    Plain cfg req ∨ ∃ (k : ℕ) (c : Call), calls[k]? = some c ∧ i ∈ c.request

variable {cfg : Config} {calls : List Call} {requests : List Request} {c : Call} {k i : ℕ}

namespace Linked

theorem init : Linked cfg [] [] where
  request _ _ h := by cases h
  quiet _ _ h := by cases h
  eq_of_request _ _ h := by cases h
  owner _ _ h := by cases h

section Linking

variable (h : Linked cfg calls requests)
include h

theorem lt_of_request (hk : calls[k]? = some c) (hi : i ∈ c.request) : i < requests.length :=
  (List.getElem?_eq_some_iff.mp (h.request k c hk i hi)).1

theorem start (hreq : c.request = none) (hquiet : c.quiet = none) :
    Linked cfg (calls ++ [c]) requests where
  request := by
    refine forall_getElem?_concat h.request fun i hi => ?_
    rw [hreq] at hi
    cases hi
  quiet := by
    refine forall_getElem?_concat h.quiet fun i hi => ?_
    rw [hquiet] at hi
    cases hi
  eq_of_request := by
    refine forall_getElem?_concat (fun k c₁ hk => forall_getElem?_concat (h.eq_of_request k c₁ hk) ?_)
      fun k' c' hk' i hi => ?_
    · intro i hi hi'
      rw [hreq] at hi'
      cases hi'
    · rw [hreq] at hi
      cases hi
  owner i req hi := by
    obtain hplain | ⟨k, c', hk, hc'⟩ := h.owner i req hi
    · exact .inl hplain
    · exact .inr ⟨k, c', getElem?_concat_of_some hk, hc'⟩

theorem plain {reqs : List Request} (hreqs : ∀ req ∈ reqs, Plain cfg req) :
    Linked cfg calls (requests ++ reqs) where
  request k c hk i hi := getElem?_of_isPrefix (prefix_append ..) (h.request k c hk i hi)
  quiet k c hk j hj := by
    obtain ⟨hreq, hlt⟩ := h.quiet k c hk j hj
    exact ⟨getElem?_of_isPrefix (prefix_append ..) hreq, hlt⟩
  eq_of_request := h.eq_of_request
  owner i req hi := by
    rcases Nat.lt_or_ge i requests.length with hlt | hge
    · rw [getElem?_append_left hlt] at hi
      exact h.owner i req hi
    · rw [getElem?_append_right hge] at hi
      exact .inl (hreqs req (mem_of_getElem? hi))

theorem issue (hk : calls[k]? = some c) (hreq : c.request = none) (hquiet : c.quiet = none) :
    Linked cfg (calls.set k { c with request := some requests.length })
      (requests ++ [c.deviceRequest cfg k]) where
  request := by
    refine forall_getElem?_set (fun k c hk i hi => ?_) fun i hi => ?_
    · exact getElem?_concat_of_some (h.request k c hk i hi)
    · cases hi
      exact getElem?_concat_length
  quiet := by
    refine forall_getElem?_set (fun k c hk j hj => ?_) fun j hj => ?_
    · exact ⟨getElem?_concat_of_some (h.quiet k c hk j hj).1, (h.quiet k c hk j hj).2⟩
    · rw [hquiet] at hj
      cases hj
  eq_of_request := by
    -- the number of the new request is not the one of an older request
    have hne : ∀ (k : ℕ) (c : Call), calls[k]? = some c → requests.length ∉ c.request :=
      fun k c hk hi => (h.lt_of_request hk hi).ne rfl
    refine forall_getElem?_set (fun k₁ c₁ hk₁ => ?_) ?_
    · refine forall_getElem?_set (h.eq_of_request k₁ c₁ hk₁) fun i hi hi' => ?_
      cases hi'
      exact absurd hi (hne k₁ c₁ hk₁)
    · refine forall_getElem?_set (fun k₁ c₁ hk₁ i hi hi' => ?_) fun _ _ _ => rfl
      cases hi
      exact absurd hi' (hne k₁ c₁ hk₁)
  owner := by
    have hlt := (List.getElem?_eq_some_iff.mp hk).1
    refine forall_getElem?_concat (fun i req hi => ?_) (.inr ⟨k, _, getElem?_set_self hlt, rfl⟩)
    obtain hplain | ⟨k', c', hk', hc'⟩ := h.owner i req hi
    · exact .inl hplain
    · refine .inr ⟨k', c', ?_, hc'⟩
      rw [getElem?_set_ne, hk']
      rintro rfl
      rw [some.inj (hk'.symm.trans hk), hreq] at hc'
      cases hc'

theorem addQuiet (hk : calls[k]? = some c) (hi : i ∈ c.request) :
    Linked cfg (calls.set k { c with quiet := some requests.length })
      (requests ++ [c.quietRequest]) where
  request := forall_getElem?_set (fun k c hk i hi => getElem?_concat_of_some (h.request k c hk i hi))
    fun i hi => getElem?_concat_of_some (h.request k c hk i hi)
  quiet := by
    refine forall_getElem?_set (fun k c hk j hj => ?_) fun j hj => ?_
    · exact ⟨getElem?_concat_of_some (h.quiet k c hk j hj).1, (h.quiet k c hk j hj).2⟩
    · cases hj
      exact ⟨getElem?_concat_length, i, hi, h.lt_of_request hk hi⟩
  eq_of_request := forall_getElem?_set
    (fun k₁ c₁ hk₁ => forall_getElem?_set (h.eq_of_request k₁ c₁ hk₁) (h.eq_of_request k₁ c₁ hk₁ k c hk))
    (forall_getElem?_set (h.eq_of_request k c hk) (h.eq_of_request k c hk k c hk))
  owner := by
    have hlt := (List.getElem?_eq_some_iff.mp hk).1
    refine forall_getElem?_concat (fun i req hi => ?_) (.inl rfl)
    obtain hplain | ⟨k', c', hk', hc'⟩ := h.owner i req hi
    · exact .inl hplain
    · by_cases hkk : k = k'
      · subst hkk
        rw [some.inj (hk'.symm.trans hk)] at hc'
        exact .inr ⟨k, _, getElem?_set_self hlt, hc'⟩
      · exact .inr ⟨k', c', (getElem?_set_ne hkk).trans hk', hc'⟩

end Linking

end Linked

end Linked

section Progress

structure Progress (cfg : Config) (calls : List Call) (n : ℕ) (uses : List Ib.Use)
    (posts : List Post) (waits : List Wait) : Prop where
  isFor : ∀ p ∈ posts, p.number < n ∧ ∃ (k : ℕ) (c : Call), calls[k]? = some c ∧ p.For cfg uses k c
  nodup : (posts.map Post.number).Nodup
  posted : ∀ (k : ℕ) (c : Call), calls[k]? = some c → ∀ i ∈ c.request, i < n →
    ∃ p ∈ posts, p.number = i
  covered : ∀ (k : ℕ) (c : Call), calls[k]? = some c → c.QuietsPost cfg → ∀ j ∈ c.quiet, j < n →
    ∀ p ∈ posts, p.number ∈ c.request → p.Complete cfg ∧ p.WaitedFor waits

variable {cfg : Config} {calls : List Call} {n : ℕ} {uses uses' : List Ib.Use} {posts : List Post}
  {waits waits' : List Wait} {requests : List Request} {c c' : Call} {p : Post} {k i : ℕ}

theorem Post.WaitedFor.mono (h : p.WaitedFor waits) (hwaits : waits ⊆ waits') :
    p.WaitedFor waits' := by
  obtain ⟨w, hw, hwait⟩ := h
  exact ⟨w, hwaits hw, hwait⟩

theorem Post.For.mono (h : p.For cfg uses k c) (huses : uses ⊆ uses') : p.For cfg uses' k c where
  request := h.request
  landing := h.landing
  uses_ne := h.uses_ne
  uses use hu := ⟨huses (h.uses use hu).1, (h.uses use hu).2⟩

namespace Progress

theorem init : Progress cfg [] 0 uses [] [] where
  isFor _ h := absurd h not_mem_nil
  nodup := nodup_nil
  posted _ _ h := by cases h
  covered _ _ h := by cases h

section Steps

variable (h : Progress cfg calls n uses posts waits)
include h

theorem mono (huses : uses ⊆ uses') (hwaits : waits ⊆ waits') :
    Progress cfg calls n uses' posts waits' where
  isFor p hp := by
    obtain ⟨hlt, k, c, hk, hfor⟩ := h.isFor p hp
    exact ⟨hlt, k, c, hk, hfor.mono huses⟩
  nodup := h.nodup
  posted := h.posted
  covered k c hk hq j hj hlt p hp hi := by
    obtain ⟨hcomplete, hwait⟩ := h.covered k c hk hq j hj hlt p hp hi
    exact ⟨hcomplete, hwait.mono hwaits⟩

theorem start (hreq : c.request = none) (hquiet : c.quiet = none) :
    Progress cfg (calls ++ [c]) n uses posts waits where
  isFor p hp := by
    obtain ⟨hlt, k, c, hk, hfor⟩ := h.isFor p hp
    exact ⟨hlt, k, c, getElem?_concat_of_some hk, hfor⟩
  nodup := h.nodup
  posted := by
    refine forall_getElem?_concat h.posted fun i hi => ?_
    rw [hreq] at hi
    cases hi
  covered := by
    refine forall_getElem?_concat h.covered fun _ j hj => ?_
    rw [hquiet] at hj
    cases hj

theorem set (hk : calls[k]? = some c) (hfor : ∀ p : Post, p.For cfg uses k c → p.For cfg uses k c')
    (hreq : ∀ i ∈ c'.request, i < n → i ∈ c.request) (hquiet : ∀ j ∈ c'.quiet, j < n → j ∈ c.quiet)
    (hquiets : c'.QuietsPost cfg → c.QuietsPost cfg) :
    Progress cfg (calls.set k c') n uses posts waits where
  isFor p hp := by
    obtain ⟨hlt, k', c₁, hk', hfor₁⟩ := h.isFor p hp
    refine ⟨hlt, ?_⟩
    by_cases hkk : k = k'
    · subst hkk
      cases hk'.symm.trans hk
      exact ⟨k, c', getElem?_set_self (List.getElem?_eq_some_iff.mp hk).1, hfor p hfor₁⟩
    · exact ⟨k', c₁, (getElem?_set_ne hkk).trans hk', hfor₁⟩
  nodup := h.nodup
  posted := forall_getElem?_set h.posted fun i hi hlt => h.posted k c hk i (hreq i hi hlt) hlt
  covered := forall_getElem?_set h.covered fun hq j hj hlt p hp hi =>
    h.covered k c hk (hquiets hq) j (hquiet j hj hlt) hlt p hp (hreq _ hi (h.isFor p hp).1)

theorem status (hp : posts[i]? = some p) (status : Status)
    (hcomplete : p.Complete cfg → { p with status := status }.Complete cfg) :
    Progress cfg calls n uses (posts.set i { p with status := status }) waits where
  isFor := by
    obtain ⟨hlt, k, c, hk, hfor⟩ := h.isFor p (mem_of_getElem? hp)
    exact forall_mem_set h.isFor ⟨hlt, k, c, hk, hfor.request, hfor.landing, hfor.uses_ne, hfor.uses⟩
  nodup := by
    have hnumbers : (posts.set i { p with status := status }).map Post.number = _ :=
      map_set_eq Post.number hp rfl
    rw [hnumbers]
    exact h.nodup
  posted k c hk j hj hlt := by
    obtain ⟨q, hq, rfl⟩ := h.posted k c hk j hj hlt
    have hnumbers : (posts.set i { p with status := status }).map Post.number = _ :=
      map_set_eq Post.number hp rfl
    exact mem_map.mp (hnumbers ▸ mem_map_of_mem hq)
  covered k c hk hq j hj hlt := by
    refine forall_mem_set (h.covered k c hk hq j hj hlt) fun hi => ?_
    obtain ⟨hdone, hwait⟩ := h.covered k c hk hq j hj hlt p (mem_of_getElem? hp) hi
    exact ⟨hcomplete hdone, hwait⟩

theorem for_of_number (hl : Linked cfg calls requests) (hk : calls[k]? = some c) (hp : p ∈ posts)
    (hi : p.number ∈ c.request) : p.For cfg uses k c := by
  obtain ⟨-, k', c', hk', hfor⟩ := h.isFor p hp
  obtain rfl := hl.eq_of_request k c hk k' c' hk' p.number hi hfor.request
  rwa [some.inj (hk'.symm.trans hk)] at hfor

theorem pass (hl : Linked cfg calls requests) (hwaits : waits ⊆ waits')
    (hreq : ∀ (k : ℕ) (c : Call), calls[k]? = some c → n ∉ c.request)
    (hcover : ∀ (k : ℕ) (c : Call), calls[k]? = some c → c.QuietsPost cfg → n ∈ c.quiet → ∀ p ∈
      posts, p.For cfg uses k c → p.Complete cfg ∧ p.WaitedFor waits') :
    Progress cfg calls (n + 1) uses posts waits' where
  isFor p hp := ⟨lt_succ_of_lt (h.isFor p hp).1, (h.isFor p hp).2⟩
  nodup := h.nodup
  posted k c hk i hi hlt := by
    obtain hlt | rfl := Nat.lt_succ_iff_lt_or_eq.mp hlt
    · exact h.posted k c hk i hi hlt
    · exact absurd hi (hreq k c hk)
  covered k c hk hq j hj hlt p hp hi := by
    obtain hlt | rfl := Nat.lt_succ_iff_lt_or_eq.mp hlt
    · obtain ⟨hcomplete, hwait⟩ := h.covered k c hk hq j hj hlt p hp hi
      exact ⟨hcomplete, hwait.mono hwaits⟩
    · exact hcover k c hk hq hj p hp (h.for_of_number hl hk hp hi)

theorem post (hk : calls[k]? = some c) (hfor : p.For cfg uses k c) (hp : p.number = n)
    (hquiet : ∀ (k : ℕ) (c : Call), calls[k]? = some c → n ∉ c.quiet)
    (hl : Linked cfg calls requests) : Progress cfg calls (n + 1) uses (posts ++ [p]) waits where
  isFor := by
    refine forall_mem_concat (fun q hq => ?_) ⟨hp ▸ lt_succ_self _, k, c, hk, hfor⟩
    exact ⟨lt_succ_of_lt (h.isFor q hq).1, (h.isFor q hq).2⟩
  nodup := by
    rw [map_append, nodup_append]
    refine ⟨h.nodup, nodup_singleton _, fun x hx y hy => ?_⟩
    obtain ⟨q, hq, rfl⟩ := mem_map.mp hx
    rw [mem_singleton.mp hy, hp]
    exact (h.isFor q hq).1.ne
  posted k c hk i hi hlt := by
    obtain hlt | rfl := Nat.lt_succ_iff_lt_or_eq.mp hlt
    · obtain ⟨q, hq, hnumber⟩ := h.posted k c hk i hi hlt
      exact ⟨q, mem_append_left _ hq, hnumber⟩
    · exact ⟨p, mem_append_right _ (mem_singleton_self p), hp⟩
  covered k c hk hq j hj hlt := by
    have hj' : j < n := (Nat.lt_succ_iff_lt_or_eq.mp hlt).resolve_right
      fun heq => hquiet k c hk (heq ▸ hj)
    refine forall_mem_concat (h.covered k c hk hq j hj hj') fun hi => ?_
    -- the quiet of a call is behind its request, so the new post is not the one of this call
    obtain ⟨-, i, hi', hij⟩ := hl.quiet k c hk j hj
    have heq : p.number = i := some.inj (hi.symm.trans hi')
    omega

end Steps

end Progress

end Progress

end Nvshmem.Proxy.Fetch
