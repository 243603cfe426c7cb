import Nvshmem.Buffers.Lookup

/-! # Registering and unregistering buffers

A registration is refused when its address lies in the heap or in a buffer, but not when only a part
behind the address does. As long as such calls are not made and only whole registrations are
unregistered, the buffers stay in order and do not overlap.
-/

namespace Nvshmem.Buffers

open Intervals Transition List Option

variable {H : Type} {cfg : Setup} {env : Answers H} {cache cache' : Cache H}
  {buffers xs ys : List (LocalBufHandle H)} {e : LocalBufHandle H} {addr length i : ℕ}
  {k left start size n : ℕ} {byUs : Bool} {handles : List (LocalBufHandle H)}

structure Cache.Consistent (cfg : Setup) (cache : Cache H) : Prop where
  intact : cache.corrupted = false
  sorted : cache.buffers.Pairwise fun e e' => e.ptr < e'.ptr
  disjoint : cache.buffers.Pairwise fun e e' => Apart e.range e'.range
  apartHeap : ∀ e ∈ cache.buffers, Apart e.range cfg.heap
  used_lt : cache.buffers.length < cache.arraySize

def Follows (e e' : LocalBufHandle H) : Prop :=
  e.linkedWithNext = true → e'.linkedWithPrev = true ∧ e'.ptr = e.ptr + e.length

structure Linked (buffers : List (LocalBufHandle H)) : Prop where
  chain : buffers.IsChain Follows
  last : ∀ e ∈ buffers.getLast?, e.linkedWithNext = false

namespace Linked

theorem nil : Linked ([] : List (LocalBufHandle H)) :=
  ⟨.nil, fun _ he => absurd he (not_mem_none _)⟩

theorem append (hxs : Linked xs) (hys : Linked ys) : Linked (xs ++ ys) where
  chain := by
    refine isChain_append.mpr ⟨hxs.chain, hys.chain, fun e he e' _ hnext => ?_⟩
    exact absurd (hxs.last e he) (Bool.not_eq_false _ ▸ hnext)
  last e he := by
    rw [getLast?_append] at he
    cases hlast : ys.getLast? with
    | none =>
      rw [hlast, none_or] at he
      exact hxs.last e he
    | some e' =>
      rw [hlast, some_or] at he
      exact hys.last e (hlast ▸ he)

theorem split (h : Linked (xs ++ ys)) (hxs : ∀ e ∈ xs.getLast?, e.linkedWithNext = false) :
    Linked xs ∧ Linked ys := by
  obtain ⟨hchain, hchain', -⟩ := isChain_append.mp h.chain
  refine ⟨⟨hchain, hxs⟩, hchain', fun e he => h.last e ?_⟩
  rw [getLast?_append, mem_def.mp he, some_or]
  rfl

theorem follows (h : Linked (xs ++ ys)) (he : e ∈ xs.getLast?) (hnext : e.linkedWithNext = true) :
    ∃ e' ∈ ys.head?, e'.linkedWithPrev = true ∧ e'.ptr = e.ptr + e.length := by
  cases ys with
  | nil =>
    rw [append_nil] at h
    rw [h.last e he] at hnext
    exact absurd hnext Bool.false_ne_true
  | cons e' ys => exact ⟨e', rfl, (isChain_append.mp h.chain).2.2 e he e' rfl hnext⟩

end Linked

theorem Linked.chainLength_eq (h : Linked (e :: buffers)) :
    ∃ xs ys, e :: buffers = xs ++ ys ∧ Cache.chainLength (e :: buffers) = some xs.length ∧
      Linked ys := by
  induction buffers generalizing e with
  | nil =>
    have hlast := h.last e rfl
    exact ⟨[e], [], rfl, by rw [Cache.chainLength, hlast]; rfl, .nil⟩
  | cons e' es ih =>
    have htail : Linked (e' :: es) :=
      ⟨h.chain.tail, fun x hx => h.last x (by rwa [getLast?_cons_cons])⟩
    cases hnext : e.linkedWithNext with
    | false => exact ⟨[e], e' :: es, rfl, by rw [Cache.chainLength, hnext]; rfl, htail⟩
    | true =>
      obtain ⟨xs, ys, heq, hlen, hys⟩ := ih htail
      refine ⟨e :: xs, ys, by rw [heq, cons_append], ?_, hys⟩
      rw [Cache.chainLength, hnext, hlen]
      rfl

structure Cache.Inv (cfg : Setup) (cache : Cache H) : Prop where
  intact : cache.corrupted = false
  ordered : Ordered cache.buffers
  apartHeap : ∀ e ∈ cache.buffers, Apart e.range cfg.heap
  linked : Linked cache.buffers
  used_lt : cache.buffers.length < cache.arraySize

theorem Cache.Inv.consistent (h : cache.Inv cfg) : cache.Consistent cfg :=
  ⟨h.intact, h.ordered.sorted, h.ordered.disjoint, h.apartHeap, h.used_lt⟩

theorem Ordered.of_pairwise_le (hvalid : ∀ e ∈ buffers, 0 < e.length ∧ e.ptr + e.length < 2 ^ 64)
    (h : buffers.Pairwise fun e e' => e.ptr + e.length ≤ e'.ptr) : Ordered buffers where
  valid := hvalid
  sorted := h.imp_of_mem fun {e e'} he _ hle => by
    have := (hvalid e he).1
    omega
  disjoint := h.imp fun hle => .inl hle

theorem Ordered.sublist (h : Ordered buffers) (hsub : xs.Sublist buffers) : Ordered xs :=
  ⟨fun e he => h.valid e (hsub.subset he), h.sorted.sublist hsub, h.disjoint.sublist hsub⟩

theorem Ordered.nil : Ordered ([] : List (LocalBufHandle H)) :=
  ⟨fun _ he => absurd he not_mem_nil, .nil, .nil⟩

namespace Cache

theorem Inv.init : (init : Cache H).Inv cfg :=
  ⟨rfl, .nil, fun _ he => absurd he not_mem_nil, .nil, Nat.succ_pos 63⟩

theorem selectIndex_spec (h : Ordered buffers) (hi : selectIndex addr buffers k = some i) :
    ∃ xs ys, buffers = xs ++ ys ∧ i = k + xs.length ∧
      (∀ e ∈ xs, e.ptr + e.length ≤ addr) ∧ ∀ e ∈ ys, addr < e.ptr := by
  induction buffers generalizing k with
  | nil =>
    cases hi
    exact ⟨[], [], rfl, rfl, fun _ he => absurd he not_mem_nil,
      fun _ he => absurd he not_mem_nil⟩
  | cons e es ih =>
    have hmax := h.maxAddr_eq mem_cons_self
    rw [selectIndex] at hi
    split_ifs at hi with hlt hin heq
    · obtain ⟨xs, ys, rfl, rfl, hxs, hys⟩ := ih (h.sublist (sublist_cons_self e es)) hi
      refine ⟨e :: xs, ys, rfl, by rw [length_cons]; omega, ?_, hys⟩
      exact forall_mem_cons.mpr ⟨by omega, hxs⟩
    · cases hi
      refine ⟨[], e :: es, rfl, rfl, fun _ he => absurd he not_mem_nil, ?_⟩
      refine forall_mem_cons.mpr ⟨by omega, fun e' he' => ?_⟩
      have := rel_of_pairwise_cons h.sorted he'
      omega

structure Pieces (start size : ℕ) (handles : List (LocalBufHandle H)) : Prop where
  bounds : ∀ e ∈ handles, start ≤ e.ptr ∧ 0 < e.length ∧ e.ptr + e.length ≤ start + size
  pairwise : handles.Pairwise fun e e' => e.ptr + e.length ≤ e'.ptr
  linked : Linked handles

def pieceLength (remaining : ℕ) : ℕ :=
  if maxHandleLength < remaining then maxHandleLength else remaining

theorem makeHandles_succ_eq_ok :
    makeHandles env byUs (left + 1) k start size = .ok handles ↔ ∃ handle tail,
      env.getMemHandle k = .ok handle ∧
      makeHandles env byUs left (k + 1) ((start + pieceLength size) % 2 ^ 64)
        (size - pieceLength size) = .ok tail ∧
      handles = ⟨start, pieceLength size, handle, byUs, decide (k ≠ 0), decide (left ≠ 0)⟩ ::
        tail := by
  rw [makeHandles, ← pieceLength]
  cases env.getMemHandle k with
  | error code => simp
  | ok handle =>
    cases makeHandles env byUs left (k + 1) ((start + pieceLength size) % 2 ^ 64)
        (size - pieceLength size) with
    | error code => simp [Except.map]
    | ok tail => simp [Except.map, eq_comm]

theorem makeHandles_spec (hleft : left = (size + maxHandleLength - 1) / maxHandleLength)
    (hlt : start + size < 2 ^ 64) (hmake : makeHandles env byUs left k start size = .ok handles) :
    Pieces start size handles ∧ handles.length = left ∧
      ∀ e ∈ handles.head?, e.ptr = start ∧ (0 < k → e.linkedWithPrev = true) := by
  induction left generalizing k start size handles with
  | zero =>
    cases hmake
    refine ⟨⟨fun _ he => absurd he not_mem_nil, .nil, .nil⟩, rfl, ?_⟩
    exact fun _ he => absurd he (not_mem_none _)
  | succ left ih =>
    obtain ⟨handle, tail, -, htail, rfl⟩ := makeHandles_succ_eq_ok.mp hmake
    obtain ⟨hpos, hle, hrest⟩ : 0 < pieceLength size ∧ pieceLength size ≤ size ∧
        left = (size - pieceLength size + maxHandleLength - 1) / maxHandleLength := by
      have hmin : pieceLength size = min maxHandleLength size := by
        rw [pieceLength, min_def]
        split_ifs
        · omega
        · omega
        · omega
        · omega
      simp only [maxHandleLength] at hleft hmin ⊢
      omega
    rw [Nat.mod_eq_of_lt (by omega : start + pieceLength size < 2 ^ 64)] at htail
    obtain ⟨hpieces, hlen, hhead⟩ := ih hrest (by omega) htail
    refine ⟨⟨?_, ?_, ?_⟩, by rw [length_cons, hlen], ?_⟩
    · refine forall_mem_cons.mpr ⟨⟨le_rfl, hpos, by dsimp only; omega⟩, fun e he => ?_⟩
      have := hpieces.bounds e he
      omega
    · refine pairwise_cons.mpr ⟨fun e he => ?_, hpieces.pairwise⟩
      exact (hpieces.bounds e he).1
    · cases tail with
      | nil =>
        obtain rfl : left = 0 := hlen.symm
        exact ⟨.singleton _, fun e he => by cases he; rfl⟩
      | cons e es =>
        obtain ⟨hptr, hprev⟩ := hhead e rfl
        refine ⟨isChain_cons_cons.mpr ⟨fun _ => ⟨hprev k.succ_pos, hptr⟩,
          hpieces.linked.chain⟩, fun e' he' => hpieces.linked.last e' ?_⟩
        rwa [getLast?_cons_cons] at he'
    · rintro e ⟨⟩
      exact ⟨rfl, fun hk => decide_eq_true hk.ne'⟩

theorem enlarge_spec (hused : cache.buffers.length < cache.arraySize)
    (h : cache.enlarge env n = some cache') :
    cache'.buffers = cache.buffers ∧ cache'.corrupted = cache.corrupted ∧
      cache.buffers.length + n < cache'.arraySize := by
  rw [enlarge] at h
  split_ifs at h with hfull _ hmany
  · cases h
    exact ⟨rfl, rfl, by dsimp only; omega⟩
  · cases h
    exact ⟨rfl, rfl, by dsimp only; omega⟩
  · cases h
    exact ⟨rfl, rfl, not_le.mp hfull⟩

/-- The bytes of a registration are free, and nothing fails once they are registered. -/
structure Fits (cfg : Setup) (env : Answers H) (cache : Cache H) (addr length : ℕ) : Prop where
  lt : addr + length < 2 ^ 64
  below : ∀ e ∈ cache.buffers, addr < e.ptr → addr + length ≤ e.ptr
  heap : addr < cfg.heapBase → addr + length ≤ cfg.heapBase
  updates : env.updateDeviceState = true

instance : Decidable (Fits cfg env cache addr length) :=
  decidable_of_iff (addr + length < 2 ^ 64 ∧
      (∀ e ∈ cache.buffers, addr < e.ptr → addr + length ≤ e.ptr) ∧
      (addr < cfg.heapBase → addr + length ≤ cfg.heapBase) ∧ env.updateDeviceState = true)
    ⟨fun ⟨h₁, h₂, h₃, h₄⟩ => ⟨h₁, h₂, h₃, h₄⟩, fun ⟨h₁, h₂, h₃, h₄⟩ => ⟨h₁, h₂, h₃, h₄⟩⟩

def SafeRegister (cfg : Setup) (env : Answers H) (cache : Cache H) (addr length : ℕ) : Prop :=
  length = 0 ∨ (cfg.heapBase ≤ addr ∧ addr < cfg.heapBase + cfg.heapSize) ∨
    length + maxHandleLength ≤ 2 ^ 64 ∧
      ((∃ e ∈ cache.buffers, e.Contains addr) ∨ Fits cfg env cache addr length)

instance : Decidable (SafeRegister cfg env cache addr length) :=
  inferInstanceAs (Decidable (_ ∨ _ ∨ _ ∧ (_ ∨ _)))

structure Checked (cfg : Setup) (env : Answers H) (addr length : ℕ) : Prop where
  length_ne : length ≠ 0
  attr : ∃ type, env.attr = some type ∧ type ≠ .managed
  heap : ¬ (cfg.heapBase ≤ addr ∧ addr < cfg.heapBase + cfg.heapSize)
  calloc : ∀ k < numberOfHandles length + 1, env.calloc k = true

structure Unopposed (cfg : Setup) (env : Answers H) (cache : Cache H) (addr length : ℕ) : Prop where
  lock : env.lock = true
  host : env.attr = some .unregistered →
    cfg.hostMemoryRegistrationSupported = true ∧ env.hostRegister = true
  room : cache.arraySize ≤ cache.buffers.length + numberOfHandles length → env.realloc = true
  index : selectIndex addr cache.buffers 0 ≠ none
  handles : ∀ k < numberOfHandles length, ∃ handle, env.getMemHandle k = .ok handle

theorem numberOfHandles_ne_zero (hpos : length ≠ 0) (hlt : length < 2 ^ 64) :
    numberOfHandles length ≠ 0 ↔ length + maxHandleLength ≤ 2 ^ 64 := by
  simp only [numberOfHandles, maxHandleLength]
  omega

theorem checkBuffer_eq_ok {type : MemoryType} : checkBuffer cfg env addr length = .ok type ↔
    Checked cfg env addr length ∧ env.attr = some type := by
  have hchecked : Checked cfg env addr length ∧ env.attr = some type ↔ length ≠ 0 ∧
      env.attr = some type ∧ type ≠ .managed ∧
      ¬ (cfg.heapBase ≤ addr ∧ addr < cfg.heapBase + cfg.heapSize) ∧
      ∀ k < numberOfHandles length + 1, env.calloc k = true := by
    constructor
    · rintro ⟨⟨hlen, ⟨type', hattr', hne⟩, hheap, hcalloc⟩, hattr⟩
      cases hattr'.symm.trans hattr
      exact ⟨hlen, hattr, hne, hheap, hcalloc⟩
    · rintro ⟨hlen, hattr, hne, hheap, hcalloc⟩
      exact ⟨⟨hlen, ⟨type, hattr, hne⟩, hheap, hcalloc⟩, hattr⟩
  rw [hchecked, checkBuffer]
  by_cases hzero : length = 0
  · simp [hzero]
  rw [if_neg hzero]
  cases hattr : env.attr with
  | none => simp
  | some type' =>
    dsimp only
    by_cases hmanaged : type' = .managed
    · rw [if_pos hmanaged]
      exact ⟨fun h => (by cases h), fun h => absurd (Option.some.inj h.2.1 ▸ hmanaged) h.2.2.1⟩
    rw [if_neg hmanaged]
    by_cases hheap : cfg.heapBase ≤ addr ∧ addr < cfg.heapBase + cfg.heapSize
    · simp [hheap]
    rw [if_neg hheap]
    by_cases hcalloc : ∀ k < numberOfHandles length + 1, env.calloc k = true
    · rw [if_neg (by simpa using hcalloc), Except.ok.injEq, some_inj]
      exact ⟨fun h => ⟨hzero, h, h ▸ hmanaged, hheap, hcalloc⟩, fun h => h.2.1⟩
    · rw [if_pos (by simpa using hcalloc)]
      exact ⟨fun h => (by cases h), fun h => absurd h.2.2.2.2 hcalloc⟩

theorem hostRegister_eq_ok {type : MemoryType} : (∃ byUs, hostRegister cfg env type = .ok byUs) ↔
    env.lock = true ∧ (type = .unregistered →
      cfg.hostMemoryRegistrationSupported = true ∧ env.hostRegister = true) := by
  rw [hostRegister]
  cases env.lock with
  | false => simp
  | true =>
    by_cases htype : type = .unregistered
    · cases cfg.hostMemoryRegistrationSupported <;> cases env.hostRegister <;> simp [htype]
    · simp [htype]

theorem enlarge_ne_none : cache.enlarge env n ≠ none ↔
    (cache.arraySize ≤ cache.buffers.length + n → env.realloc = true) := by
  rw [enlarge]
  by_cases hfull : cache.arraySize ≤ cache.buffers.length + n
  · cases env.realloc <;> simp [hfull]
  · simp [hfull]

theorem exists_makeHandles :
    (∃ handles, makeHandles env byUs left k start size = .ok handles) ↔
      ∀ j < left, ∃ handle, env.getMemHandle (k + j) = .ok handle := by
  induction left generalizing k start size with
  | zero => simp [makeHandles]
  | succ left ih =>
    simp only [makeHandles_succ_eq_ok]
    constructor
    · rintro ⟨-, handle, tail, hhandle, htail, -⟩ j hj
      cases j with
      | zero => exact ⟨handle, hhandle⟩
      | succ j =>
        obtain ⟨handle', h⟩ := ih.mp ⟨tail, htail⟩ j (by omega)
        exact ⟨handle', by rwa [show k + (j + 1) = k + 1 + j by omega]⟩
    · intro h
      obtain ⟨handle, hhandle⟩ := h 0 left.succ_pos
      obtain ⟨tail, htail⟩ := ih.mpr fun j hj => by
        rw [show k + 1 + j = k + (j + 1) by omega]
        exact h (j + 1) (by omega)
      exact ⟨_, handle, tail, hhandle, htail, rfl⟩

/-- The outcomes of a registration: it is refused, perhaps with a larger array, or there is no
piece, or its entries are inserted. -/
inductive Outcome (cfg : Setup) (env : Answers H) (cache : Cache H) (addr length : ℕ) :
    Status × Cache H → Prop
  | unchecked {status : Status} (hwhy : ¬ Checked cfg env addr length) :
      Outcome cfg env cache addr length (status, cache)
  | opposed {status : Status} {cache' : Cache H} (hchecked : Checked cfg env addr length)
      (hpos : numberOfHandles length ≠ 0) (hwhy : ¬ Unopposed cfg env cache addr length)
      (hcache : cache' = cache ∨ cache.enlarge env (numberOfHandles length) = some cache') :
      Outcome cfg env cache addr length (status, cache')
  | nothing (hchecked : Checked cfg env addr length) (hzero : numberOfHandles length = 0) :
      Outcome cfg env cache addr length (.internal, { cache with corrupted := true })
  | inserted {cache' : Cache H} {byUs : Bool} {i : ℕ} {handles : List (LocalBufHandle H)}
      (hchecked : Checked cfg env addr length) (hpos : numberOfHandles length ≠ 0)
      (hunopposed : Unopposed cfg env cache addr length)
      (henlarge : cache.enlarge env (numberOfHandles length) = some cache')
      (hindex : selectIndex addr cache.buffers 0 = some i)
      (hmake : makeHandles env byUs (numberOfHandles length) 0 addr length = .ok handles) :
      Outcome cfg env cache addr length
        (if env.updateDeviceState then (.success, cache'.insert i handles)
          else (.internal, { cache'.insert i handles with corrupted := true }))

theorem buffers_of_enlarge (h : cache.enlarge env n = some cache') :
    cache'.buffers = cache.buffers ∧ cache'.corrupted = cache.corrupted := by
  rw [enlarge] at h
  split_ifs at h
  all_goals
    cases h
    exact ⟨rfl, rfl⟩

theorem outcome_bufferRegister (cfg : Setup) (env : Answers H) (cache : Cache H)
    (addr length : ℕ) :
    Outcome cfg env cache addr length (cache.bufferRegister cfg env addr length) := by
  rw [bufferRegister]
  cases hcheck : checkBuffer cfg env addr length with
  | error status =>
    refine .unchecked fun hchecked => ?_
    obtain ⟨type, hattr, -⟩ := hchecked.attr
    cases hcheck.symm.trans (checkBuffer_eq_ok.mpr ⟨hchecked, hattr⟩)
  | ok type =>
    obtain ⟨hchecked, hattr⟩ := checkBuffer_eq_ok.mp hcheck
    by_cases hn : numberOfHandles length = 0
    · simp only [hn, if_true]
      exact .nothing hchecked hn
    simp only [hn, if_false]
    cases hhost : hostRegister cfg env type with
    | error status =>
      dsimp only
      refine .opposed hchecked hn (fun h => ?_) (.inl rfl)
      obtain ⟨byUs, hok⟩ := hostRegister_eq_ok.mpr ⟨h.lock, fun heq => h.host (heq ▸ hattr)⟩
      cases hhost.symm.trans hok
    | ok byUs =>
      obtain ⟨hlock, hhost⟩ := hostRegister_eq_ok.mp ⟨byUs, hhost⟩
      cases henlarge : cache.enlarge env (numberOfHandles length) with
      | none =>
        dsimp only
        exact .opposed hchecked hn (fun h => enlarge_ne_none.mpr h.room henlarge) (.inl rfl)
      | some cache' =>
        dsimp only
        rw [(buffers_of_enlarge henlarge).1]
        cases hindex : selectIndex addr cache.buffers 0 with
        | none => exact .opposed hchecked hn (fun h => h.index hindex) (.inr henlarge)
        | some i =>
          cases hmake : makeHandles env byUs (numberOfHandles length) 0 addr length with
          | error code =>
            refine .opposed hchecked hn (fun h => ?_) (.inr henlarge)
            have hhandles : ∀ j < numberOfHandles length,
                ∃ handle, env.getMemHandle (0 + j) = .ok handle := fun j hj => by
              rw [Nat.zero_add]
              exact h.handles j hj
            obtain ⟨handles, hok⟩ := exists_makeHandles.mpr hhandles
            rw [hok] at hmake
            cases hmake
          | ok handles =>
            refine .inserted hchecked hn ⟨hlock, fun h => hhost ?_, ?_, ?_, ?_⟩ henlarge hindex
              hmake
            · exact Option.some.inj (hattr.symm.trans h)
            · refine enlarge_ne_none.mp ?_
              rw [henlarge]
              exact some_ne_none cache'
            · rw [hindex]
              exact some_ne_none i
            · intro k hk
              have := exists_makeHandles.mp ⟨handles, hmake⟩ k hk
              rwa [Nat.zero_add] at this

theorem Inv.insert (h : cache.Inv cfg) {arraySize : ℕ} (hfits : Fits cfg env cache addr length)
    (hpos : 0 < length) (hheap : ¬ (cfg.heapBase ≤ addr ∧ addr < cfg.heapBase + cfg.heapSize))
    (hindex : selectIndex addr cache.buffers 0 = some i) (hpieces : Pieces addr length handles)
    (hused : cache.buffers.length + handles.length < arraySize) :
    Inv cfg ({ cache with arraySize := arraySize }.insert i handles) := by
  obtain ⟨xs, ys, heq, rfl, hxs, hys⟩ := selectIndex_spec h.ordered hindex
  have hinsert : ({ cache with arraySize := arraySize } : Cache H).insert (0 + xs.length) handles =
      ⟨arraySize, xs ++ handles ++ ys, cache.corrupted⟩ := by
    rw [Cache.insert, heq, Nat.zero_add, take_left, drop_left]
  rw [hinsert]
  have hle := h.ordered.pairwise_le
  have hbelow := hfits.below
  have hvalid := h.ordered.valid
  have hlinked := h.linked
  have hapart := h.apartHeap
  rw [heq] at hle hbelow hvalid hlinked hapart
  obtain ⟨hlexs, hleys, hlexy⟩ := pairwise_append.mp hle
  have hbehind : ∀ e ∈ ys, addr + length ≤ e.ptr := fun e he =>
    hbelow e (mem_append_right xs he) (hys e he)
  -- a chain does not go on across the new entries: its next entry would start before them
  have hlast : ∀ e ∈ xs.getLast?, e.linkedWithNext = false := by
    intro e he
    by_contra hnext
    obtain ⟨e', he', -, hptr⟩ := hlinked.follows he (Bool.not_eq_false _ ▸ hnext)
    have := hxs e (mem_of_getLast? he)
    have := hbehind e' (mem_of_head? he')
    omega
  obtain ⟨hlinkxs, hlinkys⟩ := hlinked.split hlast
  refine ⟨h.intact, .of_pairwise_le ?_ ?_, ?_, (hlinkxs.append hpieces.linked).append hlinkys, ?_⟩
  · intro e he
    rcases mem_append.mp he with he | he
    · rcases mem_append.mp he with he | he
      · exact hvalid e (mem_append_left ys he)
      · have hbounds := hpieces.bounds e he
        have := hfits.lt
        omega
    · exact hvalid e (mem_append_right xs he)
  · refine pairwise_append.mpr ⟨pairwise_append.mpr ⟨hlexs, hpieces.pairwise, ?_⟩, hleys,
      fun e he e' he' => ?_⟩
    · intro e he e' he'
      exact (hxs e he).trans (hpieces.bounds e' he').1
    · rcases mem_append.mp he with he | he
      · exact hlexy e he e' he'
      · exact (hpieces.bounds e he).2.2.trans (hbehind e' he')
  · intro e he
    rcases mem_append.mp he with he | he
    · rcases mem_append.mp he with he | he
      · exact hapart e (mem_append_left ys he)
      · have hbounds := hpieces.bounds e he
        have := hfits.heap
        simp only [Apart, LocalBufHandle.range, Setup.heap]
        omega
    · exact hapart e (mem_append_right xs he)
  · rw [heq] at hused
    simp only [length_append] at hused ⊢
    omega

theorem Inv.bufferRegister (h : cache.Inv cfg) (hsafe : SafeRegister cfg env cache addr length) :
    Inv cfg (cache.bufferRegister cfg env addr length).2 := by
  have hlarger : ∀ cache', cache.enlarge env (numberOfHandles length) = some cache' →
      Inv cfg cache' := by
    intro cache' henlarge
    obtain ⟨hbuffers, hcorrupted, hroom⟩ := enlarge_spec h.used_lt henlarge
    exact ⟨hcorrupted ▸ h.intact, hbuffers ▸ h.ordered, hbuffers ▸ h.apartHeap,
      hbuffers ▸ h.linked, by rw [hbuffers]; omega⟩
  have hcase := fun hchecked : Checked cfg env addr length =>
    (hsafe.resolve_left hchecked.length_ne).resolve_left hchecked.heap
  have hn : length + maxHandleLength ≤ 2 ^ 64 →
      numberOfHandles length = (length + maxHandleLength - 1) / maxHandleLength := fun hle => by
    rw [numberOfHandles, Nat.mod_eq_of_lt (by omega)]
  have houtcome := outcome_bufferRegister cfg env cache addr length
  generalize cache.bufferRegister cfg env addr length = result at houtcome ⊢
  cases houtcome with
  | unchecked hwhy => exact h
  | opposed hchecked hpos hwhy hcache =>
    rcases hcache with rfl | henlarge
    · exact h
    · exact hlarger _ henlarge
  | nothing hchecked hzero =>
    have hle := (hcase hchecked).1
    have := hchecked.length_ne
    rw [hn hle] at hzero
    simp only [maxHandleLength] at hzero
    omega
  | @inserted cache' byUs i handles hchecked hpos hunopposed henlarge hindex hmake =>
    obtain ⟨hle, hsafe⟩ := hcase hchecked
    have hfits : Fits cfg env cache addr length := by
      refine hsafe.resolve_left ?_
      rintro ⟨e, he, hle, hlt⟩
      obtain ⟨xs, ys, heq, -, hxs, hys⟩ := selectIndex_spec h.ordered hindex
      rw [heq] at he
      rcases mem_append.mp he with he | he
      · have := hxs e he
        omega
      · have := hys e he
        omega
    rw [if_pos hfits.updates]
    obtain ⟨hpieces, hlength, -⟩ := makeHandles_spec (hn hle) hfits.lt hmake
    obtain ⟨hbuffers, hcorrupted, hroom⟩ := enlarge_spec h.used_lt henlarge
    obtain ⟨arraySize, buffers', corrupted'⟩ := cache'
    dsimp only at hbuffers hcorrupted hroom
    subst hbuffers hcorrupted
    exact h.insert hfits (Nat.pos_of_ne_zero hchecked.length_ne) hchecked.heap hindex hpieces
      (hlength ▸ hroom)

theorem findIndex_eq_some : findIndex addr buffers k = some i ↔
    ∃ xs e ys, buffers = xs ++ e :: ys ∧ i = k + xs.length ∧ e.ptr = addr ∧
      ∀ x ∈ xs, x.ptr < addr := by
  induction buffers generalizing k with
  | nil => simp [findIndex]
  | cons e es ih =>
    rw [findIndex]
    by_cases hlt : e.ptr < addr
    · rw [if_pos hlt, ih]
      constructor
      · rintro ⟨xs, e', ys, rfl, rfl, hptr, hxs⟩
        exact ⟨e :: xs, e', ys, rfl, by rw [length_cons]; omega, hptr,
          forall_mem_cons.mpr ⟨hlt, hxs⟩⟩
      · rintro ⟨xs, e', ys, heq, rfl, hptr, hxs⟩
        cases xs with
        | nil =>
          cases heq
          omega
        | cons x xs =>
          cases heq
          exact ⟨xs, e', ys, rfl, by rw [length_cons]; omega, hptr,
            fun x hx => hxs x (mem_cons_of_mem _ hx)⟩
    · rw [if_neg hlt, ite_none_right_eq_some, some_inj]
      constructor
      · rintro ⟨rfl, rfl⟩
        exact ⟨[], e, es, rfl, rfl, rfl, fun _ hx => absurd hx not_mem_nil⟩
      · rintro ⟨xs, e', ys, heq, rfl, hptr, hxs⟩
        cases xs with
        | nil =>
          cases heq
          exact ⟨hptr.symm, rfl⟩
        | cons x xs =>
          cases heq
          exact absurd (hxs e mem_cons_self) hlt

def SafeUnregister (cache : Cache H) (addr : ℕ) : Prop :=
  ∀ e ∈ cache.buffers, e.ptr = addr → e.linkedWithPrev = false

instance : Decidable (cache.SafeUnregister addr) :=
  inferInstanceAs (Decidable (∀ e ∈ cache.buffers, _))

theorem Inv.bufferUnregister (h : cache.Inv cfg) (hsafe : cache.SafeUnregister addr)
    (lock updateDeviceState : Bool) :
    Inv cfg (cache.bufferUnregister addr lock updateDeviceState).2 := by
  rw [Cache.bufferUnregister]
  by_cases hlock : lock = false
  · rwa [if_pos hlock]
  rw [if_neg hlock]
  cases hindex : findIndex addr cache.buffers 0 with
  | none => exact h
  | some i =>
    obtain ⟨xs, e, ys, heq, rfl, hptr, -⟩ := findIndex_eq_some.mp hindex
    have hprev := hsafe e (heq ▸ mem_append_right xs mem_cons_self) hptr
    have hlinked := h.linked
    rw [heq] at hlinked
    have hlast : ∀ e' ∈ xs.getLast?, e'.linkedWithNext = false := by
      intro e' he'
      by_contra hnext
      obtain ⟨e'', hhead, hprev', -⟩ := hlinked.follows he' (Bool.not_eq_false _ ▸ hnext)
      cases hhead
      rw [hprev] at hprev'
      exact Bool.false_ne_true hprev'
    obtain ⟨hlinkxs, hlinkys⟩ := hlinked.split hlast
    obtain ⟨zs, rest, hsplit, hlen, hlinkrest⟩ := hlinkys.chainLength_eq
    have hremove : cache.remove (0 + xs.length) = ⟨cache.arraySize, xs ++ rest, false⟩ := by
      rw [Cache.remove, heq, Nat.zero_add, drop_left, hlen]
      dsimp only
      rw [take_left, ← drop_drop, drop_left, hsplit, drop_left, ← hsplit]
      simp only [head?_cons, map_some, getD_some, hprev]
    have hsub : (xs ++ rest).Sublist cache.buffers := by
      rw [heq, hsplit]
      exact (sublist_append_right zs rest).append_left xs
    dsimp only
    rw [hremove]
    exact ⟨rfl, h.ordered.sublist hsub, fun e' he' => h.apartHeap e' (hsub.subset he'),
      hlinkxs.append hlinkrest, hsub.length_le.trans_lt h.used_lt⟩

theorem Inv.bufferUnregisterAll (h : cache.Inv cfg) (lock : Bool) :
    Inv cfg (cache.bufferUnregisterAll lock) := by
  rw [Cache.bufferUnregisterAll]
  split_ifs
  · exact ⟨h.intact, .nil, fun _ he => absurd he not_mem_nil, .nil,
      (Nat.zero_le _).trans_lt h.used_lt⟩
  · exact h

end Cache

namespace State

variable {transports : Finset ℕ} {s s' : State H}

def SafeFor (cfg : Setup) (i : ℕ) (cache : Cache H) : Action H → Prop
  | .register addr length env => cache.SafeRegister cfg (env i) addr length
  | .unregister addr _ _ => cache.SafeUnregister addr
  | .unregisterAll _ => True

instance : (a : Action H) → Decidable (SafeFor cfg i cache a)
  | .register addr length env =>
    inferInstanceAs (Decidable (cache.SafeRegister cfg (env i) addr length))
  | .unregister addr _ _ => inferInstanceAs (Decidable (cache.SafeUnregister addr))
  | .unregisterAll _ => inferInstanceAs (Decidable True)

def Safe (cfg : Setup) (transports : Finset ℕ) (s : State H) (a : Action H) : Prop :=
  ∀ i ∈ transports, SafeFor cfg i (s i) a

instance (s : State H) : DecidablePred (Safe cfg transports s) := fun a =>
  inferInstanceAs (Decidable (∀ i ∈ transports, SafeFor cfg i (s i) a))

theorem inv_onCache {a : Action H} (h : cache.Inv cfg) (hsafe : SafeFor cfg i cache a) :
    Cache.Inv cfg (onCache cfg i cache a) := by
  cases a with
  | register addr length env => exact h.bufferRegister hsafe
  | unregister addr lock updateDeviceState => exact h.bufferUnregister hsafe _ _
  | unregisterAll lock => exact h.bufferUnregisterAll _

def oneMegabyte : Setup := ⟨2 ^ 20, 2 ^ 20, true, by decide⟩

def granted : Answers ℕ := ⟨some .host, fun _ => true, true, true, true, .ok, true⟩

def registerApart : List (Action ℕ) :=
  [.register 8192 4096 fun _ => granted, .register 10000 4096 fun _ => granted,
    .register 4096 4096 fun _ => granted, .unregister 8192 (fun _ => true) fun _ => true]

def registerOver : List (Action ℕ) :=
  [.register 8192 4096 fun _ => granted, .register 4096 8192 fun _ => granted]

end State

end Nvshmem.Buffers
