import Nvshmem.Buffers.Registration

/-! # Outcomes of the calls

The entries of a registration are linked with each other and stand next to each other in the array,
whatever was registered. A call that unregisters is right when the search finds the first of these
entries, and one that registers leaves nothing behind when it fails before it inserts them.
-/

namespace Nvshmem.Buffers

open Transition List

variable {H : Type} {cfg : Setup} {env : Answers H} {cache cache' : Cache H}
  {buffers xs ys c : List (LocalBufHandle H)} {cs : List (List (LocalBufHandle H))}
  {e e' : LocalBufHandle H} {addr length i : ℕ}

/-- The registrations in an array. One goes on as long as its entries are linked with the next. -/
def registrations (buffers : List (LocalBufHandle H)) : List (List (LocalBufHandle H)) :=
  buffers.splitBy fun e _ => e.linkedWithNext

def StartsAt (addr : ℕ) (c : List (LocalBufHandle H)) : Prop := ∃ e ∈ c.head?, e.ptr = addr

instance : Decidable (StartsAt addr c) := inferInstanceAs (Decidable (∃ e ∈ c.head?, _))

structure Precedes (e e' : LocalBufHandle H) : Prop where
  next : e.linkedWithNext = true
  prev : e'.linkedWithPrev = true
  ptr_eq : e'.ptr = e.maxAddr

structure IsRegistration (c : List (LocalBufHandle H)) : Prop where
  ne_nil : c ≠ []
  chain : c.IsChain Precedes
  first : ∀ e ∈ c.head?, e.linkedWithPrev = false
  last : ∀ e ∈ c.getLast?, e.linkedWithNext = false

theorem registrations_flatten (h : ∀ c ∈ cs, IsRegistration c) :
    registrations cs.flatten = cs := by
  refine splitBy_flatten (fun hnil => (h [] hnil).ne_nil rfl)
    (fun c hc => (h c hc).chain.imp fun _ _ hprec => hprec.next) ?_
  refine List.Pairwise.isChain (pairwise_iff_forall_sublist.mpr fun {a b} hsub => ?_)
  have ha := h a (hsub.subset mem_cons_self)
  have hb := h b (hsub.subset (mem_cons_of_mem a mem_cons_self))
  exact ⟨ha.ne_nil, hb.ne_nil, ha.last _ (getLast?_eq_getLast_of_ne_nil ha.ne_nil)⟩

/-- Every part of the array that its links separate is a registration. -/
def Whole (buffers : List (LocalBufHandle H)) : Prop :=
  ∀ c ∈ registrations buffers, IsRegistration c

theorem flatten_registrations (buffers : List (LocalBufHandle H)) :
    (registrations buffers).flatten = buffers := flatten_splitBy _ _

theorem Whole.of_flatten (h : ∀ c ∈ cs, IsRegistration c) : Whole cs.flatten := by
  rw [Whole, registrations_flatten h]
  exact h

theorem Whole.cut (h : Whole (xs ++ ys)) :
    (∃ as bs, registrations (xs ++ ys) = as ++ bs ∧ xs = as.flatten ∧ ys = bs.flatten) ∨
      ∃ e ∈ xs.getLast?, ∃ e' ∈ ys.head?, Precedes e e' := by
  obtain hcut | ⟨as, bs, e', es, ds, hreg, rfl, rfl⟩ :=
    flatten_eq_append_iff.mp (flatten_registrations (xs ++ ys))
  · exact .inl hcut
  rcases eq_nil_or_concat' bs with rfl | ⟨bs, e, rfl⟩
  · exact .inl ⟨as, (e' :: es) :: ds, hreg, append_nil _, rfl⟩
  · refine .inr ⟨e, ?_, e', rfl, ?_⟩
    · rw [← append_assoc, getLast?_concat]
      rfl
    · have hc : IsRegistration (bs ++ [e] ++ e' :: es) := by
        refine h _ ?_
        rw [hreg]
        exact mem_append_right as mem_cons_self
      exact (isChain_append.mp hc.chain).2.2 e (by rw [getLast?_concat]; rfl) e' rfl

namespace Cache

theorem selectIndex_cut {k : ℕ} (h : selectIndex addr buffers k = some i) :
    ∃ xs ys, buffers = xs ++ ys ∧ i = k + xs.length ∧
      (∀ e ∈ xs, e.maxAddr ≤ addr) ∧ ∀ e ∈ ys.head?, addr < e.ptr := by
  induction buffers generalizing k with
  | nil =>
    cases h
    exact ⟨[], [], rfl, rfl, fun _ he => absurd he not_mem_nil,
      fun _ he => absurd he (Option.not_mem_none _)⟩
  | cons e es ih =>
    rw [selectIndex] at h
    split_ifs at h with hlt hin heq
    · obtain ⟨xs, ys, rfl, rfl, hxs, hys⟩ := ih h
      refine ⟨e :: xs, ys, rfl, by rw [length_cons]; omega, ?_, hys⟩
      exact forall_mem_cons.mpr ⟨not_lt.mp hin, hxs⟩
    · cases h
      refine ⟨[], e :: es, rfl, rfl, fun _ he => absurd he not_mem_nil, ?_⟩
      rintro _ ⟨⟩
      omega

theorem makeHandles_linked {byUs : Bool} {left k start size : ℕ}
    {handles : List (LocalBufHandle H)}
    (h : makeHandles env byUs left k start size = .ok handles) :
    handles.length = left ∧ handles.IsChain Precedes ∧
      (∀ e ∈ handles.head?, e.ptr = start ∧ e.linkedWithPrev = decide (k ≠ 0)) ∧
      ∀ e ∈ handles.getLast?, e.linkedWithNext = false := by
  induction left generalizing k start size handles with
  | zero =>
    cases h
    exact ⟨rfl, .nil, fun _ he => absurd he (Option.not_mem_none _),
      fun _ he => absurd he (Option.not_mem_none _)⟩
  | succ left ih =>
    obtain ⟨handle, tail, -, htail, rfl⟩ := makeHandles_succ_eq_ok.mp h
    obtain ⟨rfl, hchain, hhead, hlast⟩ := ih htail
    refine ⟨rfl, ?_, by rintro _ ⟨⟩; exact ⟨rfl, rfl⟩, ?_⟩
    · refine isChain_cons.mpr ⟨fun e he => ?_, hchain⟩
      obtain ⟨hptr, hprev⟩ := hhead e he
      have hne : tail.length ≠ 0 := length_pos_of_mem (mem_of_head? he) |>.ne'
      exact ⟨decide_eq_true hne, hprev, hptr⟩
    · cases tail with
      | nil => rintro _ ⟨⟩; rfl
      | cons e es => rwa [getLast?_cons_cons]

theorem isRegistration_of_makeHandles {byUs : Bool} {n start size : ℕ}
    {handles : List (LocalBufHandle H)} (hn : n ≠ 0)
    (h : makeHandles env byUs n 0 start size = .ok handles) : IsRegistration handles := by
  obtain ⟨rfl, hchain, hhead, hlast⟩ := makeHandles_linked h
  exact ⟨ne_nil_of_length_pos (Nat.pos_of_ne_zero hn), hchain, fun e he => (hhead e he).2,
    hlast⟩

end Cache

open Cache

theorem Whole.insert (h : Whole cache.buffers) (hc : IsRegistration c)
    (hindex : selectIndex addr cache.buffers 0 = some i) : Whole (cache.insert i c).buffers := by
  obtain ⟨xs, ys, heq, rfl, hxs, hys⟩ := selectIndex_cut hindex
  have hbuffers : (cache.insert (0 + xs.length) c).buffers = xs ++ c ++ ys := by
    rw [Cache.insert, heq, Nat.zero_add, take_left, drop_left]
  rw [heq] at h
  obtain ⟨as, bs, hreg, rfl, rfl⟩ | ⟨e, he, e', he', hprec⟩ := h.cut
  · rw [Whole, hreg] at h
    have hall : ∀ c' ∈ as ++ [c] ++ bs, IsRegistration c' := by
      intro c' hc'
      simp only [mem_append, mem_singleton] at hc'
      rcases hc' with (hc' | rfl) | hc'
      · exact h c' (mem_append_left bs hc')
      · exact hc
      · exact h c' (mem_append_right as hc')
    have hflatten : as.flatten ++ c ++ bs.flatten = (as ++ [c] ++ bs).flatten := by
      rw [flatten_append, flatten_append, flatten_singleton]
    rw [hbuffers, hflatten]
    exact .of_flatten hall
  · have hle := hxs e (mem_of_getLast? he)
    have hlt := hys e' he'
    rw [hprec.ptr_eq] at hlt
    omega

theorem Whole.bufferRegister (h : Whole cache.buffers)
    (hintact : (cache.bufferRegister cfg env addr length).2.corrupted = false) :
    Whole (cache.bufferRegister cfg env addr length).2.buffers := by
  have houtcome := outcome_bufferRegister cfg env cache addr length
  generalize cache.bufferRegister cfg env addr length = result at houtcome hintact ⊢
  cases houtcome with
  | unchecked hwhy => exact h
  | opposed hchecked hpos hwhy hcache =>
    rcases hcache with rfl | henlarge
    · exact h
    · rwa [(buffers_of_enlarge henlarge).1]
  | nothing hchecked hzero => cases hintact
  | inserted hchecked hpos hunopposed henlarge hindex hmake =>
    have hbuffers := (buffers_of_enlarge henlarge).1
    rw [← hbuffers] at h hindex
    have hwhole := h.insert (isRegistration_of_makeHandles hpos hmake) hindex
    split_ifs at hintact ⊢
    exact hwhole

/-- A registration that fails leaves the cache as it was, unless its length wraps around or nothing
fails before the device state is updated. -/
theorem bufferRegister_unchanged_iff (cfg : Setup) (env : Answers H) (cache : Cache H)
    (addr length : ℕ) (hlt : length < 2 ^ 64) (hintact : cache.corrupted = false)
    (herror : (cache.bufferRegister cfg env addr length).1 ≠ .success) :
    (cache.bufferRegister cfg env addr length).2.buffers = cache.buffers ∧
        (cache.bufferRegister cfg env addr length).2.corrupted = false ↔
      ¬ Checked cfg env addr length ∨ length + maxHandleLength ≤ 2 ^ 64 ∧
        (env.updateDeviceState = true ∨ ¬ Unopposed cfg env cache addr length) := by
  have hpieces := fun hchecked : Checked cfg env addr length =>
    numberOfHandles_ne_zero hchecked.length_ne hlt
  have houtcome := outcome_bufferRegister cfg env cache addr length
  generalize cache.bufferRegister cfg env addr length = result at houtcome herror ⊢
  cases houtcome with
  | unchecked hwhy => exact iff_of_true ⟨rfl, hintact⟩ (.inl hwhy)
  | opposed hchecked hpos hwhy hcache =>
    refine iff_of_true ?_ (.inr ⟨(hpieces hchecked).mp hpos, .inr hwhy⟩)
    rcases hcache with rfl | henlarge
    · exact ⟨rfl, hintact⟩
    · obtain ⟨hbuffers, hcorrupted⟩ := buffers_of_enlarge henlarge
      exact ⟨hbuffers, hcorrupted.trans hintact⟩
  | nothing hchecked hzero =>
    refine iff_of_false (fun h => Bool.noConfusion h.2) ?_
    rintro (hwhy | ⟨hle, -⟩)
    · exact hwhy hchecked
    · exact (hpieces hchecked).mpr hle hzero
  | inserted hchecked hpos hunopposed henlarge hindex hmake =>
    have hupdate : env.updateDeviceState = false := by
      by_contra htrue
      rw [if_pos (Bool.not_eq_false _ ▸ htrue)] at herror
      exact herror rfl
    rw [hupdate]
    refine iff_of_false (fun h => Bool.noConfusion h.2) ?_
    rintro (hwhy | ⟨-, hfalse | hwhy⟩)
    · exact hwhy hchecked
    · exact Bool.false_ne_true hfalse
    · exact hwhy hunopposed

def oneBuffer : Cache ℕ := ⟨64, [⟨8192, 4096, 0, false, false, false⟩], false⟩

theorem bufferRegister_unchanged_oneBuffer :
    (oneBuffer.bufferRegister State.oneMegabyte State.granted 10000 4096).1 = .invalidValue ∧
      (oneBuffer.bufferRegister State.oneMegabyte State.granted 10000 4096).2.buffers =
        oneBuffer.buffers :=
  ⟨by decide, ((bufferRegister_unchanged_iff _ _ oneBuffer 10000 4096 (by decide) rfl
    (by decide)).mpr (.inr ⟨by decide, .inl rfl⟩)).1⟩

theorem not_bufferRegister_unchanged : ∃ env : Answers ℕ,
    (oneBuffer.bufferRegister State.oneMegabyte env 4096 4096).1 = .internal ∧
      (oneBuffer.bufferRegister State.oneMegabyte env 4096 4096).2.buffers ≠ oneBuffer.buffers ∧
      (oneBuffer.bufferRegister State.oneMegabyte env 4096 4096).2.corrupted = true :=
  ⟨{ State.granted with updateDeviceState := false }, by decide, by decide, by decide⟩

def FirstAt (buffers : List (LocalBufHandle H)) (addr : ℕ) (e : LocalBufHandle H) : Prop :=
  ∃ xs ys, buffers = xs ++ e :: ys ∧ e.ptr = addr ∧ ∀ x ∈ xs, x.ptr < addr

theorem chainLength_append (hc : c ≠ []) (hchain : c.IsChain Precedes)
    (hlast : ∀ e ∈ c.getLast?, e.linkedWithNext = false) (ys : List (LocalBufHandle H)) :
    chainLength (c ++ ys) = some c.length := by
  induction c with
  | nil => exact absurd rfl hc
  | cons e es ih =>
    rw [cons_append, chainLength]
    cases es with
    | nil =>
      rw [hlast e rfl]
      rfl
    | cons e' es =>
      obtain ⟨hprec, htail⟩ := isChain_cons_cons.mp hchain
      rw [hprec.next, if_pos rfl, ih (cons_ne_nil _ _) htail fun x hx => hlast x ?_]
      · rfl
      · rwa [getLast?_cons_cons]

theorem Whole.remove (h : Whole cache.buffers) (hbuffers : cache.buffers = xs ++ e :: ys)
    (hprev : e.linkedWithPrev = false) :
    ∃ as c bs, registrations cache.buffers = as ++ c :: bs ∧ e ∈ c.head? ∧
      (cache.remove xs.length).buffers = (as ++ bs).flatten ∧
      (cache.remove xs.length).corrupted = false := by
  rw [hbuffers] at h ⊢
  obtain ⟨as, bs, hreg, rfl, hys⟩ | ⟨e', -, e'', he'', hprec⟩ := h.cut
  · rw [Whole, hreg] at h
    cases bs with
    | nil => cases hys
    | cons c bs =>
      have hc := h c (mem_append_right as mem_cons_self)
      cases c with
      | nil => exact absurd rfl hc.ne_nil
      | cons e' es =>
        obtain ⟨rfl, hes⟩ := cons.inj hys
        refine ⟨as, e :: es, bs, hreg, rfl, ?_⟩
        have hlen := chainLength_append hc.ne_nil hc.chain hc.last bs.flatten
        rw [remove, hbuffers, drop_left, hys, flatten_cons, hlen]
        dsimp only
        rw [take_left, ← drop_drop, drop_left, drop_left,
          flatten_append]
        exact ⟨rfl, hprev⟩
  · cases he''
    exact absurd (hprev.symm.trans hprec.prev) Bool.false_ne_true

theorem remove_corrupted (hbuffers : cache.buffers = xs ++ e :: ys)
    (hprev : e.linkedWithPrev = true) : (cache.remove xs.length).corrupted = true := by
  rw [remove, hbuffers, drop_left]
  cases chainLength (e :: ys) with
  | none => rfl
  | some n => exact hprev

theorem Whole.bufferUnregister (h : Whole cache.buffers) (lock updateDeviceState : Bool)
    (hintact : (cache.bufferUnregister addr lock updateDeviceState).2.corrupted = false) :
    Whole (cache.bufferUnregister addr lock updateDeviceState).2.buffers := by
  rw [Cache.bufferUnregister] at hintact ⊢
  by_cases hlock : lock = false
  · rwa [if_pos hlock]
  rw [if_neg hlock] at hintact ⊢
  cases hindex : findIndex addr cache.buffers 0 with
  | none => exact h
  | some i =>
    obtain ⟨xs, e, ys, hbuffers, rfl, -, -⟩ := findIndex_eq_some.mp hindex
    simp only [hindex, Nat.zero_add] at hintact ⊢
    cases hprev : e.linkedWithPrev with
    | true => exact absurd (remove_corrupted hbuffers hprev) (Bool.not_eq_true _ ▸ hintact)
    | false =>
      obtain ⟨as, c, bs, hreg, -, hremove, -⟩ := h.remove hbuffers hprev
      rw [hremove]
      rw [Whole, hreg] at h
      refine .of_flatten fun c' hc' => h c' ?_
      exact ((sublist_cons_self c bs).append_left as).subset hc'

theorem State.whole_of_reachable {transports : Finset ℕ} {s : State H}
    (hr : Reachable (State.step cfg transports) State.init s) :
    ∀ i ∈ transports, (s i).corrupted = false → Whole (s i).buffers := by
  refine hr.invariant (I := fun s => ∀ i ∈ transports, (s i).corrupted = false →
    Whole (s i).buffers) (fun _ _ _ => ?_) ?_
  · exact fun _ hc => absurd hc not_mem_nil
  · intro u a v hu hs i hi hintact
    rw [State.step] at hs
    split_ifs at hs with hcorrupted
    cases hs
    dsimp only at hintact ⊢
    rw [if_pos hi] at hintact ⊢
    have hwhole := hu i hi (Bool.eq_false_iff.mpr fun htrue => hcorrupted ⟨i, hi, htrue⟩)
    cases a with
    | register addr length env => exact hwhole.bufferRegister hintact
    | unregister addr lock updateDeviceState => exact hwhole.bufferUnregister _ _ hintact
    | unregisterAll lock =>
      simp only [onCache, bufferUnregisterAll] at hintact ⊢
      split_ifs
      · exact fun _ hc => absurd hc not_mem_nil
      · exact hwhole

/-- What `buffer_unregister` is for: it removes the registration that starts at the address. -/
structure Unregistered (cache : Cache H) (addr : ℕ) (status : Status) (cache' : Cache H) :
    Prop where
  success_iff : status = .success ↔ ∃ c ∈ registrations cache.buffers, StartsAt addr c
  removed : status = .success → ∃ as c bs, registrations cache.buffers = as ++ c :: bs ∧
    StartsAt addr c ∧ registrations cache'.buffers = as ++ bs ∧ cache'.corrupted = false
  unchanged : status ≠ .success → cache' = cache

/-- A registration that starts at the address is reached by the search and removed without a
failure, and no entry in the middle of a registration is found instead. -/
structure Unregisterable (cache : Cache H) (addr : ℕ) (lock updateDeviceState : Bool) : Prop where
  start : ∀ c ∈ registrations cache.buffers, StartsAt addr c → lock = true ∧
    updateDeviceState = true ∧ ∃ e, FirstAt cache.buffers addr e ∧ e.linkedWithPrev = false
  middle : ∀ e, FirstAt cache.buffers addr e → e.linkedWithPrev = true → lock = false

theorem FirstAt.findIndex_eq (h : FirstAt buffers addr e) :
    ∃ i, findIndex addr buffers 0 = some i ∧ buffers[i]? = some e := by
  obtain ⟨xs, ys, rfl, hptr, hxs⟩ := h
  exact ⟨xs.length, findIndex_eq_some.mpr ⟨xs, e, ys, rfl, (Nat.zero_add _).symm, hptr, hxs⟩,
    by rw [getElem?_append_right le_rfl, Nat.sub_self, getElem?_cons_zero]⟩

theorem FirstAt.eq (h : FirstAt buffers addr e) (h' : FirstAt buffers addr e') : e = e' := by
  obtain ⟨i, hi, he⟩ := h.findIndex_eq
  obtain ⟨j, hj, he'⟩ := h'.findIndex_eq
  cases hi.symm.trans hj
  exact Option.some.inj (he.symm.trans he')

theorem unregistered_of_failure {status : Status} (hne : status ≠ .success) :
    Unregistered cache addr status cache ↔ ∀ c ∈ registrations cache.buffers, ¬ StartsAt addr c := by
  constructor
  · exact fun h c hc hstart => hne (h.success_iff.mpr ⟨c, hc, hstart⟩)
  · exact fun h => ⟨iff_of_false hne fun ⟨c, hc, hstart⟩ => h c hc hstart, fun heq => absurd heq hne,
      fun _ => rfl⟩

theorem Whole.removed_iff (h : Whole cache.buffers) (hintact : cache.corrupted = false)
    (lock updateDeviceState : Bool) :
    Unregistered cache addr (cache.bufferUnregister addr lock updateDeviceState).1
        (cache.bufferUnregister addr lock updateDeviceState).2 ↔
      Unregisterable cache addr lock updateDeviceState := by
  rw [Cache.bufferUnregister]
  cases lock with
  | false =>
    rw [if_pos rfl, unregistered_of_failure (fun heq => by cases heq)]
    constructor
    · exact fun hno => ⟨fun c hc hstart => absurd hstart (hno c hc), fun _ _ _ => rfl⟩
    · exact fun hun c hc hstart => Bool.false_ne_true (hun.start c hc hstart).1
  | true =>
    rw [if_neg (by decide)]
    cases hindex : findIndex addr cache.buffers 0 with
    | none =>
      have hnone : ∀ e, ¬ FirstAt cache.buffers addr e := by
        intro e he
        obtain ⟨i, hi, -⟩ := he.findIndex_eq
        cases hindex.symm.trans hi
      rw [unregistered_of_failure (fun heq => by cases heq)]
      constructor
      · exact fun hno => ⟨fun c hc hstart => absurd hstart (hno c hc),
          fun e he => absurd he (hnone e)⟩
      · intro hun c hc hstart
        obtain ⟨e, he, -⟩ := (hun.start c hc hstart).2.2
        exact hnone e he
    | some i =>
      obtain ⟨xs, e, ys, hbuffers, rfl, hptr, hxs⟩ := findIndex_eq_some.mp hindex
      have hfirst : FirstAt cache.buffers addr e := ⟨xs, ys, hbuffers, hptr, hxs⟩
      dsimp only
      rw [Nat.zero_add]
      cases hprev : e.linkedWithPrev with
      | true =>
        have hcorrupted := remove_corrupted hbuffers hprev
        refine iff_of_false (fun hun => ?_) fun hun => ?_
        · by_cases hsuccess : (if updateDeviceState then Status.success else .internal) = .success
          · obtain ⟨-, -, -, -, -, -, hfalse⟩ := hun.removed hsuccess
            exact Bool.false_ne_true (hfalse.symm.trans hcorrupted)
          · rw [hun.unchanged hsuccess, hintact] at hcorrupted
            exact Bool.false_ne_true hcorrupted
        · exact Bool.false_ne_true (hun.middle e hfirst hprev).symm
      | false =>
        obtain ⟨as, c, bs, hreg, he, hremove, hsound⟩ := h.remove hbuffers hprev
        have hc : c ∈ registrations cache.buffers := by
          rw [hreg]
          exact mem_append_right as mem_cons_self
        have hstart : StartsAt addr c := ⟨e, he, hptr⟩
        cases updateDeviceState with
        | false =>
          refine iff_of_false (fun hun => ?_) fun hun => ?_
          · cases hun.success_iff.mpr ⟨c, hc, hstart⟩
          · exact Bool.false_ne_true (hun.start c hc hstart).2.1
        | true =>
          refine iff_of_true ⟨iff_of_true rfl ⟨c, hc, hstart⟩, fun _ => ?_,
            fun hne => absurd rfl hne⟩ ⟨fun _ _ _ => ⟨rfl, rfl, e, hfirst, hprev⟩, ?_⟩
          · refine ⟨as, c, bs, hreg, hstart, ?_, hsound⟩
            rw [hremove]
            refine registrations_flatten fun c' hc' => h c' ?_
            rw [hreg]
            exact ((sublist_cons_self c bs).append_left as).subset hc'
          · intro e' he' hprev'
            rw [hfirst.eq he'] at hprev
            exact absurd (hprev.symm.trans hprev') Bool.false_ne_true

/-- A buffer is unregistered as it should be if and only if its start is what the search finds. -/
theorem State.unregistered_iff (cfg : Setup) (transports : Finset ℕ) (s : State H)
    (hr : Reachable (State.step cfg transports) State.init s) (i : ℕ) (hi : i ∈ transports)
    (hintact : (s i).corrupted = false) (addr : ℕ) (lock updateDeviceState : Bool) :
    Unregistered (s i) addr ((s i).bufferUnregister addr lock updateDeviceState).1
        ((s i).bufferUnregister addr lock updateDeviceState).2 ↔
      Unregisterable (s i) addr lock updateDeviceState :=
  (State.whole_of_reachable hr i hi hintact).removed_iff hintact lock updateDeviceState

theorem State.unregistered_registerApart : ∃ s : State ℕ,
    Reachable (State.step oneMegabyte {0}) init s ∧ (s 0).buffers.length = 2 ∧
      Unregistered (s 0) 8192 ((s 0).bufferUnregister 8192 true true).1
        ((s 0).bufferUnregister 8192 true true).2 := by
  refine Reachable.exists_of_exec (registerApart.take 3) (fun s => (s 0).corrupted = false ∧
    (s 0).buffers = [⟨4096, 4096, 0, false, false, false⟩, ⟨8192, 4096, 0, false, false, false⟩])
    (by decide +kernel) ?_
  rintro s hr ⟨hintact, hbuffers⟩
  have hfirst : FirstAt (s 0).buffers 8192 ⟨8192, 4096, 0, false, false, false⟩ :=
    ⟨[_], [], hbuffers, rfl, by simp⟩
  refine ⟨by rw [hbuffers]; rfl, (unregistered_iff oneMegabyte {0} s hr 0 (by decide) hintact
    8192 true true).mpr ⟨fun _ _ _ => ⟨rfl, rfl, _, hfirst, rfl⟩, fun e he hprev => ?_⟩⟩
  rw [← hfirst.eq he] at hprev
  cases hprev

def State.registerLong : List (Action ℕ) := [.register (2 ^ 32) (5 * 2 ^ 30) fun _ => granted]

theorem State.not_unregistered_registerLong : ∃ s : State ℕ,
    Reachable (State.step oneMegabyte {0}) init s ∧ (s 0).corrupted = false ∧
      ¬ Unregistered (s 0) (2 ^ 32 + 2 ^ 31)
        ((s 0).bufferUnregister (2 ^ 32 + 2 ^ 31) true true).1
        ((s 0).bufferUnregister (2 ^ 32 + 2 ^ 31) true true).2 := by
  refine Reachable.exists_of_exec registerLong (fun s => (s 0).corrupted = false ∧
    ((s 0).bufferUnregister (2 ^ 32 + 2 ^ 31) true true).1 = .success ∧
    ∀ c ∈ registrations (s 0).buffers, ¬ StartsAt (2 ^ 32 + 2 ^ 31) c) (by decide +kernel) ?_
  rintro s - ⟨hintact, hsuccess, hno⟩
  refine ⟨hintact, fun hun => ?_⟩
  obtain ⟨c, hc, hstart⟩ := hun.success_iff.mp hsuccess
  exact hno c hc hstart

end Nvshmem.Buffers
