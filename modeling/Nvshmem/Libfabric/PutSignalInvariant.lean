import Nvshmem.Libfabric.PutSignal

/-! # The invariant of put with signal

What is in flight, in the maps and in the queues is determined by what has happened to each
put-signal. Put-signals that have not arrived completely are not acknowledged, so their sequence
numbers are different and their entries are separate.
-/

namespace Nvshmem.Libfabric

open Transition Function List Nat

theorem ackImm_eq {q : ℕ} (hq : q < 2 ^ 28) : ackImm q = 2 ^ 28 + q := by
  rw [ackImm, seqCntrBitShift, ← shiftLeft_add_eq_or_of_lt hq, one_shiftLeft]

theorem ackImm_header {q : ℕ} (hq : q < 2 ^ 28) : (ackImm q % 2 ^ 32) >>> seqCntrBitShift = 1 := by
  rw [ackImm_eq hq, seqCntrBitShift]
  omega

theorem ackImm_and {q : ℕ} (hq : q < 2 ^ 28) : ackImm q &&& sequenceMask = q := by
  rw [ackImm_eq hq, and_sequenceMask]
  omega

theorem seqNum_header {q : ℕ} (hq : q < 2 ^ 28) : (q % 2 ^ 32) >>> seqCntrBitShift = 0 := by
  rw [seqCntrBitShift]
  omega

theorem lt_of_lt_stagedAmoSeqNum {q : ℕ} (hq : q < stagedAmoSeqNum) : q < 2 ^ 28 :=
  hq.trans (by decide)

theorem mapKey_inj {a b q r : ℕ} (ha : a < 2 ^ 32) (hb : b < 2 ^ 32) (hq : q < 2 ^ 28)
    (hr : r < 2 ^ 28) (h : mapKey a q = mapKey b r) : a = b ∧ q = r := by
  rw [mapKey, mapKey, ← shiftLeft_add_eq_or_of_lt (hq.trans (by decide)),
    ← shiftLeft_add_eq_or_of_lt (hr.trans (by decide)), shiftLeft_eq, shiftLeft_eq] at h
  omega

theorem targetEp_div (pe src : ℕ) : targetEp pe src / numEps = pe := by
  have hlt : src % numEps < numEps := mod_lt _ (by decide)
  rw [targetEp, mul_comm, mul_add_div (by decide), div_eq_of_lt hlt, add_zero]

def Msg.origin : Msg → Origin
  | .data _ _ _ (.chunk j _) => .put j
  | .data _ _ _ (.ack origin) => origin
  | .signal _ _ _ j => .put j
  | .amo _ _ _ _ _ _ i => .amo i

def Msg.IsAck : Msg → Prop
  | .data _ _ _ (.ack _) => True
  | _ => False

/-- What holds of the messages of atomics that are not part of a put-signal. -/
def Msg.Sound (cfg : Config) : Msg → Prop
  | .data _ _ imm (.ack (.amo _)) => imm = ackImm stagedAmoSeqNum
  | .amo _ dst _ _ _ _ _ => dst / numEps < cfg.npes
  | _ => True

theorem Msg.sound_of_put {cfg : Config} {m : Msg} {j : ℕ} (hm : m.origin = .put j) :
    m.Sound cfg := by
  match m, hm with
  | .data _ _ _ (.chunk _ _), _ => exact trivial
  | .data _ _ _ (.ack (.put _)), _ => exact trivial
  | .signal _ _ _ _, _ => exact trivial

structure Op.Sound (cfg : Config) (pe : ℕ) (op : Op) : Prop where
  pe_lt : pe < cfg.npes
  type_eq : ∀ i, op.origin = .amo i → op.type = .send

namespace Put

variable (p : Put) (j : ℕ)

def key : ℕ := mapKey p.src p.sequenceCount

def ackMsg : Msg := .data p.dst p.src (ackImm p.sequenceCount) (.ack (.put j))

structure Wf (cfg : Config) : Prop where
  src_lt : p.src < cfg.npes * numEps
  pe_lt : p.pe < cfg.npes
  numWrites_lt : p.numWrites < 2 ^ 16
  sequenceCount_lt : p.sequenceCount < stagedAmoSeqNum

variable {p} in
theorem Wf.key_inj {q : Put} {cfg : Config} (hp : p.Wf cfg) (hq : q.Wf cfg)
    (h : p.key = q.key) : p.src = q.src ∧ p.sequenceCount = q.sequenceCount := by
  have hsrc := hp.src_lt
  have hsrc' := hq.src_lt
  have hnpes := cfg.npes_lt
  rw [show numEps = 2 from rfl] at hsrc hsrc'
  exact mapKey_inj (by omega) (by omega) (lt_of_lt_stagedAmoSeqNum hp.sequenceCount_lt)
    (lt_of_lt_stagedAmoSeqNum hq.sequenceCount_lt) h

def InFlight (h : History) (m : Msg) : Prop :=
  (∃ k < h.posted, k ∉ h.arrived ∧ m = p.chunkMsg j k) ∨
    (h.signalled = true ∧ h.matched = false ∧ m = p.signalMsg j) ∨
    (0 < h.applied ∧ h.acked = false ∧ m = p.ackMsg j)

@[simp] theorem origin_chunkMsg (k : ℕ) : (p.chunkMsg j k).origin = .put j := rfl

@[simp] theorem origin_signalMsg : (p.signalMsg j).origin = .put j := rfl

theorem dst_div : p.dst / numEps = p.pe := targetEp_div p.pe p.src

end Put

namespace History

variable (h : History)

def Complete (numWrites : ℕ) : Prop := h.matched = true ∧ h.arrived.card = numWrites

instance (numWrites : ℕ) : Decidable (h.Complete numWrites) := inferInstanceAs (Decidable (_ ∧ _))

structure Wf (numWrites : ℕ) : Prop where
  posted_le : h.posted ≤ numWrites
  posted_eq : h.signalled = true → h.posted = numWrites
  signalled : h.matched = true → h.signalled = true
  arrived_subset : h.arrived ⊆ Finset.range h.posted
  applied_le : h.applied ≤ 1
  complete : 0 < h.applied → h.Complete numWrites
  applied : h.acked = true → 0 < h.applied

def count (p : Put) (j : ℕ) : Option Op × ℤ :=
  (if h.matched then some (p.op j) else none,
    (if h.matched then (p.numWrites : ℤ) else 0) - h.arrived.card)

def entry (p : Put) (j : ℕ) : Option (Option Op × ℤ) :=
  if h.matched = false ∧ h.arrived = ∅ then none else some (h.count p j)

variable {h} {n : ℕ}

theorem count_snd_eq_zero {p : Put} {j : ℕ} (hne : h.matched = true ∨ h.arrived ≠ ∅) :
    (h.count p j).2 = 0 ↔ h.Complete p.numWrites := by
  rw [count, Complete]
  cases hm : h.matched with
  | true => simp only [if_true, true_and]; omega
  | false =>
    have hpos : h.arrived.card ≠ 0 :=
      fun hcard => hne.elim (by simp [hm]) fun harrived => harrived (Finset.card_eq_zero.mp hcard)
    simp only [Bool.false_eq_true, if_false, false_and, iff_false]
    omega

theorem Wf.applied_eq (hw : h.Wf n) (hc : ¬ h.Complete n) : h.applied = 0 := by
  by_contra hpos
  exact hc (hw.complete (Nat.pos_of_ne_zero hpos))

theorem Wf.acked_eq (hw : h.Wf n) (hc : ¬ h.Complete n) : h.acked = false := by
  by_contra hacked
  have hpos := hw.applied (by simpa using hacked)
  exact hc (hw.complete hpos)

theorem Wf.arrived_eq (hw : h.Wf n) (hc : h.Complete n) : h.arrived = Finset.range n := by
  have hposted : h.posted = n := hw.posted_eq (hw.signalled hc.1)
  have hsub := hw.arrived_subset
  rw [hposted] at hsub
  exact Finset.eq_of_subset_of_card_le hsub (by rw [Finset.card_range, hc.2])

end History

namespace State

structure Tracks (s : State) (j : ℕ) : Prop where
  net : ∀ m, m.origin = .put j →
    (m ∈ s.net ↔ j < s.issued ∧ (s.put j).InFlight j (s.history j) m)
  queue : ∀ pe op, op.origin = .put j → (s.otherRecv pe).count op =
    if j < s.issued ∧ pe = (s.put j).pe ∧ op = (s.put j).op j ∧
      (s.history j).Complete (s.put j).numWrites ∧ (s.history j).applied = 0 then 1 else 0
  posting : ∀ e i, s.posting e = some (j, i) ↔ j < s.issued ∧ e = (s.put j).src ∧
    (s.history j).signalled = false ∧ i = (s.history j).posted
  wf : j < s.issued → (s.history j).Wf (s.put j).numWrites
  entry : j < s.issued → ¬ (s.history j).Complete (s.put j).numWrites →
    s.compMap (s.put j).dst (s.put j).key = (s.history j).entry (s.put j) j

structure Inv (cfg : Config) (s : State) : Prop where
  put_wf : ∀ j < s.issued, (s.put j).Wf cfg
  tracks : ∀ j, s.Tracks j
  owner : ∀ ep key, s.compMap ep key ≠ none → ∃ j < s.issued, (s.put j).dst = ep ∧
    (s.put j).key = key ∧ ¬ (s.history j).Complete (s.put j).numWrites
  net_sound : ∀ m ∈ s.net, m.Sound cfg
  queue_sound : ∀ pe, ∀ op ∈ s.otherRecv pe, op.Sound cfg pe
  /-- The counters fit the sequence numbers that are not acknowledged. -/
  numbers : ∀ e, ∃ live, (s.counter e).Fits live ∧ ∀ q, q ∈ live ↔ ∃ j < s.issued,
    (s.put j).src = e ∧ (s.history j).acked = false ∧ (s.put j).sequenceCount = q
  distinct : ∀ i < s.issued, ∀ j < s.issued, (s.put i).src = (s.put j).src →
    (s.history i).acked = false → (s.history j).acked = false →
    (s.put i).sequenceCount = (s.put j).sequenceCount → i = j

variable {cfg : Config} {s t : State} {j : ℕ}

section SetHistory

variable (s : State) (j : ℕ) (h : History)

@[simp] theorem put_setHistory : (s.setHistory j h).put = s.put := rfl

@[simp] theorem compMap_setHistory : (s.setHistory j h).compMap = s.compMap := rfl

@[simp] theorem history_setHistory_self : (s.setHistory j h).history j = h :=
  update_self _ _ _

theorem history_setHistory_of_ne {i : ℕ} (hi : i ≠ j) :
    (s.setHistory j h).history i = s.history i := update_of_ne hi _ _

variable {s j h} in
theorem history_setHistory_congr {β : Type} (f : History → β) (hf : f h = f (s.history j)) (i : ℕ) :
    f ((s.setHistory j h).history i) = f (s.history i) := by
  by_cases hi : i = j
  · rw [hi, history_setHistory_self, hf]
  · rw [s.history_setHistory_of_ne j h hi]

end SetHistory

theorem Tracks.congr (h : s.Tracks j) (hissued : j < t.issued ↔ j < s.issued)
    (hput : t.put j = s.put j) (hhistory : t.history j = s.history j)
    (hnet : ∀ m, m.origin = .put j → (m ∈ t.net ↔ m ∈ s.net))
    (hqueue : ∀ pe op, op.origin = .put j →
      (t.otherRecv pe).count op = (s.otherRecv pe).count op)
    (hposting : ∀ e i, t.posting e = some (j, i) ↔ s.posting e = some (j, i))
    (hentry : j < s.issued → ¬ (s.history j).Complete (s.put j).numWrites →
      t.compMap (s.put j).dst (s.put j).key = s.compMap (s.put j).dst (s.put j).key) :
    t.Tracks j where
  net m hm := by rw [hnet m hm, h.net m hm, hissued, hput, hhistory]
  queue pe op hop := by
    rw [hqueue pe op hop, h.queue pe op hop, hput, hhistory]
    simp only [hissued]
  posting e i := by rw [hposting, h.posting, hissued, hput, hhistory]
  wf hj := by
    rw [hput, hhistory]
    exact h.wf (hissued.mp hj)
  entry hj hc := by
    rw [hput, hhistory] at hc ⊢
    rw [hentry (hissued.mp hj) hc, h.entry (hissued.mp hj) hc]

theorem Inv.init : (State.init).Inv cfg where
  put_wf j hj := absurd hj (Nat.not_lt_zero j)
  tracks j :=
    { net := fun m _ => by simp [State.init]
      queue := fun pe op _ => by simp [State.init]
      posting := fun e i => by simp [State.init]
      wf := fun hj => absurd hj (Nat.not_lt_zero j)
      entry := fun hj => absurd hj (Nat.not_lt_zero j) }
  owner ep key h := absurd rfl h
  net_sound m h := absurd h (Finset.notMem_empty _)
  queue_sound pe op h := absurd h not_mem_nil
  numbers e := ⟨∅, SeqCounter.fits_reset, fun q => by simp [State.init]⟩
  distinct i hi := absurd hi (Nat.not_lt_zero i)

theorem Inv.eq_of_key_eq (h : s.Inv cfg) {i : ℕ} (hi : i < s.issued) (hj : j < s.issued)
    (hai : (s.history i).acked = false) (haj : (s.history j).acked = false)
    (hkey : (s.put i).key = (s.put j).key) : i = j := by
  obtain ⟨hsrc, hseq⟩ := (h.put_wf i hi).key_inj (h.put_wf j hj) hkey
  exact h.distinct i hi j hj hsrc hai haj hseq

/-- The sequence number `q` of endpoint `e` is not acknowledged. -/
def Live (s : State) (e q : ℕ) : Prop :=
  ∃ j < s.issued, (s.put j).src = e ∧ (s.history j).acked = false ∧ (s.put j).sequenceCount = q

theorem Inv.numbers_update (h : s.Inv cfg) {src : ℕ} {c : SeqCounter} {live : Finset ℕ}
    (hcounter : t.counter = update s.counter src c) (hfits : c.Fits live)
    (hlive : ∀ q, q ∈ live ↔ t.Live src q) (hother : ∀ e ≠ src, ∀ q, t.Live e q ↔ s.Live e q)
    (e : ℕ) : ∃ live, (t.counter e).Fits live ∧ ∀ q, q ∈ live ↔ t.Live e q := by
  rw [hcounter]
  by_cases he : e = src
  · rw [he, update_self]
    exact ⟨live, hfits, hlive⟩
  · rw [update_of_ne he]
    obtain ⟨live, hfits, hlive⟩ := h.numbers e
    exact ⟨live, hfits, fun q => (hlive q).trans (hother e he q).symm⟩

theorem Inv.setCounter (h : s.Inv cfg) {src : ℕ} {c : SeqCounter}
    (hnext : (s.counter src).nextSeqNum = (c, none)) : (s.setCounter src c).Inv cfg where
  put_wf := h.put_wf
  tracks j := (h.tracks j).congr Iff.rfl rfl rfl (fun _ _ => Iff.rfl) (fun _ _ _ => rfl)
    (fun _ _ => Iff.rfl) fun _ _ => rfl
  owner := h.owner
  net_sound := h.net_sound
  queue_sound := h.queue_sound
  numbers := by
    obtain ⟨live, hfits, hlive⟩ := h.numbers src
    exact h.numbers_update rfl (hfits.nextSeqNum_none hnext) hlive fun _ _ _ => Iff.rfl
  distinct := h.distinct

section Issue

variable {p : Put} {c : SeqCounter}

theorem Inv.sequenceCount_ne (h : s.Inv cfg)
    (hnext : (s.counter p.src).nextSeqNum = (c, some p.sequenceCount)) (hj : j < s.issued)
    (hsrc : (s.put j).src = p.src) (hacked : (s.history j).acked = false) :
    (s.put j).sequenceCount ≠ p.sequenceCount := by
  obtain ⟨live, hfits, hlive⟩ := h.numbers p.src
  intro hseq
  exact (hfits.nextSeqNum_some hnext).1 ((hlive _).mpr ⟨j, hj, hsrc, hacked, hseq⟩)

theorem Inv.compMap_eq_none (h : s.Inv cfg) (hp : p.Wf cfg)
    (hnext : (s.counter p.src).nextSeqNum = (c, some p.sequenceCount)) :
    s.compMap p.dst p.key = none := by
  by_contra hne
  obtain ⟨i, hi, -, hkey, hc⟩ := h.owner _ _ hne
  obtain ⟨hsrc, hseq⟩ := (h.put_wf i hi).key_inj hp hkey
  exact h.sequenceCount_ne hnext hi hsrc (((h.tracks i).wf hi).acked_eq hc) hseq

theorem Inv.tracks_issue (h : s.Inv cfg) (hp : p.Wf cfg) (hidle : s.posting p.src = none)
    (hnext : (s.counter p.src).nextSeqNum = (c, some p.sequenceCount)) :
    ((s.setCounter p.src c).issue p).Tracks j := by
  by_cases hj : j = s.issued
  · subst hj
    have hold := h.tracks s.issued
    constructor
    · intro m hm
      have hnot : m ∉ s.net := fun hmem => absurd ((hold.net m hm).mp hmem).1 (lt_irrefl _)
      simp [issue, State.setCounter, Put.InFlight, History.start, hnot]
    · intro pe op hop
      have hcount := hold.queue pe op hop
      simp [issue, State.setCounter, History.Complete, History.start, hcount]
    · intro e i
      have hnot : ¬ s.posting e = some (s.issued, i) :=
        fun hmem => absurd ((hold.posting e i).mp hmem).1 (lt_irrefl _)
      by_cases he : e = p.src
      · simp [issue, State.setCounter, History.start, he, eq_comm]
      · simp [issue, State.setCounter, hnot, he]
    · intro _
      constructor <;> simp [issue, State.setCounter, History.start]
    · intro _ _
      simpa [issue, State.setCounter, History.entry, History.start] using h.compMap_eq_none hp hnext
  · refine (h.tracks j).congr ?_ (update_of_ne hj _ _) (update_of_ne hj _ _)
      (fun _ _ => Iff.rfl) (fun _ _ _ => rfl) ?_ fun _ _ => rfl
    · show j < s.issued + 1 ↔ j < s.issued
      omega
    · intro e i
      show update s.posting p.src (some (s.issued, 0)) e = _ ↔ _
      by_cases he : e = p.src
      · subst he
        simp [hidle, Ne.symm hj]
      · rw [update_of_ne he]

theorem Inv.issue (h : s.Inv cfg) (hp : p.Wf cfg) (hidle : s.posting p.src = none)
    (hnext : (s.counter p.src).nextSeqNum = (c, some p.sequenceCount)) :
    ((s.setCounter p.src c).issue p).Inv cfg := by
  have hput : ∀ j < s.issued, ((s.setCounter p.src c).issue p).put j = s.put j :=
    fun j hj => update_of_ne hj.ne _ _
  have hhistory : ∀ j < s.issued, ((s.setCounter p.src c).issue p).history j = s.history j :=
    fun j hj => update_of_ne hj.ne _ _
  have hput' : ((s.setCounter p.src c).issue p).put s.issued = p := update_self _ _ _
  have hhistory' : ((s.setCounter p.src c).issue p).history s.issued = .start :=
    update_self _ _ _
  have hcases : ∀ j < s.issued + 1, j < s.issued ∨ j = s.issued := fun j hj => by omega
  refine ⟨?_, fun j => h.tracks_issue hp hidle hnext, ?_, h.net_sound, h.queue_sound, ?_, ?_⟩
  · intro j hj
    rcases hcases j hj with hj | rfl
    · rw [hput j hj]
      exact h.put_wf j hj
    · rwa [hput']
  · intro ep key hne
    obtain ⟨j, hj, hrest⟩ := h.owner ep key hne
    refine ⟨j, lt_succ_of_lt hj, ?_⟩
    rwa [hput j hj, hhistory j hj]
  · have hlive : ∀ e q, ((s.setCounter p.src c).issue p).Live e q ↔
        e = p.src ∧ q = p.sequenceCount ∨ s.Live e q := by
      intro e q
      constructor
      · rintro ⟨j, hj, hrest⟩
        rcases hcases j hj with hj | rfl
        · rw [hput j hj, hhistory j hj] at hrest
          exact .inr ⟨j, hj, hrest⟩
        · rw [hput'] at hrest
          exact .inl ⟨hrest.1.symm, hrest.2.2.symm⟩
      · rintro (⟨rfl, rfl⟩ | ⟨j, hj, hrest⟩)
        · refine ⟨s.issued, lt_succ_self _, ?_⟩
          rw [hput', hhistory']
          exact ⟨rfl, rfl, rfl⟩
        · refine ⟨j, lt_succ_of_lt hj, ?_⟩
          rwa [hput j hj, hhistory j hj]
    obtain ⟨live, hfits, hold⟩ := h.numbers p.src
    refine h.numbers_update rfl (hfits.nextSeqNum_some hnext).2.2 (fun q => ?_) fun e he q => ?_
    · rw [Finset.mem_insert, hold, hlive, and_iff_right rfl]
      rfl
    · rw [hlive, or_iff_right fun hnew => he hnew.1]
  · intro i hi j hj hsrc hai haj hseq
    rcases hcases i hi with hi | rfl <;> rcases hcases j hj with hj | rfl
    · rw [hput i hi, hput j hj] at hsrc hseq
      rw [hhistory i hi] at hai
      rw [hhistory j hj] at haj
      exact h.distinct i hi j hj hsrc hai haj hseq
    · rw [hput i hi, hput'] at hsrc hseq
      rw [hhistory i hi] at hai
      exact absurd hseq (h.sequenceCount_ne hnext hi hsrc hai)
    · rw [hput', hput j hj] at hsrc hseq
      rw [hhistory j hj] at haj
      exact absurd hseq.symm (h.sequenceCount_ne hnext hj hsrc.symm haj)
    · rfl

end Issue

theorem mem_insert_of_origin {net : Finset Msg} {m m' : Msg} (h : m.origin ≠ m'.origin) :
    m ∈ insert m' net ↔ m ∈ net := by
  rw [Finset.mem_insert]
  exact or_iff_right fun heq => h (heq ▸ rfl)

theorem mem_erase_of_origin {net : Finset Msg} {m m' : Msg} (h : m.origin ≠ m'.origin) :
    m ∈ net.erase m' ↔ m ∈ net := by
  rw [Finset.mem_erase]
  exact and_iff_right fun heq => h (heq ▸ rfl)

theorem origin_ne {o : Origin} {i : ℕ} (hi : i ≠ j) (ho : o = .put i) : o ≠ .put j := by
  rw [ho]
  exact fun heq => hi (Origin.put.inj heq)

theorem Inv.of_acked (h : s.Inv cfg) (hissued : t.issued = s.issued) (hput : t.put = s.put)
    (hcounter : t.counter = s.counter)
    (hacked : ∀ j, (t.history j).acked = (s.history j).acked) (htracks : ∀ j, t.Tracks j)
    (howner : ∀ ep key, t.compMap ep key ≠ none → ∃ j < t.issued, (t.put j).dst = ep ∧
      (t.put j).key = key ∧ ¬ (t.history j).Complete (t.put j).numWrites)
    (hnet : ∀ m ∈ t.net, m.Sound cfg) (hqueue : ∀ pe, ∀ op ∈ t.otherRecv pe, op.Sound cfg pe) :
    t.Inv cfg where
  put_wf := by
    rw [hissued, hput]
    exact h.put_wf
  tracks := htracks
  owner := howner
  net_sound := hnet
  queue_sound := hqueue
  numbers := by
    rw [hissued, hput, hcounter]
    simp only [hacked]
    exact h.numbers
  distinct := by
    rw [hissued, hput]
    simp only [hacked]
    exact h.distinct

theorem Tracks.of_history {h' : History} (hj : j < s.issued) (hissued : t.issued = s.issued)
    (hput : t.put = s.put) (hhistory : t.history j = h')
    (hnet : ∀ m, m.origin = .put j → (m ∈ t.net ↔ (s.put j).InFlight j h' m))
    (hqueue : ∀ pe op, op.origin = .put j → (t.otherRecv pe).count op =
      if pe = (s.put j).pe ∧ op = (s.put j).op j ∧ h'.Complete (s.put j).numWrites ∧
        h'.applied = 0 then 1 else 0)
    (hposting : ∀ e i, t.posting e = some (j, i) ↔
      e = (s.put j).src ∧ h'.signalled = false ∧ i = h'.posted)
    (hw : h'.Wf (s.put j).numWrites) (hentry : ¬ h'.Complete (s.put j).numWrites →
      t.compMap (s.put j).dst (s.put j).key = h'.entry (s.put j) j) : t.Tracks j := by
  constructor <;> simp only [hissued, hput, hhistory, hj, true_and, forall_const]
  exacts [hnet, hqueue, hposting, hw, hentry]

theorem Inv.of_history (h : s.Inv cfg) (h' : History) (hj : j < s.issued)
    (hunacked : (s.history j).acked = false) (hissued : t.issued = s.issued) (hput : t.put = s.put)
    (hcounter : t.counter = s.counter) (hhistory : t.history = (s.setHistory j h').history)
    (hacked : h'.acked = false) (hmap : ∀ ep key, ep ≠ (s.put j).dst ∨ key ≠ (s.put j).key →
      t.compMap ep key = s.compMap ep key)
    (hown : h'.Complete (s.put j).numWrites → t.compMap (s.put j).dst (s.put j).key = none)
    (hnet : ∀ m, m.origin ≠ .put j → (m ∈ t.net ↔ m ∈ s.net))
    (hqueue : ∀ pe op, op.origin ≠ .put j →
      (t.otherRecv pe).count op = (s.otherRecv pe).count op)
    (hposting : ∀ e j' i, j' ≠ j → (t.posting e = some (j', i) ↔ s.posting e = some (j', i)))
    (htracks : t.Tracks j) : t.Inv cfg := by
  have hself : t.history j = h' := hhistory ▸ s.history_setHistory_self j h'
  have hne : ∀ j' ≠ j, t.history j' = s.history j' :=
    fun j' hj' => hhistory ▸ s.history_setHistory_of_ne j h' hj'
  refine h.of_acked hissued hput hcounter ?_ ?_ ?_ ?_ ?_
  · rw [hhistory]
    exact history_setHistory_congr History.acked (hacked.trans hunacked.symm)
  · intro j'
    by_cases hj' : j' = j
    · exact hj' ▸ htracks
    · refine (h.tracks j').congr (hissued ▸ Iff.rfl) (hput ▸ rfl) (hne j' hj')
        (fun m hm => hnet m (origin_ne hj' hm)) (fun pe op hop => hqueue pe op (origin_ne hj' hop))
        (fun e i => hposting e j' i hj') fun hlt hc => hmap _ _ (.inr fun hkey => hj' ?_)
      exact h.eq_of_key_eq hlt hj (((h.tracks j').wf hlt).acked_eq hc) hunacked hkey
  · intro ep key hsome
    by_cases hkey : ep = (s.put j).dst ∧ key = (s.put j).key
    · obtain ⟨rfl, rfl⟩ := hkey
      exact ⟨j, hissued ▸ hj, hput ▸ rfl, hput ▸ rfl,
        fun hc => hsome (hown (by rwa [hself, hput] at hc))⟩
    · rw [hmap ep key (not_and_or.mp hkey)] at hsome
      obtain ⟨j', hlt, hdst, hkey', hc⟩ := h.owner ep key hsome
      have hj' : j' ≠ j := by
        rintro rfl
        exact hkey ⟨hdst.symm, hkey'.symm⟩
      rw [hissued, hput]
      exact ⟨j', hlt, hdst, hkey', by rwa [hne j' hj']⟩
  · intro m hmem
    by_cases hm : m.origin = .put j
    · exact Msg.sound_of_put hm
    · exact h.net_sound m ((hnet m hm).mp hmem)
  · intro pe op hmem
    by_cases hop : op.origin = .put j
    · have hcount := htracks.queue pe op hop
      have hpos := count_pos_iff.mpr hmem
      split_ifs at hcount with hcond
      · obtain ⟨-, rfl, -⟩ := hcond
        rw [hput]
        exact ⟨(h.put_wf j hj).pe_lt, fun i hi => Origin.noConfusion (hop.symm.trans hi)⟩
      · omega
    · refine h.queue_sound pe op (count_pos_iff.mp ?_)
      rw [← hqueue pe op hop]
      exact count_pos_iff.mpr hmem

section Post

variable {src i : ℕ} {h' : History} {m' : Msg} {next : Option (ℕ × ℕ)}

theorem Inv.post (h : s.Inv cfg) (hposting : s.posting src = some (j, i))
    (hm' : m'.origin = .put j) (hw : h'.Wf (s.put j).numWrites)
    (harrived : h'.arrived = (s.history j).arrived) (hmatched : h'.matched = (s.history j).matched)
    (happlied : h'.applied = (s.history j).applied) (hacked : h'.acked = (s.history j).acked)
    (hflight : ∀ m, (s.put j).InFlight j h' m ↔ m = m' ∨ (s.put j).InFlight j (s.history j) m)
    (hnext : ∀ j' i, next = some (j', i) ↔ j' = j ∧ h'.signalled = false ∧ i = h'.posted) :
    State.Inv cfg { s.setHistory j h' with
      posting := update s.posting src next, net := insert m' s.net } := by
  obtain ⟨hj, hsrc, hsignalled, -⟩ := ((h.tracks j).posting src i).mp hposting
  have hold := h.tracks j
  have hc : ¬ (s.history j).Complete (s.put j).numWrites := fun hc =>
    Bool.false_ne_true (hsignalled.symm.trans ((hold.wf hj).signalled hc.1))
  have hcomplete : h'.Complete (s.put j).numWrites ↔
      (s.history j).Complete (s.put j).numWrites := by
    rw [History.Complete, History.Complete, harrived, hmatched]
  have hunacked := (hold.wf hj).acked_eq hc
  refine h.of_history h' hj hunacked rfl rfl rfl rfl (hacked.trans hunacked)
    (fun _ _ _ => rfl) (fun hc' => absurd (hcomplete.mp hc') hc)
    (fun m hm => mem_insert_of_origin (hm' ▸ hm)) (fun _ _ _ => rfl) ?_
    (.of_history hj rfl rfl (s.history_setHistory_self j h') ?_ ?_ ?_ hw ?_)
  · intro e j' i hj'
    dsimp only
    by_cases he : e = src
    · subst he
      simp [hnext, hposting, hj', Ne.symm hj']
    · rw [update_of_ne he]
  · intro m hm
    rw [Finset.mem_insert, hflight, hold.net m hm]
    simp only [hj, true_and]
  · intro pe op hop
    have hqueue := hold.queue pe op hop
    simp only [hj, true_and] at hqueue
    simp only [happlied, hcomplete]
    exact hqueue
  · intro e i
    dsimp only
    by_cases he : e = src
    · subst he
      simp [hnext, hsrc]
    · rw [update_of_ne he, hold.posting]
      simp [← hsrc, he]
  · intro _
    rw [History.entry, History.count, harrived, hmatched]
    exact hold.entry hj hc

theorem Inv.postWrite (h : s.Inv cfg) (hposting : s.posting src = some (j, i))
    (hi : i < (s.put j).numWrites) : (s.postWrite src j i).Inv cfg := by
  obtain ⟨hj, -, hsignalled, rfl⟩ := ((h.tracks j).posting src i).mp hposting
  have hw := (h.tracks j).wf hj
  have hnew : (s.history j).posted ∉ (s.history j).arrived :=
    fun hmem => absurd (Finset.mem_range.mp (hw.arrived_subset hmem)) (lt_irrefl _)
  refine h.post hposting (Put.origin_chunkMsg _ _ _) ?_ rfl rfl rfl rfl ?_ ?_
  · exact ⟨hi, fun htrue => absurd (hsignalled.symm.trans htrue) Bool.false_ne_true,
      hw.signalled, hw.arrived_subset.trans (Finset.range_subset_range.mpr (le_succ _)),
      hw.applied_le, hw.complete, hw.applied⟩
  · intro m
    simp only [Put.InFlight, Nat.lt_succ_iff_lt_or_eq]
    constructor
    · rintro (⟨k, hk | rfl, hrest⟩ | hrest)
      · exact .inr (.inl ⟨k, hk, hrest⟩)
      · exact .inl hrest.2
      · exact .inr (.inr hrest)
    · rintro (rfl | ⟨k, hk, hrest⟩ | hrest)
      · exact .inl ⟨_, .inr rfl, hnew, rfl⟩
      · exact .inl ⟨k, .inl hk, hrest⟩
      · exact .inr hrest
  · intro j' i
    simp [hsignalled, eq_comm]

theorem Inv.postSignal (h : s.Inv cfg) (hposting : s.posting src = some (j, i))
    (hi : i = (s.put j).numWrites) : (s.postSignal src j).Inv cfg := by
  obtain ⟨hj, -, hsignalled, rfl⟩ := ((h.tracks j).posting src i).mp hposting
  have hw := (h.tracks j).wf hj
  have hmatched : (s.history j).matched = false := by
    by_contra htrue
    exact absurd (hsignalled.symm.trans (hw.signalled (by simpa using htrue))) Bool.false_ne_true
  refine h.post hposting (Put.origin_signalMsg _ _) ?_ rfl rfl rfl rfl ?_ ?_
  · exact ⟨hw.posted_le, fun _ => hi, fun _ => rfl, hw.arrived_subset, hw.applied_le, hw.complete,
      hw.applied⟩
  · intro m
    simp only [Put.InFlight, hsignalled, hmatched, Bool.false_eq_true, false_and, false_or,
      true_and]
    exact or_left_comm
  · simp

end Post

section Arrive

def arrive (s : State) (j : ℕ) (h : History) (m : Msg) : State :=
  let p := s.put j
  { s.setHistory j h with
    net := s.net.erase m
    compMap := update s.compMap p.dst (update (s.compMap p.dst) p.key
      (if h.Complete p.numWrites then none else h.entry p j))
    otherRecv := if h.Complete p.numWrites then
        update s.otherRecv p.pe (s.otherRecv p.pe ++ [p.op j])
      else s.otherRecv }

variable {h' : History} {m' : Msg}

theorem putSignalCompletion_eq (h' : History) (m' : Msg) (op : Option Op) (progressCount : ℤ)
    (hentry : s.compMap (s.put j).dst (s.put j).key = (s.history j).entry (s.put j) j)
    (hcount : h'.count (s.put j) j = (op.or ((s.history j).count (s.put j) j).1,
      ((s.history j).count (s.put j) j).2 + progressCount))
    (hne : h'.matched = true ∨ h'.arrived ≠ ∅) :
    ({ s with net := s.net.erase m' }.setHistory j h').putSignalCompletion (s.put j).dst
      (s.put j).key op progressCount = some (s.arrive j h' m') := by
  have hnew : nextEntry op progressCount (s.compMap (s.put j).dst (s.put j).key) =
      h'.count (s.put j) j := by
    rw [hentry, hcount, History.entry]
    split_ifs with hnone
    · simp [nextEntry, History.count, hnone.1, hnone.2]
    · rfl
  have hsome : h'.entry (s.put j) j = some (h'.count (s.put j) j) := by
    rw [History.entry, if_neg]
    rintro ⟨hm, ha⟩
    exact hne.elim (fun htrue => Bool.false_ne_true (hm.symm.trans htrue)) fun hne => hne ha
  unfold putSignalCompletion
  simp only [compMap_setHistory, hnew, History.count_snd_eq_zero hne]
  by_cases hc : h'.Complete (s.put j).numWrites
  · have hop : (h'.count (s.put j) j).1 = some ((s.put j).op j) := by simp [History.count, hc.1]
    rw [hop, Put.dst_div]
    simp [arrive, hc, setEntry, putToRecv, setHistory]
  · simp [arrive, hc, setEntry, hsome, setHistory]

theorem Inv.arrive (h : s.Inv cfg) (hj : j < s.issued)
    (hc : ¬ (s.history j).Complete (s.put j).numWrites) (hm' : m'.origin = .put j)
    (hw : h'.Wf (s.put j).numWrites) (hposted : h'.posted = (s.history j).posted)
    (hsignalled : h'.signalled = (s.history j).signalled)
    (happlied : h'.applied = 0) (hacked : h'.acked = (s.history j).acked)
    (hflight : ∀ m, (s.put j).InFlight j h' m ↔ m ≠ m' ∧ (s.put j).InFlight j (s.history j) m) :
    (s.arrive j h' m').Inv cfg := by
  have hold := h.tracks j
  have hunacked := (hold.wf hj).acked_eq hc
  have hentry : (s.arrive j h' m').compMap (s.put j).dst (s.put j).key =
      if h'.Complete (s.put j).numWrites then none else h'.entry (s.put j) j := by
    simp [State.arrive]
  have hcount : ∀ pe op, ((s.arrive j h' m').otherRecv pe).count op = (s.otherRecv pe).count op +
      if pe = (s.put j).pe ∧ op = (s.put j).op j ∧ h'.Complete (s.put j).numWrites then 1
      else 0 := by
    intro pe op
    by_cases hcomplete : h'.Complete (s.put j).numWrites
    · by_cases hpe : pe = (s.put j).pe
      · by_cases hop : op = (s.put j).op j
        · simp [State.arrive, hcomplete, hpe, hop]
        · simp [State.arrive, hcomplete, hpe, hop, Ne.symm hop]
      · simp [State.arrive, hcomplete, hpe]
    · simp [State.arrive, hcomplete]
  refine h.of_history h' hj hunacked rfl rfl rfl rfl (hacked.trans hunacked) ?_
    (fun hcomplete => hentry.trans (if_pos hcomplete))
    (fun m hm => mem_erase_of_origin (hm' ▸ hm)) ?_ (fun _ _ _ _ => Iff.rfl)
    (.of_history hj rfl rfl (s.history_setHistory_self j h') ?_ ?_ ?_ hw
      fun hcomplete => hentry.trans (if_neg hcomplete))
  · intro ep key hor
    by_cases hep : ep = (s.put j).dst
    · have hkey : key ≠ (s.put j).key := hor.resolve_left (not_not_intro hep)
      simp [State.arrive, hep, update_of_ne hkey]
    · simp [State.arrive, update_of_ne hep]
  · intro pe op hop
    rw [hcount, if_neg fun hcond : _ ∧ op = _ ∧ _ => hop (hcond.2.1 ▸ rfl), add_zero]
  · intro m hm
    show m ∈ s.net.erase m' ↔ _
    rw [Finset.mem_erase, hflight, hold.net m hm]
    simp only [hj, true_and]
  · intro pe op hop
    rw [hcount, hold.queue pe op hop, if_neg (by tauto), happlied, zero_add]
    simp only [and_true]
  · intro e i
    rw [hposted, hsignalled]
    exact (hold.posting e i).trans (and_iff_right hj)

end Arrive

section Deliver

variable {src dst imm k : ℕ} {sig : SignalOp}

structure Delivered (s : State) (m : Msg) (t : State) : Prop where
  issued : t.issued = s.issued
  put : t.put = s.put
  posted : ∀ j, (t.history j).posted = (s.history j).posted
  signalled : ∀ j, (t.history j).signalled = (s.history j).signalled
  net : t.net = s.net.erase m
  otherRecv : t.otherRecv = s.otherRecv ∨ ¬ m.IsAck ∧
    ∃ pe op, t.otherRecv = update s.otherRecv pe (s.otherRecv pe ++ [op])

/-- The completion of `m` is handled, and the invariant is kept. -/
def Delivers (cfg : Config) (s : State) (m : Msg) : Prop :=
  ∃ t, { s with net := s.net.erase m }.processCompletion m = some t ∧ t.Inv cfg ∧
    s.Delivered m t

theorem Delivered.arrive {h' : History} {m' : Msg} (hm' : ¬ m'.IsAck)
    (hposted : h'.posted = (s.history j).posted)
    (hsignalled : h'.signalled = (s.history j).signalled) :
    s.Delivered m' (s.arrive j h' m') where
  issued := rfl
  put := rfl
  posted := history_setHistory_congr History.posted hposted
  signalled := history_setHistory_congr History.signalled hsignalled
  net := rfl
  otherRecv := by
    by_cases hc : h'.Complete (s.put j).numWrites
    · exact .inr ⟨hm', (s.put j).pe, (s.put j).op j, if_pos hc⟩
    · exact .inl (if_neg hc)

section Messages

variable (h : s.Inv cfg)
include h

theorem Inv.of_mem_chunk (hmem : .data src dst imm (.chunk j k) ∈ s.net) :
    j < s.issued ∧ .data src dst imm (.chunk j k) = (s.put j).chunkMsg j k ∧
      k < (s.history j).posted ∧ k ∉ (s.history j).arrived := by
  obtain ⟨hj, ⟨k', hk, harrived, heq⟩ | ⟨-, -, heq⟩ | ⟨-, -, heq⟩⟩ :=
    ((h.tracks j).net _ rfl).mp hmem
  · cases heq
    exact ⟨hj, rfl, hk, harrived⟩
  · cases heq
  · cases heq

theorem Inv.of_mem_signal (hmem : .signal src dst sig j ∈ s.net) :
    j < s.issued ∧ .signal src dst sig j = (s.put j).signalMsg j ∧
      (s.history j).signalled = true ∧ (s.history j).matched = false := by
  obtain ⟨hj, ⟨_, -, -, heq⟩ | ⟨hsignalled, hmatched, heq⟩ | ⟨-, -, heq⟩⟩ :=
    ((h.tracks j).net _ rfl).mp hmem
  · cases heq
  · exact ⟨hj, heq, hsignalled, hmatched⟩
  · cases heq

theorem Inv.of_mem_ack (hmem : .data src dst imm (.ack (.put j)) ∈ s.net) :
    j < s.issued ∧ .data src dst imm (.ack (.put j)) = (s.put j).ackMsg j ∧
      0 < (s.history j).applied ∧ (s.history j).acked = false := by
  obtain ⟨hj, ⟨_, -, -, heq⟩ | ⟨-, -, heq⟩ | ⟨happlied, hacked, heq⟩⟩ :=
    ((h.tracks j).net _ rfl).mp hmem
  · cases heq
  · cases heq
  · exact ⟨hj, heq, happlied, hacked⟩

theorem Inv.deliver_chunk (hmem : .data src dst imm (.chunk j k) ∈ s.net) :
    s.Delivers cfg (.data src dst imm (.chunk j k)) := by
  obtain ⟨hj, heq, hk, hnew⟩ := h.of_mem_chunk hmem
  have hw := (h.tracks j).wf hj
  have hlt := lt_of_lt_stagedAmoSeqNum (h.put_wf j hj).sequenceCount_lt
  have hc : ¬ (s.history j).Complete (s.put j).numWrites := by
    intro hc
    refine hnew ?_
    rw [hw.arrived_eq hc, Finset.mem_range]
    exact hk.trans_le hw.posted_le
  refine ⟨s.arrive j { s.history j with arrived := insert k (s.history j).arrived }
    ((s.put j).chunkMsg j k), ?_, h.arrive hj hc (Put.origin_chunkMsg _ _ _) ?_ rfl rfl
    (hw.applied_eq hc) rfl ?_, heq ▸ .arrive id rfl rfl⟩
  · rw [heq]
    simp only [Put.chunkMsg, processCompletion, seqNum_header hlt]
    rw [mod_eq_of_lt (hlt.trans (by decide))]
    refine putSignalCompletion_eq _ _ none (-1) ((h.tracks j).entry hj hc) ?_
      (.inr (Finset.insert_ne_empty _ _))
    simp only [History.count, Finset.card_insert_of_notMem hnew, Option.none_or]
    push_cast
    congr 1
    ring
  · exact ⟨hw.posted_le, hw.posted_eq, hw.signalled,
      Finset.insert_subset (Finset.mem_range.mpr hk) hw.arrived_subset, hw.applied_le,
      fun hpos => absurd (hw.complete hpos) hc, hw.applied⟩
  · intro m
    simp only [Put.InFlight, Finset.mem_insert, not_or]
    constructor
    · rintro (⟨k', hk', ⟨hne, harrived⟩, rfl⟩ | ⟨hs, hm, rfl⟩ | ⟨ha, hack, rfl⟩)
      · refine ⟨fun heq => hne ?_, .inl ⟨k', hk', harrived, rfl⟩⟩
        cases heq
        rfl
      · exact ⟨Msg.noConfusion, .inr (.inl ⟨hs, hm, rfl⟩)⟩
      · refine ⟨fun heq => ?_, .inr (.inr ⟨ha, hack, rfl⟩)⟩
        exact Part.noConfusion (Msg.data.inj heq).2.2.2
    · rintro ⟨hne, ⟨k', hk', harrived, rfl⟩ | hrest | hrest⟩
      · exact .inl ⟨k', hk', ⟨fun heq => hne (heq ▸ rfl), harrived⟩, rfl⟩
      · exact .inr (.inl hrest)
      · exact .inr (.inr hrest)

theorem Inv.deliver_signal (hmem : .signal src dst sig j ∈ s.net) :
    s.Delivers cfg (.signal src dst sig j) := by
  obtain ⟨hj, heq, hsignalled, hmatched⟩ := h.of_mem_signal hmem
  have hw := (h.tracks j).wf hj
  have hc : ¬ (s.history j).Complete (s.put j).numWrites :=
    fun hc => Bool.false_ne_true (hmatched.symm.trans hc.1)
  have hmod : (s.put j).signalOp.numWrites = (s.put j).numWrites :=
    mod_eq_of_lt (h.put_wf j hj).numWrites_lt
  refine ⟨s.arrive j { s.history j with matched := true } ((s.put j).signalMsg j), ?_,
    h.arrive hj hc (Put.origin_signalMsg _ _) ?_ rfl rfl (hw.applied_eq hc) rfl ?_,
    heq ▸ .arrive id rfl rfl⟩
  · rw [heq]
    refine putSignalCompletion_eq _ _ (some ((s.put j).op j)) _ ((h.tracks j).entry hj hc) ?_
      (.inl rfl)
    simp only [History.count, hmatched, hmod, if_true, Bool.false_eq_true, if_false,
      Option.some_or]
    congr 1
    ring
  · exact ⟨hw.posted_le, hw.posted_eq, fun _ => hsignalled, hw.arrived_subset, hw.applied_le,
      fun hpos => absurd (hw.complete hpos) hc, hw.applied⟩
  · intro m
    simp only [Put.InFlight, Bool.true_eq_false, false_and, and_false, false_or]
    constructor
    · rintro (⟨k', hk', harrived, rfl⟩ | ⟨ha, hack, rfl⟩)
      · exact ⟨Msg.noConfusion, .inl ⟨k', hk', harrived, rfl⟩⟩
      · exact ⟨Msg.noConfusion, .inr (.inr ⟨ha, hack, rfl⟩)⟩
    · rintro ⟨hne, hrest | ⟨-, -, rfl⟩ | hrest⟩
      · exact .inl hrest
      · exact absurd rfl hne
      · exact .inr hrest

theorem Inv.deliver_ack (hmem : .data src dst imm (.ack (.put j)) ∈ s.net) :
    s.Delivers cfg (.data src dst imm (.ack (.put j))) := by
  obtain ⟨hj, heq, happlied, hacked⟩ := h.of_mem_ack hmem
  have hw := (h.tracks j).wf hj
  have hlt := (h.put_wf j hj).sequenceCount_lt
  have hlt' := lt_of_lt_stagedAmoSeqNum hlt
  rw [heq]
  let h' : History := { s.history j with acked := true }
  let c := (s.counter (s.put j).src).returnAckedSeqNum (s.put j).sequenceCount
  have hself : (s.setHistory j h').history j = h' := s.history_setHistory_self j h'
  have hne : ∀ j' ≠ j, (s.setHistory j h').history j' = s.history j' :=
    fun j' hj' => s.history_setHistory_of_ne j h' hj'
  refine ⟨({ s with net := s.net.erase ((s.put j).ackMsg j) }.setHistory j h').setCounter
    (s.put j).src c, ?_, ?_, rfl, rfl, history_setHistory_congr (h := h') History.posted rfl,
    history_setHistory_congr (h := h') History.signalled rfl, rfl, .inl rfl⟩
  · simp only [Put.ackMsg, processCompletion, ackImm_header hlt', ackCompletion, ackImm_and hlt',
      if_pos hlt.ne]
    rfl
  have hunacked : ∀ i, ((s.setHistory j h').history i).acked = false ↔
      i ≠ j ∧ (s.history i).acked = false := by
    intro i
    by_cases hi : i = j
    · subst hi
      simp [h']
    · simp [hne i hi, hi]
  refine ⟨h.put_wf, fun j' => ?_, ?_, ?_, h.queue_sound, ?_, ?_⟩
  · by_cases hj' : j' = j
    · subst hj'
      refine .of_history hj rfl rfl hself ?_ ?_ ?_ ?_ fun hc => absurd (hw.complete happlied) hc
      · intro m hm
        show m ∈ s.net.erase _ ↔ _
        rw [Finset.mem_erase, (h.tracks j').net m hm]
        simp only [Put.InFlight, hj, true_and, h', Bool.true_eq_false, false_and, and_false,
          or_false]
        constructor
        · rintro ⟨hne, hrest | hrest | ⟨-, -, rfl⟩⟩
          · exact .inl hrest
          · exact .inr hrest
          · exact absurd rfl hne
        · rintro (⟨k', hk', harrived, rfl⟩ | ⟨hs, hmatched, rfl⟩)
          · refine ⟨fun heq => ?_, .inl ⟨k', hk', harrived, rfl⟩⟩
            exact Part.noConfusion (Msg.data.inj heq).2.2.2
          · exact ⟨Msg.noConfusion, .inr (.inl ⟨hs, hmatched, rfl⟩)⟩
      · intro pe op hop
        have hqueue := (h.tracks j').queue pe op hop
        simp only [hj, true_and] at hqueue
        exact hqueue
      · exact fun e i => ((h.tracks j').posting e i).trans (and_iff_right hj)
      · exact ⟨hw.posted_le, hw.posted_eq, hw.signalled, hw.arrived_subset, hw.applied_le,
          hw.complete, fun _ => happlied⟩
    · exact (h.tracks j').congr Iff.rfl rfl (hne j' hj')
        (fun m hm => mem_erase_of_origin (origin_ne hj' hm)) (fun _ _ _ => rfl)
        (fun _ _ => Iff.rfl) fun _ _ => rfl
  · intro ep key hentry
    obtain ⟨j', hlt, hdst, hkey, hc⟩ := h.owner ep key hentry
    refine ⟨j', hlt, hdst, hkey, ?_⟩
    have hj' : j' ≠ j := by
      rintro rfl
      exact hc (hw.complete happlied)
    show ¬ ((s.setHistory j h').history j').Complete _
    rwa [hne j' hj']
  · exact fun m hmem => h.net_sound m (Finset.mem_of_mem_erase hmem)
  · have hlive : ∀ e q, (s.setHistory j h').Live e q ↔
        ¬ (e = (s.put j).src ∧ q = (s.put j).sequenceCount) ∧ s.Live e q := by
      intro e q
      constructor
      · rintro ⟨i, hi, rfl, hai, rfl⟩
        obtain ⟨hij, hai⟩ := (hunacked i).mp hai
        exact ⟨fun heq => hij (h.distinct i hi j hj heq.1 hai hacked heq.2), i, hi, rfl, hai, rfl⟩
      · rintro ⟨hne, i, hi, rfl, hai, rfl⟩
        refine ⟨i, hi, rfl, (hunacked i).mpr ⟨?_, hai⟩, rfl⟩
        rintro rfl
        exact hne ⟨rfl, rfl⟩
    obtain ⟨live, hfits, hold⟩ := h.numbers (s.put j).src
    have hin := (hold _).mpr ⟨j, hj, rfl, hacked, rfl⟩
    refine h.numbers_update rfl (hfits.returnAckedSeqNum hin) (fun q => ?_) fun e he q =>
      (hlive e q).trans (and_iff_right fun heq => he heq.1)
    refine (Finset.mem_erase.trans (and_congr_right fun _ => hold q)).trans ?_
    exact (and_congr_left fun _ => by simp).trans (hlive _ q).symm
  · intro a ha b hb hsrc haa hab hseq
    exact h.distinct a ha b hb hsrc ((hunacked a).mp haa).2 ((hunacked b).mp hab).2 hseq

theorem Inv.deliver_amo_ack {i : ℕ} (hmem : .data src dst imm (.ack (.amo i)) ∈ s.net) :
    s.Delivers cfg (.data src dst imm (.ack (.amo i))) := by
  obtain rfl : imm = ackImm stagedAmoSeqNum := h.net_sound _ hmem
  refine ⟨{ s with net := s.net.erase (.data src dst (ackImm stagedAmoSeqNum) (.ack (.amo i))) },
    ?_, ?_, rfl, rfl, fun _ => rfl, fun _ => rfl, rfl, .inl rfl⟩
  · rfl
  refine h.of_acked rfl rfl rfl (fun _ => rfl) (fun j => ?_) h.owner ?_ h.queue_sound
  · exact (h.tracks j).congr Iff.rfl rfl rfl
      (fun m hm => mem_erase_of_origin (hm ▸ Origin.noConfusion)) (fun _ _ _ => rfl)
      (fun _ _ => Iff.rfl) fun _ _ => rfl
  · exact fun m hmem => h.net_sound m (Finset.mem_of_mem_erase hmem)

theorem Inv.deliver_amo {op : Amo} {targetAddr i : ℕ} {swapAdd comp : UInt64}
    (hmem : .amo src dst op targetAddr swapAdd comp i ∈ s.net) :
    s.Delivers cfg (.amo src dst op targetAddr swapAdd comp i) := by
  refine ⟨_, rfl, h.of_acked rfl rfl rfl (fun _ => rfl) (fun j => ?_) h.owner ?_ ?_,
    rfl, rfl, fun _ => rfl, fun _ => rfl, rfl, .inr ⟨id, dst / numEps, _, rfl⟩⟩
  · refine (h.tracks j).congr Iff.rfl rfl rfl
      (fun m hm => mem_erase_of_origin (hm ▸ Origin.noConfusion)) ?_
      (fun _ _ => Iff.rfl) fun _ _ => rfl
    intro pe op' hop
    show (update s.otherRecv _ _ pe).count op' = _
    by_cases hpe : pe = dst / numEps
    · subst hpe
      rw [update_self, count_append, count_singleton, if_neg, add_zero]
      simp only [beq_iff_eq]
      rintro rfl
      exact Origin.noConfusion hop
    · rw [update_of_ne hpe]
  · exact fun m hmem => h.net_sound m (Finset.mem_of_mem_erase hmem)
  · intro pe op' hop
    change op' ∈ update s.otherRecv _ _ pe at hop
    by_cases hpe : pe = dst / numEps
    · subst hpe
      rw [update_self, mem_append, mem_singleton] at hop
      rcases hop with hop | rfl
      · exact h.queue_sound _ op' hop
      · exact ⟨h.net_sound _ hmem, fun _ _ => rfl⟩
    · rw [update_of_ne hpe] at hop
      exact h.queue_sound pe op' hop

theorem Inv.deliver {m : Msg} (hmem : m ∈ s.net) : s.Delivers cfg m := by
  cases m with
  | data src dst imm part =>
    match part with
    | .chunk j k => exact h.deliver_chunk hmem
    | .ack (.put j) => exact h.deliver_ack hmem
    | .ack (.amo i) => exact h.deliver_amo_ack hmem
  | signal src dst sig j => exact h.deliver_signal hmem
  | amo src dst op targetAddr swapAdd comp i => exact h.deliver_amo hmem

end Messages

end Deliver

section Process

variable {pe : ℕ} {op : Op} {rest : List Op}

theorem count_rest (hqueue : s.otherRecv pe = op :: rest) {op' : Op} (hop : op' ≠ op) (pe' : ℕ) :
    (update s.otherRecv pe rest pe').count op' = (s.otherRecv pe').count op' := by
  by_cases hpe : pe' = pe
  · subst hpe
    rw [update_self, hqueue, count_cons_of_ne hop.symm]
  · rw [update_of_ne hpe]

theorem mem_of_mem_rest (hqueue : s.otherRecv pe = op :: rest) {op' : Op} {pe' : ℕ}
    (hmem : op' ∈ update s.otherRecv pe rest pe') : op' ∈ s.otherRecv pe' := by
  by_cases hpe : pe' = pe
  · subst hpe
    rw [update_self] at hmem
    rw [hqueue]
    exact mem_cons_of_mem op hmem
  · rwa [update_of_ne hpe] at hmem

section Queue

variable (h : s.Inv cfg) (hqueue : s.otherRecv pe = op :: rest)
include h hqueue

theorem Inv.of_queue (hop : op.origin = .put j) :
    (j < s.issued ∧ pe = (s.put j).pe ∧ op = (s.put j).op j ∧
      (s.history j).Complete (s.put j).numWrites ∧ (s.history j).applied = 0) ∧
      rest.count op = 0 := by
  have hcount := (h.tracks j).queue pe op hop
  rw [hqueue, count_cons_self] at hcount
  split_ifs at hcount with hcond
  exact ⟨hcond, by omega⟩

theorem Inv.performAmo_put (hop : op.origin = .put j) :
    ({ s with otherRecv := update s.otherRecv pe rest }.performAmo pe op).Inv cfg := by
  obtain ⟨⟨hj, rfl, rfl, hc, happlied⟩, hrest⟩ := h.of_queue hqueue hop
  have hold := h.tracks j
  have hw := hold.wf hj
  have hacked : (s.history j).acked = false := by
    by_contra htrue
    have := hw.applied (by simpa using htrue)
    omega
  let h' : History := { s.history j with applied := (s.history j).applied + 1 }
  refine h.of_history h' hj hacked rfl rfl rfl rfl hacked (fun _ _ _ => rfl) ?_
    (fun m hm => mem_insert_of_origin hm)
    (fun pe' op' hop' => count_rest hqueue (fun heq => hop' (by rw [heq]; exact hop)) pe')
    (fun _ _ _ _ => Iff.rfl)
    (.of_history hj rfl rfl (s.history_setHistory_self j h') ?_ ?_ ?_ ?_ fun hnot => absurd hc hnot)
  · intro _
    by_contra hne
    obtain ⟨i, hi, -, hkey, hnot⟩ := h.owner _ _ hne
    obtain rfl := h.eq_of_key_eq hi hj (((h.tracks i).wf hi).acked_eq hnot) hacked hkey
    exact hnot hc
  · intro m hm
    show m ∈ insert ((s.put j).ackMsg j) s.net ↔ _
    rw [Finset.mem_insert, hold.net m hm]
    simp only [Put.InFlight, hj, true_and, h', happlied, hacked, lt_irrefl, false_and,
      or_false, zero_add, zero_lt_one, true_and]
    rw [or_comm, or_assoc]
  · intro pe' op' hop'
    show (update s.otherRecv _ rest pe').count op' = _
    rw [if_neg (fun hcond => absurd hcond.2.2.2 (succ_ne_zero _))]
    by_cases heq : op' = (s.put j).op j
    · subst heq
      by_cases hpe : pe' = (s.put j).pe
      · rw [hpe, update_self, hrest]
      · rw [update_of_ne hpe, hold.queue _ _ hop', if_neg (by tauto)]
    · rw [count_rest hqueue heq, hold.queue _ _ hop', if_neg (by tauto)]
  · exact fun e i => (hold.posting e i).trans (and_iff_right hj)
  · exact ⟨hw.posted_le, hw.posted_eq, hw.signalled, hw.arrived_subset,
      (congrArg succ happlied).le, fun _ => hc, fun _ => succ_pos _⟩

theorem Inv.performAmo_amo {i : ℕ} (hop : op.origin = .amo i) :
    ({ s with otherRecv := update s.otherRecv pe rest }.performAmo pe op).Inv cfg := by
  have hsend : op.type = .send := (h.queue_sound pe op (hqueue ▸ mem_cons_self)).type_eq i hop
  have hnote : ∀ s : State, s.noteApplied op.origin = s := fun s => by rw [hop]; rfl
  unfold performAmo
  rw [hnote]
  refine h.of_acked rfl rfl rfl (fun _ => rfl) (fun j => ?_) h.owner ?_ ?_
  · refine (h.tracks j).congr Iff.rfl rfl rfl ?_ ?_ (fun _ _ => Iff.rfl) fun _ _ => rfl
    · intro m hm
      refine mem_insert_of_origin ?_
      rw [hm]
      exact fun heq => Origin.noConfusion (heq.trans hop)
    · intro pe' op' hop'
      refine count_rest hqueue ?_ pe'
      rintro rfl
      exact Origin.noConfusion (hop'.symm.trans hop)
  · intro m hmem
    rcases Finset.mem_insert.mp hmem with rfl | hmem
    · simp [hop, Msg.Sound, ackSeqNum, hsend]
    · exact h.net_sound m hmem
  · exact fun pe' op' hmem => h.queue_sound pe' op' (mem_of_mem_rest hqueue hmem)

theorem Inv.performAmo :
    ({ s with otherRecv := update s.otherRecv pe rest }.performAmo pe op).Inv cfg := by
  cases hop : op.origin with
  | put j => exact h.performAmo_put hqueue hop
  | amo i => exact h.performAmo_amo hqueue hop

end Queue

end Process

theorem Inv.postAmo (h : s.Inv cfg) (src : ℕ) {pe : ℕ} (hpe : pe < cfg.npes) (op : Amo)
    (targetAddr : ℕ) (swapAdd comp : UInt64) :
    (s.postAmo src pe op targetAddr swapAdd comp).Inv cfg := by
  refine h.of_acked rfl rfl rfl (fun _ => rfl) (fun j => ?_) h.owner ?_ h.queue_sound
  · exact (h.tracks j).congr Iff.rfl rfl rfl
      (fun m hm => mem_insert_of_origin (hm ▸ Origin.noConfusion)) (fun _ _ _ => rfl)
      (fun _ _ => Iff.rfl) fun _ _ => rfl
  · intro m hmem
    rcases Finset.mem_insert.mp hmem with rfl | hmem
    · exact (targetEp_div pe src).trans_lt hpe
    · exact h.net_sound m hmem

theorem Inv.step (h : s.Inv cfg) {a : Action} (hs : s.step cfg a = some t) : t.Inv cfg := by
  cases a with
  | putSignal src pe numWrites sigOp sigVal sigAddr =>
    simp only [State.step] at hs
    split_ifs at hs with hen
    obtain ⟨hsrc, hpe, hwrites, hidle⟩ := hen
    split at hs
    · next c hnext =>
      cases hs
      exact h.setCounter hnext
    · next c q hnext =>
      cases hs
      obtain ⟨live, hfits, -⟩ := h.numbers src
      exact h.issue ⟨hsrc, hpe, hwrites, (hfits.nextSeqNum_some hnext).2.1⟩ hidle hnext
  | postWrite src =>
    simp only [State.step] at hs
    split at hs
    · next j i hposting =>
      split_ifs at hs with hi
      cases hs
      exact h.postWrite hposting hi
    · cases hs
  | postSignal src =>
    simp only [State.step] at hs
    split at hs
    · next j i hposting =>
      split_ifs at hs with hi
      cases hs
      exact h.postSignal hposting hi
    · cases hs
  | amo src pe op targetAddr swapAdd comp =>
    simp only [State.step] at hs
    split_ifs at hs with hen
    cases hs
    exact h.postAmo src hen.2 op targetAddr swapAdd comp
  | deliver m =>
    simp only [State.step] at hs
    split_ifs at hs with hmem
    obtain ⟨u, hu, hinv, -⟩ := h.deliver hmem
    cases hu.symm.trans hs
    exact hinv
  | processAmo pe =>
    simp only [State.step] at hs
    split at hs
    · next op rest hqueue =>
      cases hs
      exact h.performAmo hqueue
    · cases hs

theorem Inv.safe (h : s.Inv cfg) : s.Safe where
  applied_le j hj := ((h.tracks j).wf hj).applied_le
  arrived j hj happlied :=
    ((h.tracks j).wf hj).arrived_eq (((h.tracks j).wf hj).complete happlied)
  entry ep key hne := by
    obtain ⟨j, hj, hdst, hkey, hc⟩ := h.owner ep key hne
    exact ⟨j, hj, hdst, hkey, ((h.tracks j).wf hj).applied_eq hc⟩
  removed j hj happlied hacked := by
    by_contra hne
    obtain ⟨i, hi, hdst, hkey, hc⟩ := h.owner _ _ hne
    have hij : i = j := h.eq_of_key_eq hi hj (((h.tracks i).wf hi).acked_eq hc) hacked hkey
    subst hij
    exact hc (((h.tracks i).wf hi).complete happlied)
  distinct := h.distinct

end State

end Nvshmem.Libfabric
