import Nvshmem.Bits.Wrap
import Nvshmem.Combine.Basic
import Nvshmem.Loops.Strided

/-! # Segmented allreduce

The message is cut into segments of a number of bytes that comes from the size of the reduce
scratch. Each segment goes around the team once; the rest of the message goes to several PEs at a
time. All PEs pass the same barriers, so that the team takes every step together.
-/

namespace Nvshmem.RdxnSegment

open Combine Loops Wrap List Option List Multiplicative

/-- The first number that is too large for an `int`. -/
def intLimit : ℕ := 2 ^ 31

/-- A call of `gpu_rdxn_segment_threadgroup` on all PEs of a team. -/
structure Call where
  size : ℕ
  reduceScratchSize : ℕ
  sizeofT : ℕ
  nelems : ℕ
  groupSize : ℕ
  size_pos : 0 < size
  scratch_ge : 16 ≤ reduceScratchSize
  scratch_dvd : 8 ∣ reduceScratchSize
  sizeofT_pos : 0 < sizeofT
  groupSize_pos : 0 < groupSize

/-- `dest` and the current half of the reduce scratch of every PE, as elements, and the places of
the puts that were made: the first element and the number of elements. -/
structure State (M : Type*) where
  dest : ℕ → ℕ → M
  pWrk : ℕ → ℕ → M
  puts : List (ℕ × ℕ)

namespace Call

variable (c : Call)

/-- `nvshm_gpu_rdxn_seg_size`, in bytes. It is also the number of `long`s of half the scratch. -/
def segSize : ℕ := c.reduceScratchSize / 2 / 8

def msgLen : ℕ := c.nelems * c.sizeofT

def rndsFloor : ℕ := c.msgLen / c.segSize

def remainder : ℕ := c.msgLen % c.segSize

def segElems : ℕ := c.segSize / c.sizeofT

def restElems : ℕ := c.remainder / c.sizeofT

def pesPerRound : ℤ := toInt (c.segSize / c.remainder : ℕ)

section Data

variable {M : Type*} [Mul M] (source : ℕ → ℕ → M)

/-- Every PE puts `n` elements of its source to the PE `i` places further. -/
def put (s : State M) (i base offset n : ℕ) : State M :=
  { s with
    pWrk := (List.range c.size).foldl (fun pWrk pe =>
      Function.update pWrk ((pe + i) % c.size) fun k =>
        if base ≤ k ∧ k < base + n then source pe (offset + (k - base))
        else pWrk ((pe + i) % c.size) k) s.pWrk
    puts := s.puts ++ [(base, n)] }

/-- `gpu_linear_reduce_threadgroup` on every PE. Its index is an `int`, so that the loop ends at
`2 ^ 31`. -/
def linearReduce (s : State M) (base offset n : ℕ) : State M :=
  { s with
    dest := fun pe e =>
      if offset ≤ e then
        sweep c.groupSize (min n intLimit) (fun k x => x * s.pWrk pe (base + k))
          (fun k => s.dest pe (offset + k)) (e - offset)
      else s.dest pe e }

def fullRound (s : State M) (offset : ℕ) : State M :=
  (List.range' 1 (c.size - 1)).foldl (fun s i =>
    c.linearReduce (c.put source s i 0 offset c.segElems) 0 offset c.segElems) s

def fullRounds (s : State M) (n : ℕ) : State M :=
  (List.range n).foldl (fun s j => c.fullRound source s (j * c.segElems)) s

def restCount (peOffset : ℕ) : ℕ := min c.pesPerRound.toNat (c.size - peOffset)

def restRound (s : State M) (peOffset : ℕ) : State M :=
  let offset := c.rndsFloor * c.segElems
  let s := (List.range (c.restCount peOffset)).foldl (fun s round =>
    c.put source s (peOffset + round) (round * c.restElems) offset c.restElems) s
  (List.range (c.restCount peOffset)).foldl (fun s round =>
    c.linearReduce s (round * c.restElems) offset c.restElems) s

/-- `do … while (pe_offset < size)`, with a bound on the number of iterations. -/
def restLoop : ℕ → State M → ℕ → Option (State M)
  | 0, _, _ => none
  | fuel + 1, s, peOffset =>
    let s' := c.restRound source s peOffset
    let peOffset' := peOffset + c.restCount peOffset
    if peOffset' < c.size then restLoop fuel s' peOffset' else some s'

/-- `gpu_rdxn_segment_threadgroup` -/
def segment (dest pWrk : ℕ → ℕ → M) (fuel : ℕ) : Option (State M) :=
  let s : State M := ⟨fun pe e => if e < c.nelems then source pe e else dest pe e, pWrk, []⟩
  let s := c.fullRounds source s c.rndsFloor
  if c.remainder ≠ 0 then c.restLoop source fuel s 1 else some s

end Data

/-- The call ends, every element of every PE is the combination of that element of all PEs, and the
puts are inside the current half of the scratch. -/
def Reduces : Prop :=
  ∀ (M : Type) [CommSemigroup M] (source dest pWrk : ℕ → ℕ → M),
    ∃ fuel s, c.segment source dest pWrk fuel = some s ∧
      (∀ pe < c.size, ∀ e < c.nelems,
        s.dest pe e = combine (· * ·) (fun other => source other e) c.size) ∧
      ∀ p ∈ s.puts, (p.1 + p.2) * c.sizeofT ≤ 8 * c.segSize

/-- The segments are whole elements, and no `int` overflows. -/
def Divided : Prop :=
  c.size = 1 ∨
    (c.msgLen < c.segSize ∨ c.sizeofT ∣ c.segSize) ∧
    (0 < c.rndsFloor → c.segElems ≤ intLimit) ∧
    (c.remainder ≠ 0 → c.restElems ≤ intLimit ∧ 0 < c.pesPerRound)

def Covered (e : ℕ) : Prop :=
  e < c.rndsFloor * c.segElems ∧ e % c.segElems < intLimit ∨
    c.remainder ≠ 0 ∧ c.rndsFloor * c.segElems ≤ e ∧
      e < c.rndsFloor * c.segElems + min c.restElems intLimit

end Call

namespace Call

variable {c : Call} {M : Type*} {source : ℕ → ℕ → M} {s s' : State M}
  {pe e i k n base offset peOffset fuel : ℕ}

/-- The PE whose put with distance `i` goes to `pe`. -/
def sender (c : Call) (pe i : ℕ) : ℕ := (pe + (c.size - i)) % c.size

theorem put_pWrk (hpe : pe < c.size) (hi : i < c.size) :
    (c.put source s i base offset n).pWrk pe k =
      if base ≤ k ∧ k < base + n then source (c.sender pe i) (offset + (k - base))
      else s.pWrk pe k := by
  have htarget : (c.sender pe i + i) % c.size = pe := by
    rw [sender, Nat.mod_add_mod, Nat.add_assoc, Nat.sub_add_cancel hi.le, Nat.add_mod_right,
      Nat.mod_eq_of_lt hpe]
  have hnodup : ((range c.size).map fun q => (q + i) % c.size).Nodup := by
    refine List.Nodup.map_on ?_ nodup_range
    intro a ha b hb hab
    have hmod : a ≡ b [MOD c.size] := Nat.ModEq.add_right_cancel' i hab
    rwa [Nat.ModEq, Nat.mod_eq_of_lt (mem_range.mp ha),
      Nat.mod_eq_of_lt (mem_range.mp hb)] at hmod
  have hrow := foldl_update_of_mem (φ := fun q => (q + i) % c.size) (a := s.pWrk)
    (f := fun q row k => if base ≤ k ∧ k < base + n then source q (offset + (k - base)) else row k)
    hnodup (mem_range.mpr (Nat.mod_lt (pe + (c.size - i)) c.size_pos))
  rw [← sender, htarget] at hrow
  exact congrFun hrow k

variable [Mul M]

theorem linearReduce_dest : (c.linearReduce s base offset n).dest pe e =
    if offset ≤ e ∧ e < offset + min n intLimit then s.dest pe e * s.pWrk pe (base + (e - offset))
    else s.dest pe e := by
  simp only [linearReduce]
  by_cases hlo : offset ≤ e
  · rw [if_pos hlo, sweep_apply c.groupSize_pos, Nat.add_sub_cancel' hlo]
    by_cases hhi : e < offset + min n intLimit
    · rw [if_pos (by omega), if_pos ⟨hlo, hhi⟩]
    · rw [if_neg (by omega), if_neg (by omega)]
  · rw [if_neg hlo, if_neg (by omega)]

def gather (c : Call) (source : ℕ → ℕ → M) (pe e : ℕ) (l : List ℕ) (x : M) : M :=
  l.foldl (fun acc i => acc * source (c.sender pe i) e) x

theorem fullRound_dest (hpe : pe < c.size) : (c.fullRound source s offset).dest pe e =
    if offset ≤ e ∧ e < offset + min c.segElems intLimit then
      c.gather source pe e (range' 1 (c.size - 1)) (s.dest pe e)
    else s.dest pe e := by
  have hfold : ∀ (l : List ℕ), (∀ i ∈ l, i < c.size) → ∀ s : State M,
      (l.foldl (fun s i => c.linearReduce (c.put source s i 0 offset c.segElems) 0 offset
        c.segElems) s).dest pe e =
      if offset ≤ e ∧ e < offset + min c.segElems intLimit then
        c.gather source pe e l (s.dest pe e)
      else s.dest pe e := by
    intro l
    induction l with
    | nil => simp [gather]
    | cons i l ih =>
      intro hl s
      rw [foldl_cons, ih fun i' hi' => hl i' (mem_cons_of_mem _ hi'), linearReduce_dest]
      split
      · next h =>
        rw [put_pWrk hpe (hl i mem_cons_self), if_pos (by omega), gather, gather,
          foldl_cons, Nat.zero_add, Nat.sub_zero, Nat.add_sub_cancel' h.1]
        rfl
      · rfl
  exact hfold _ (fun i hi => by rw [mem_range'_1] at hi; omega) s

theorem fullRounds_dest (hpe : pe < c.size) : (c.fullRounds source s n).dest pe e =
    if e < n * c.segElems ∧ e % c.segElems < intLimit then
      c.gather source pe e (range' 1 (c.size - 1)) (s.dest pe e)
    else s.dest pe e := by
  induction n with
  | zero => simp [fullRounds]
  | succ n ih =>
    rw [fullRounds, range_succ, foldl_append, foldl_cons, foldl_nil,
      ← fullRounds, fullRound_dest hpe, ih, Nat.succ_mul]
    obtain hzero | hpos := Nat.eq_zero_or_pos c.segElems
    · simp [hzero]
    · by_cases hin : n * c.segElems ≤ e ∧ e < n * c.segElems + c.segElems
      · -- the element is in the segment of this round
        have hmod : e % c.segElems = e - n * c.segElems := by
          rw [← Nat.mod_eq_of_lt (show e - n * c.segElems < c.segElems by omega),
            ← Nat.add_mul_mod_self_right (e - n * c.segElems) n, Nat.sub_add_cancel hin.1]
        have hno : ¬ (e < n * c.segElems ∧ e % c.segElems < intLimit) := by omega
        rw [if_neg hno]
        exact if_congr (by omega) rfl rfl
      · rw [if_neg (by omega)]
        exact if_congr (by omega) rfl rfl

section Rest

variable (hpe : pe < c.size)

include hpe

omit [Mul M] in
theorem restPuts_pWrk (hn : peOffset + n ≤ c.size) {round : ℕ} (hround : round < n)
    (hk : k < c.restElems) :
    ((range n).foldl (fun s round => c.put source s (peOffset + round)
      (round * c.restElems) offset c.restElems) s).pWrk pe (round * c.restElems + k) =
      source (c.sender pe (peOffset + round)) (offset + k) := by
  induction n with
  | zero => omega
  | succ n ih =>
    rw [range_succ, foldl_append, foldl_cons, foldl_nil,
      put_pWrk hpe (by omega)]
    obtain rfl | hlt : round = n ∨ round < n := by omega
    · rw [if_pos (by omega), Nat.add_sub_cancel_left]
    · have hle : (round + 1) * c.restElems ≤ n * c.restElems := Nat.mul_le_mul_right _ hlt
      rw [Nat.succ_mul] at hle
      rw [if_neg (by omega), ih (by omega) hlt]

theorem restRound_dest (hle : peOffset ≤ c.size) : (c.restRound source s peOffset).dest pe e =
    if c.rndsFloor * c.segElems ≤ e ∧
        e < c.rndsFloor * c.segElems + min c.restElems intLimit then
      c.gather source pe e (range' peOffset (c.restCount peOffset)) (s.dest pe e)
    else s.dest pe e := by
  have hcount : peOffset + c.restCount peOffset ≤ c.size := by
    rw [restCount]
    omega
  have hfold : ∀ n ≤ c.restCount peOffset, ∀ t : State M, t.dest = s.dest →
      (∀ round < c.restCount peOffset, ∀ k < c.restElems,
        t.pWrk pe (round * c.restElems + k) =
          source (c.sender pe (peOffset + round)) (c.rndsFloor * c.segElems + k)) →
      ((range n).foldl (fun s round => c.linearReduce s (round * c.restElems)
        (c.rndsFloor * c.segElems) c.restElems) t).dest pe e =
        if c.rndsFloor * c.segElems ≤ e ∧
            e < c.rndsFloor * c.segElems + min c.restElems intLimit then
          c.gather source pe e (range' peOffset n) (s.dest pe e)
        else s.dest pe e := by
    intro n hn t hdest hslots
    have hkeep : ∀ n, ((range n).foldl (fun s round => c.linearReduce s
        (round * c.restElems) (c.rndsFloor * c.segElems) c.restElems) t).pWrk = t.pWrk := by
      intro n
      induction n with
      | zero => rfl
      | succ n ih => rw [range_succ, foldl_append]; exact ih
    induction n with
    | zero => simp [gather, hdest]
    | succ n ih =>
      rw [range_succ, foldl_append, foldl_cons, foldl_nil, linearReduce_dest,
        ih (by omega), hkeep]
      split
      · next h =>
        rw [hslots n (by omega) _ (by omega), Nat.add_sub_cancel' h.1, range'_1_concat,
          gather, gather, foldl_append]
        rfl
      · rfl
  have hputs : ∀ n, ((range n).foldl (fun s round => c.put source s (peOffset + round)
      (round * c.restElems) (c.rndsFloor * c.segElems) c.restElems) s).dest = s.dest := by
    intro n
    induction n with
    | zero => rfl
    | succ n ih => rw [range_succ, foldl_append]; exact ih
  rw [restRound]
  exact hfold _ le_rfl _ (hputs _) fun round hround k hk => restPuts_pWrk hpe hcount hround hk

theorem restLoop_dest (hle : peOffset ≤ c.size)
    (h : c.restLoop source fuel s peOffset = some s') :
    s'.dest pe e =
      if c.rndsFloor * c.segElems ≤ e ∧
          e < c.rndsFloor * c.segElems + min c.restElems intLimit then
        c.gather source pe e (range' peOffset (c.size - peOffset)) (s.dest pe e)
      else s.dest pe e := by
  induction fuel generalizing s peOffset with
  | zero => simp [restLoop] at h
  | succ fuel ih =>
    have hcount : peOffset + c.restCount peOffset ≤ c.size := by
      rw [restCount]
      omega
    rw [restLoop] at h
    split at h
    · rw [ih hcount h, restRound_dest hpe hle]
      split
      · rw [gather, gather, gather, ← foldl_append, range'_append_1,
          show c.restCount peOffset + (c.size - (peOffset + c.restCount peOffset)) =
            c.size - peOffset by omega]
      · rfl
    · next hlast =>
      rw [← some.inj h, restRound_dest hpe hle,
        show c.restCount peOffset = c.size - peOffset by omega]

end Rest

def PutsInside (c : Call) (s : State M) : Prop :=
  ∀ p ∈ s.puts, (p.1 + p.2) * c.sizeofT ≤ 8 * c.segSize

omit [Mul M] in
theorem PutsInside.put (h : c.PutsInside s) (hle : (base + n) * c.sizeofT ≤ 8 * c.segSize) :
    c.PutsInside (c.put source s i base offset n) := by
  intro p hp
  rcases mem_append.mp hp with hp | hp
  · exact h p hp
  · rw [mem_singleton.mp hp]
    exact hle

theorem PutsInside.linearReduce (h : c.PutsInside s) :
    c.PutsInside (c.linearReduce s base offset n) := h

theorem PutsInside.fullRounds (h : c.PutsInside s) : c.PutsInside (c.fullRounds source s n) := by
  have hle : (0 + c.segElems) * c.sizeofT ≤ 8 * c.segSize := by
    rw [Nat.zero_add]
    exact (Nat.div_mul_le_self _ _).trans (Nat.le_mul_of_pos_left _ (by norm_num))
  exact foldlRecOn _ _ h fun s hs j _ =>
    foldlRecOn _ _ hs fun s hs i _ => (hs.put hle).linearReduce

theorem PutsInside.restRound (h : c.PutsInside s) :
    c.PutsInside (c.restRound source s peOffset) := by
  refine foldlRecOn _ _ ?_ fun s hs round _ => hs.linearReduce
  refine foldlRecOn _ _ h fun s hs round hround => hs.put ?_
  have hcount : round + 1 ≤ c.segSize / c.remainder := by
    have hlt := mem_range.mp hround
    have hle : c.pesPerRound ≤ (c.segSize / c.remainder : ℕ) := toInt_le (Int.natCast_nonneg _)
    rw [restCount] at hlt
    omega
  calc (round * c.restElems + c.restElems) * c.sizeofT
      = (round + 1) * (c.restElems * c.sizeofT) := by ring
    _ ≤ c.segSize / c.remainder * c.remainder :=
        Nat.mul_le_mul hcount (Nat.div_mul_le_self _ _)
    _ ≤ 8 * c.segSize :=
        (Nat.div_mul_le_self _ _).trans (Nat.le_mul_of_pos_left _ (by norm_num))

theorem PutsInside.restLoop (hs : c.PutsInside s)
    (h : c.restLoop source fuel s peOffset = some s') : c.PutsInside s' := by
  induction fuel generalizing s peOffset with
  | zero => simp [Call.restLoop] at h
  | succ fuel ih =>
    rw [Call.restLoop] at h
    split at h
    · exact ih hs.restRound h
    · rw [← some.inj h]
      exact hs.restRound

theorem exists_restLoop (hpos : 0 < c.pesPerRound) (hfuel : c.size < peOffset + fuel)
    (hle : peOffset ≤ c.size) : ∃ s', c.restLoop source fuel s peOffset = some s' := by
  induction fuel generalizing s peOffset with
  | zero => omega
  | succ fuel ih =>
    rw [restLoop]
    split
    · next hlt =>
      have hcount : 0 < c.restCount peOffset := by
        rw [restCount] at hlt ⊢
        omega
      exact ih (by omega) (by omega)
    · exact ⟨_, rfl⟩

theorem restLoop_eq_none (hpos : ¬ 0 < c.pesPerRound) (hlt : peOffset < c.size) :
    c.restLoop source fuel s peOffset = none := by
  have hcount : c.restCount peOffset = 0 := by
    rw [restCount]
    omega
  induction fuel generalizing s with
  | zero => rfl
  | succ fuel ih =>
    rw [restLoop, hcount, Nat.add_zero, if_pos hlt]
    exact ih

section Segment

variable {dest pWrk : ℕ → ℕ → M}

/-- What a call that ends leaves in `dest`. -/
theorem segment_dest (h : c.segment source dest pWrk fuel = some s) (hpe : pe < c.size)
    (he : e < c.nelems) [Decidable (c.Covered e)] :
    s.dest pe e =
      if c.Covered e then c.gather source pe e (range' 1 (c.size - 1)) (source pe e)
      else source pe e := by
  rw [segment] at h
  split at h
  · next hrem =>
    rw [restLoop_dest hpe c.size_pos h, fullRounds_dest hpe]
    dsimp only
    rw [if_pos he]
    by_cases hfull : e < c.rndsFloor * c.segElems ∧ e % c.segElems < intLimit
    · rw [if_neg (by omega), if_pos hfull, if_pos (.inl hfull)]
    · rw [if_neg hfull]
      exact if_congr (by rw [Covered]; tauto) rfl rfl
  · next hrem =>
    rw [← some.inj h, fullRounds_dest hpe]
    dsimp only
    rw [if_pos he]
    exact if_congr (by rw [Covered]; tauto) rfl rfl

theorem segment_puts (h : c.segment source dest pWrk fuel = some s) : c.PutsInside s := by
  have hinit : c.PutsInside (⟨fun pe e => if e < c.nelems then source pe e else dest pe e, pWrk,
      []⟩ : State M) := by simp [PutsInside]
  rw [segment] at h
  split at h
  · exact hinit.fullRounds.restLoop h
  · rw [← some.inj h]
    exact hinit.fullRounds

theorem exists_segment (h : c.remainder ≠ 0 → c.size = 1 ∨ 0 < c.pesPerRound) :
    ∃ fuel s, c.segment source dest pWrk fuel = some s := by
  refine ⟨c.size, ?_⟩
  rw [segment]
  split
  · next hrem =>
    obtain hone | hpos := h hrem
    · rw [hone]
      exact ⟨_, if_neg (by rw [restCount]; omega)⟩
    · exact exists_restLoop hpos (by omega) c.size_pos
  · exact ⟨_, rfl⟩

end Segment

theorem gather_eq_combine {M : Type*} [CommSemigroup M] {source : ℕ → ℕ → M} (hpe : pe < c.size) :
    c.gather source pe e (range' 1 (c.size - 1)) (source pe e) =
      combine (· * ·) (fun other => source other e) c.size := by
  have hfold : ∀ n, ((c.gather source pe e (range' 1 n) (source pe e) : M) : WithOne M) =
      ∏ i ∈ Finset.range (n + 1), (source (c.sender pe i) e : WithOne M) := by
    intro n
    induction n with
    | zero => simp [gather, sender, Nat.mod_eq_of_lt hpe]
    | succ n ih =>
      rw [Finset.prod_range_succ, ← ih, range'_1_concat, gather, foldl_append,
        foldl_cons, foldl_nil, ← gather, WithOne.coe_mul, Nat.add_comm 1 n]
  apply WithOne.coe_injective
  rw [hfold, coe_combine c.size_pos, Nat.sub_add_cancel c.size_pos]
  -- the distances are a permutation of the PEs
  refine Finset.prod_nbij (c.sender pe) ?_ ?_ ?_ fun _ _ => rfl
  · exact fun i _ => Finset.mem_range.mpr (Nat.mod_lt _ c.size_pos)
  · intro i hi j hj hij
    rw [Finset.mem_coe, Finset.mem_range] at hi hj
    have hmod : c.size - i ≡ c.size - j [MOD c.size] := Nat.ModEq.add_left_cancel' pe hij
    have hsum : i ≡ j [MOD c.size] := by
      have h1 : (c.size - i) + (i + j) ≡ (c.size - j) + (i + j) [MOD c.size] :=
        Nat.ModEq.add_right _ hmod
      rw [show c.size - i + (i + j) = c.size + j by omega,
        show c.size - j + (i + j) = c.size + i by omega] at h1
      exact (Nat.ModEq.add_left_cancel' _ h1).symm
    rwa [Nat.ModEq, Nat.mod_eq_of_lt hi, Nat.mod_eq_of_lt hj] at hsum
  · intro q hq
    rw [Finset.mem_coe, Finset.mem_range] at hq
    refine ⟨(pe + (c.size - q)) % c.size, ?_, ?_⟩
    · exact Finset.mem_coe.mpr (Finset.mem_range.mpr (Nat.mod_lt _ c.size_pos))
    · rw [sender]
      obtain hlt | hge := Nat.lt_or_ge (pe + (c.size - q)) c.size
      · rw [Nat.mod_eq_of_lt hlt, show pe + (c.size - (pe + (c.size - q))) = q by omega,
          Nat.mod_eq_of_lt hq]
      · have hwrap : (pe + (c.size - q)) % c.size = pe + (c.size - q) - c.size := by
          rw [Nat.mod_eq_sub_mod hge, Nat.mod_eq_of_lt (by omega)]
        rw [hwrap, show pe + (c.size - (pe + (c.size - q) - c.size)) = q + c.size by omega,
          Nat.add_mod_right, Nat.mod_eq_of_lt hq]

theorem segSize_pos : 0 < c.segSize := by
  have := c.scratch_ge
  rw [segSize]
  omega

theorem bytes_le : c.rndsFloor * c.segElems * c.sizeofT + c.restElems * c.sizeofT ≤ c.msgLen ∧
    c.restElems * c.sizeofT ≤ c.remainder := by
  have hseg : c.segElems * c.sizeofT ≤ c.segSize := Nat.div_mul_le_self _ _
  have hrest : c.restElems * c.sizeofT ≤ c.remainder := Nat.div_mul_le_self _ _
  have hmsg : c.rndsFloor * c.segSize + c.remainder = c.msgLen := Nat.div_add_mod' _ _
  have hmul := Nat.mul_le_mul_left c.rndsFloor hseg
  rw [← Nat.mul_assoc] at hmul
  exact ⟨by omega, hrest⟩

theorem elems_le : c.rndsFloor * c.segElems + c.restElems ≤ c.nelems := by
  have hle := c.bytes_le.1
  rw [← Nat.add_mul] at hle
  exact Nat.le_of_mul_le_mul_right hle c.sizeofT_pos

theorem nelems_eq (h : c.msgLen < c.segSize ∨ c.sizeofT ∣ c.segSize) :
    c.nelems = c.rndsFloor * c.segElems + c.restElems := by
  have hmsg : c.rndsFloor * c.segSize + c.remainder = c.msgLen := Nat.div_add_mod' _ _
  apply Nat.eq_of_mul_eq_mul_right c.sizeofT_pos
  rw [Nat.add_mul, Nat.mul_assoc]
  obtain hlt | hdvd := h
  · have hzero : c.rndsFloor = 0 := Nat.div_eq_of_lt hlt
    have hrem : c.remainder = c.msgLen := Nat.mod_eq_of_lt hlt
    rw [hzero, Nat.zero_mul, Nat.zero_add, restElems, hrem, msgLen,
      Nat.mul_div_cancel _ c.sizeofT_pos]
  · have hrem : c.sizeofT ∣ c.remainder :=
      (Nat.dvd_mod_iff hdvd).mpr (Dvd.intro_left c.nelems rfl)
    rw [segElems, Nat.div_mul_cancel hdvd, restElems, Nat.div_mul_cancel hrem, hmsg, msgLen]

theorem covered_of_divided (hseg : c.msgLen < c.segSize ∨ c.sizeofT ∣ c.segSize)
    (hfull : 0 < c.rndsFloor → c.segElems ≤ intLimit)
    (hrest : c.remainder ≠ 0 → c.restElems ≤ intLimit) (he : e < c.nelems) : c.Covered e := by
  have hn := nelems_eq hseg
  by_cases hin : e < c.rndsFloor * c.segElems
  · have hpos : 0 < c.rndsFloor ∧ 0 < c.segElems := by
      constructor <;> refine Nat.pos_of_ne_zero fun h0 => ?_ <;> simp [h0] at hin
    exact .inl ⟨hin, (Nat.mod_lt e hpos.2).trans_le (hfull hpos.1)⟩
  · have hrem : c.remainder ≠ 0 := by
      intro h0
      have : c.restElems = 0 := by rw [restElems, h0, Nat.zero_div]
      omega
    have := hrest hrem
    exact .inr ⟨hrem, by omega, by omega⟩

theorem reduces_of_divided (h : c.Divided) : c.Reduces := by
  classical
  intro M _ source dest pWrk
  have hend : c.remainder ≠ 0 → c.size = 1 ∨ 0 < c.pesPerRound := by
    intro hrem
    exact h.imp_right fun h => (h.2.2 hrem).2
  obtain ⟨fuel, s, hs⟩ : ∃ fuel s, c.segment source dest pWrk fuel = some s :=
    exists_segment hend
  refine ⟨fuel, s, hs, fun pe hpe e he => ?_, segment_puts hs⟩
  rw [segment_dest hs hpe he, ← gather_eq_combine hpe]
  obtain hone | ⟨hseg, hfull, hrest⟩ := h
  · rw [hone]
    exact ite_self _
  · exact if_pos (covered_of_divided hseg hfull (fun hrem => (hrest hrem).1) he)

section Necessary

variable (h : c.Reduces) (hsize : 2 ≤ c.size)

include h hsize

theorem covered_of_reduces (he : e < c.nelems) : c.Covered e := by
  classical
  obtain ⟨fuel, s, hs, hdest, -⟩ := h (Multiplicative ℕ) (fun _ _ => ofAdd 1)
    (fun _ _ => 1) (fun _ _ => 1)
  by_contra hnot
  have hcount := hdest 0 c.size_pos e he
  rw [segment_dest hs c.size_pos he, if_neg hnot, combine_eq_prod c.size_pos, Finset.prod_const,
    Finset.card_range, ← ofAdd_nsmul, smul_eq_mul, Nat.mul_one] at hcount
  have hone : 1 = c.size := ofAdd.injective hcount
  omega

theorem pesPerRound_pos (hrem : c.remainder ≠ 0) : 0 < c.pesPerRound := by
  obtain ⟨fuel, s, hs, -⟩ := h (Multiplicative ℕ) (fun _ _ => 1) (fun _ _ => 1) (fun _ _ => 1)
  by_contra hpos
  rw [segment, if_pos hrem, restLoop_eq_none hpos (by omega)] at hs
  simp at hs

theorem dvd_of_reduces (hfull : 0 < c.rndsFloor) : c.sizeofT ∣ c.segSize := by
  have hmsg : c.rndsFloor * c.segSize + c.remainder = c.msgLen := Nat.div_add_mod' _ _
  have hn : 0 < c.nelems := by
    refine Nat.pos_of_ne_zero fun h0 => ?_
    rw [rndsFloor, msgLen, h0, Nat.zero_mul, Nat.zero_div] at hfull
    omega
  have hlast : c.nelems ≤ c.rndsFloor * c.segElems + c.restElems := by
    rcases covered_of_reduces h hsize (show c.nelems - 1 < c.nelems by omega) with hc | hc <;> omega
  have hle := Nat.mul_le_mul_right c.sizeofT hlast
  have hrest := c.bytes_le.2
  have hseg : c.segElems * c.sizeofT ≤ c.segSize := Nat.div_mul_le_self _ _
  rw [Nat.add_mul, Nat.mul_assoc, ← msgLen] at hle
  have hmul := Nat.mul_le_mul_left c.rndsFloor hseg
  have heq : c.rndsFloor * (c.segElems * c.sizeofT) = c.rndsFloor * c.segSize := by omega
  exact ⟨c.segElems, by rw [Nat.mul_comm, Nat.eq_of_mul_eq_mul_left hfull heq]⟩

theorem segElems_le (hfull : 0 < c.rndsFloor) : c.segElems ≤ intLimit := by
  by_contra hlt
  push Not at hlt
  have hle : c.segElems ≤ c.rndsFloor * c.segElems := Nat.le_mul_of_pos_left _ hfull
  have hn := c.elems_le
  rcases covered_of_reduces h hsize (show intLimit < c.nelems by omega) with ⟨-, hmod⟩ | ⟨-, hlo, -⟩
  · rw [Nat.mod_eq_of_lt hlt] at hmod
    omega
  · omega

theorem restElems_le : c.restElems ≤ intLimit := by
  by_contra hlt
  push Not at hlt
  have hn := c.elems_le
  rcases covered_of_reduces h hsize
    (show c.rndsFloor * c.segElems + intLimit < c.nelems by omega) with hc | hc <;> omega

end Necessary

end Call

/-- The reduction is complete for all values exactly if segments are whole elements, as far as
there are full ones, and the loops' `int`s suffice. -/
theorem reduces_iff_divided (c : Call) : c.Reduces ↔ c.Divided := by
  constructor
  · intro h
    by_cases hone : c.size = 1
    · exact .inl hone
    · have hsize : 2 ≤ c.size := by
        have := c.size_pos
        omega
      refine .inr ⟨?_, Call.segElems_le h hsize,
        fun hrem => ⟨Call.restElems_le h hsize, Call.pesPerRound_pos h hsize hrem⟩⟩
      obtain hzero | hfull := Nat.eq_zero_or_pos c.rndsFloor
      · exact .inl ((Nat.div_eq_zero_iff_lt Call.segSize_pos).mp hzero)
      · exact .inr (Call.dvd_of_reduces h hsize hfull)
  · exact Call.reduces_of_divided

def tenByteSegments : Call where
  size := 2
  reduceScratchSize := 160
  sizeofT := 4
  nelems := 3
  groupSize := 1
  size_pos := Nat.two_pos
  scratch_ge := by decide
  scratch_dvd := by decide
  sizeofT_pos := by decide
  groupSize_pos := Nat.one_pos

/-- Two elements fit a segment and the two bytes that are left over make none, so that the third
element is not reduced. -/
theorem not_reduces_tenByteSegments :
    ((tenByteSegments.segment (fun pe e => 10 * pe + e + 1) (fun _ _ => 0) (fun _ _ => 0) 2).map
      fun s => [s.dest 0 0, s.dest 0 1, s.dest 0 2]) = some [11, 24, 3] ∧
      ¬ tenByteSegments.Reduces := by
  refine ⟨by decide +kernel, fun h => ?_⟩
  have hdvd := Call.dvd_of_reduces h (by decide) (by decide)
  revert hdvd
  decide

end Nvshmem.RdxnSegment
