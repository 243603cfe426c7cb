import Nvshmem.Radix.Digit

/-! # Neighbour tables of the recursive exchange

Every PE of a team computes whom it sends to and receives from when the PEs beyond
the largest power of the radix are folded in, and its neighbours in each phase of
the exchange along the digits of its new number. The tables hold world PE numbers.
-/

namespace Nvshmem

open List

/-- The tables of one PE. Neighbour entries left at the invalid value are not listed. -/
structure RecExch where
  step1Sendto : Option ℕ
  step1Recvfrom : List ℕ
  step2Nbrs : List (List ℕ)

namespace RecExch

def effectiveK (numPes k : ℕ) : ℕ :=
  if numPes < k then (if 2 < numPes then numPes else 2) else k

/-- The loop that multiplies `p_of_k` until it exceeds the team size. -/
def powLoop (k numPes : ℕ) : ℕ → ℕ → ℕ → ℕ × ℕ
  | 0, pOfK, log => (pOfK, log)
  | fuel + 1, pOfK, log =>
    if pOfK ≤ numPes then powLoop k numPes fuel (pOfK * k) (log + 1) else (pOfK, log)

def pOfK (k numPes : ℕ) : ℕ := (powLoop k numPes (numPes + 1) 1 0).1 / k

def logPOfK (k numPes : ℕ) : ℕ :=
  let log := (powLoop k numPes (numPes + 1) 1 0).2
  if log > 0 then log - 1 else log

def rem (k numPes : ℕ) : ℕ := numPes - pOfK k numPes

def foldBound (k numPes : ℕ) : ℕ := rem k numPes * k / (k - 1)

/-- The outcome of the first step: no `newpe` marks a PE that takes no part in the second. -/
structure Step1 where
  sendto : Option ℕ
  recvfrom : List ℕ
  newpe : Option ℕ

def step1 (k rem T myPe : ℕ) : Step1 :=
  if myPe < T then
    if myPe % k ≠ k - 1 then
      let sendto := myPe + (k - 1 - myPe % k)
      ⟨some (if sendto > T - 1 then T else sendto), [], none⟩
    else
      ⟨none, (List.range (k - 1)).map fun i => myPe - i - 1, some (myPe / k)⟩
  else
    let nsenders := (T - 1) % k + 1
    ⟨none,
      if myPe = T ∧ (T - 1) % k ≠ k - 1 ∧ T ≥ 1 then
        (List.range nsenders).map fun i => T - nsenders + (nsenders - 1 - i)
      else [],
      some (myPe - rem)⟩

/-- The loop that writes the digits of `temppe` into the zeroed array. -/
def digitLoop (k : ℕ) : ℕ → ℕ → ℕ → List ℕ → List ℕ
  | 0, _, _, digit => digit
  | fuel + 1, temppe, iDigit, digit =>
    if temppe ≠ 0 then
      digitLoop k fuel (temppe / k) (iDigit + 1) (digit.set iDigit (temppe % k))
    else digit

def nbrValue (k : ℕ) (digit : List ℕ) : ℕ :=
  (digit.foldl (fun (nbr, power) d => (nbr + d * power, power * k)) (0, 1)).1

/-- The PE of the team whose number among the participants is `nbr`. -/
def realPe (k rem nbr : ℕ) : ℕ := if nbr < rem / (k - 1) then nbr * k + (k - 1) else nbr + rem

def phaseNbrs (k rem : ℕ) (digit : List ℕ) (phase : ℕ) : List ℕ :=
  ((List.range k).filter fun i => i ≠ digit.getD phase 0).map fun i =>
    realPe k rem (nbrValue k (digit.set phase i))

def phaseLoop (k pOfK rem : ℕ) (digit : List ℕ) : ℕ → ℕ → ℕ → List (List ℕ)
  | 0, _, _ => []
  | fuel + 1, mask, phase =>
    if mask < pOfK then
      phaseNbrs k rem digit phase :: phaseLoop k pOfK rem digit fuel (mask * k) (phase + 1)
    else []

/-- `nvshmemi_recexchalgo_get_neighbors` for the PE with number `myPe` in the team. -/
def getNeighbors (peMapping : ℕ → ℕ) (kval numPes myPe : ℕ) : RecExch :=
  let k := effectiveK numPes kval
  let log := logPOfK k numPes
  let s := step1 k (rem k numPes) (foldBound k numPes) myPe
  let nbrs := match s.sendto, s.newpe with
    | none, some newpe =>
      let digit := digitLoop k (newpe + 1) newpe 0 (List.replicate log 0)
      phaseLoop k (pOfK k numPes) (rem k numPes) digit (pOfK k numPes) 1 0
    | _, _ => List.replicate log []
  { step1Sendto := s.sendto.map peMapping
    step1Recvfrom := s.recvfrom.map peMapping
    step2Nbrs := nbrs.map fun l => l.map peMapping }

section Loops

variable {k n m : ℕ}

theorem powLoop_eq (hk : 2 ≤ k) (hn : k ^ m ≤ n) (hlt : n < k ^ (m + 1)) :
    ∀ fuel log, m + 1 ≤ log + fuel → log ≤ m + 1 →
      powLoop k n fuel (k ^ log) log = (k ^ (m + 1), m + 1)
  | 0, log, hf, hl => by
    obtain rfl : log = m + 1 := by omega
    rfl
  | fuel + 1, log, hf, hl => by
    rw [powLoop]
    rcases Nat.lt_or_ge m log with h | h
    · obtain rfl : log = m + 1 := by omega
      rw [if_neg (by omega)]
    · have : k ^ log ≤ k ^ m := Nat.pow_le_pow_right (by omega) h
      rw [if_pos (by omega), ← pow_succ]
      exact powLoop_eq hk hn hlt fuel (log + 1) (by omega) (by omega)

theorem powLoop_start (hk : 2 ≤ k) (hn : k ^ m ≤ n) (hlt : n < k ^ (m + 1)) :
    powLoop k n (n + 1) 1 0 = (k ^ (m + 1), m + 1) := by
  have hm : m < k ^ m := Nat.lt_pow_self (by omega)
  exact powLoop_eq hk hn hlt (n + 1) 0 (by omega) (by omega)

theorem pOfK_eq (hk : 2 ≤ k) (hn : k ^ m ≤ n) (hlt : n < k ^ (m + 1)) : pOfK k n = k ^ m := by
  rw [pOfK, powLoop_start hk hn hlt, pow_succ, Nat.mul_div_cancel _ (by omega)]

theorem logPOfK_eq (hk : 2 ≤ k) (hn : k ^ m ≤ n) (hlt : n < k ^ (m + 1)) : logPOfK k n = m := by
  rw [logPOfK, powLoop_start hk hn hlt]
  rfl

theorem digitLoop_eq (hk : 2 ≤ k) : ∀ fuel m a done, a < k ^ m → a < fuel →
    digitLoop k fuel a done.length (done ++ List.replicate m 0) = done ++ Radix.digits k m a
  | 0, _, _, _, _, hf => by omega
  | fuel + 1, 0, a, done, ha, _ => by
    obtain rfl : a = 0 := by simpa using ha
    simp [digitLoop, Radix.digits]
  | fuel + 1, m + 1, a, done, ha, hf => by
    by_cases h0 : a = 0
    · subst h0
      simp [digitLoop]
    · have hdiv : a / k < k ^ m := Nat.div_lt_of_lt_mul (by rwa [← pow_succ'])
      have hlt : a / k < fuel := by
        have := Nat.div_lt_self (Nat.pos_of_ne_zero h0) hk
        omega
      have hset : (done ++ List.replicate (m + 1) 0).set done.length (a % k) =
          (done ++ [a % k]) ++ List.replicate m 0 := by
        simp [replicate_succ]
      have ih := digitLoop_eq hk fuel m (a / k) (done ++ [a % k]) hdiv hlt
      rw [length_append, length_singleton] at ih
      rw [digitLoop, if_pos h0, hset, ih, Radix.digits, append_assoc, singleton_append]

theorem nbrValue_eq (digit : List ℕ) : nbrValue k digit = Nat.ofDigits k digit := by
  have hfold : ∀ (digit : List ℕ) (nbr power : ℕ),
      (digit.foldl (fun (nbr, power) d => (nbr + d * power, power * k)) (nbr, power)).1 =
        nbr + power * Nat.ofDigits k digit := by
    intro digit
    induction digit with
    | nil => simp
    | cons d digit ih =>
      intro nbr power
      rw [foldl_cons, ih, Nat.ofDigits_cons]
      ring
  rw [nbrValue, hfold, zero_add, one_mul]

theorem phaseLoop_eq (hk : 2 ≤ k) (rem : ℕ) (digit : List ℕ) :
    ∀ fuel phase, phase ≤ m → m ≤ phase + fuel →
      phaseLoop k (k ^ m) rem digit fuel (k ^ phase) phase =
        (List.range' phase (m - phase)).map (phaseNbrs k rem digit)
  | 0, phase, hp, hf => by
    obtain rfl : phase = m := by omega
    simp [phaseLoop]
  | fuel + 1, phase, hp, hf => by
    rw [phaseLoop]
    rcases hp.eq_or_lt with rfl | hlt
    · simp
    · have hpow : k ^ phase < k ^ m := Nat.pow_lt_pow_right (by omega) hlt
      have hsucc : m - phase = m - (phase + 1) + 1 := by omega
      rw [if_pos hpow, ← pow_succ, phaseLoop_eq hk rem digit fuel (phase + 1) hlt (by omega), hsucc,
        range'_succ, map_cons]

end Loops

end RecExch

end Nvshmem
