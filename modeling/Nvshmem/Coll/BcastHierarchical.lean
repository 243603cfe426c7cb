import Nvshmem.Lists.Update

/-! # Hierarchical broadcast

A broadcast over the members with the root's place in their node, followed by one inside each node.
The root's place is computed from its index in the team and the size of the caller's own node team,
which is right exactly for teams that are filled node by node with the same places.
-/

namespace Nvshmem.BcastHierarchical

open Lists List Option List Nat

/-- A team of a job with `npesNode` consecutive PEs on each node. -/
structure Team where
  npesNode : ℕ
  size : ℕ
  peMapping : ℕ → ℕ
  npesNode_pos : 0 < npesNode
  size_pos : 0 < size
  peMapping_inj : ∀ {i j}, i < size → j < size → peMapping i = peMapping j → i = j

/-- A broadcast on a team inside the team, with its members as indices of the outer one. -/
structure SubBcast where
  members : List ℕ
  peRoot : ℕ
  fromDest : Bool
deriving DecidableEq, Repr

def SubBcast.value {α : Type*} (c : SubBcast) (buffer : ℕ → α) : Option α :=
  c.members[c.peRoot]?.map buffer

namespace Team

variable (t : Team)

def node (i : ℕ) : ℕ := t.peMapping i / t.npesNode

def mypeNode (i : ℕ) : ℕ := t.peMapping i % t.npesNode

def isTeamNode : Bool := decide (∀ i < t.size, t.node i = t.node 0)

def isTeamSameMypeNode : Bool := decide (∀ i < t.size, t.mypeNode i = t.mypeNode 0)

/-- `nvshmemi_team_split_node`, for the caller at an index. -/
def teamNode (i : ℕ) : List ℕ := (List.range t.size).filter fun j => t.node j = t.node i

/-- `nvshmemi_team_split_same_mype_node` -/
def teamSameMypeNode (i : ℕ) : List ℕ :=
  (List.range t.size).filter fun j => t.mypeNode j = t.mypeNode i

/-- `nvshmemi_bcast_hierarchical_threadgroup`: the broadcasts that the member at an index calls. -/
def calls (peRoot i : ℕ) : List SubBcast :=
  if t.isTeamSameMypeNode then [⟨List.range t.size, peRoot, false⟩]
  else if t.isTeamNode then [⟨List.range t.size, peRoot, false⟩]
  else
    let teamNpesNode := (t.teamNode i).length
    (if peRoot % teamNpesNode = i % teamNpesNode then
      [⟨t.teamSameMypeNode i, peRoot / teamNpesNode, false⟩] else []) ++
      [⟨t.teamNode i, peRoot % teamNpesNode, true⟩]

section Data

variable {α : Type*} (peRoot : ℕ) (source dest : ℕ → α)

/-- The `dest` buffers after the broadcasts from `source`. -/
def afterSource (i : ℕ) : α :=
  (((t.calls peRoot i).find? (!·.fromDest)).bind (·.value source)).getD (dest i)

/-- The `dest` buffers after the broadcasts from `dest`. -/
def afterDest (i : ℕ) : α :=
  (((t.calls peRoot i).find? (·.fromDest)).bind (·.value dest)).getD (dest i)

def bcastHierarchical : ℕ → α := t.afterDest peRoot (t.afterSource peRoot source dest)

end Data

/-- The members of a broadcast that is called all call it, with the same root. -/
def Consistent (peRoot : ℕ) : Prop :=
  ∀ i < t.size, ∀ c ∈ t.calls peRoot i,
    c.peRoot < c.members.length ∧ ∀ j ∈ c.members, c ∈ t.calls peRoot j

def Delivers (peRoot : ℕ) : Prop :=
  ∀ {α : Type} (source dest : ℕ → α), ∀ i < t.size,
    t.bcastHierarchical peRoot source dest i = source peRoot

def Broadcasts : Prop := ∀ peRoot < t.size, t.Consistent peRoot ∧ t.Delivers peRoot

/-- `L` consecutive members are on each node, always with the same places in the node. -/
def Filled (L : ℕ) : Prop :=
  0 < L ∧ L ∣ t.size ∧ ∀ i < t.size, ∀ j < t.size,
    (t.node i = t.node j ↔ i / L = j / L) ∧ (t.mypeNode i = t.mypeNode j ↔ i % L = j % L)

def Even : Prop := t.isTeamSameMypeNode ∨ t.isTeamNode ∨ ∃ L, t.Filled L

end Team

namespace Team

variable {t : Team} {i j k peRoot L : ℕ}

@[simp] theorem mem_teamNode : j ∈ t.teamNode i ↔ j < t.size ∧ t.node j = t.node i := by
  simp [teamNode]

@[simp] theorem mem_teamSameMypeNode :
    j ∈ t.teamSameMypeNode i ↔ j < t.size ∧ t.mypeNode j = t.mypeNode i := by
  simp [teamSameMypeNode]

theorem index_unique (hi : i < t.size) (hj : j < t.size) (hnode : t.node i = t.node j)
    (hmype : t.mypeNode i = t.mypeNode j) : i = j := by
  apply t.peMapping_inj hi hj
  rw [← div_add_mod (t.peMapping i) t.npesNode, ← div_add_mod (t.peMapping j) t.npesNode]
  exact congrArg₂ (fun a b => t.npesNode * a + b) hnode hmype

theorem pairwise_teamNode : (t.teamNode i).Pairwise (· < ·) :=
  List.Pairwise.filter _ pairwise_lt_range

theorem teamNode_inj {x : ℕ} (hj : (t.teamNode i)[j]? = some x) (hk : (t.teamNode i)[k]? = some x) :
    j = k :=
  (getElem?_inj (List.getElem?_eq_some_iff.mp hj).1 (pairwise_teamNode.imp ne_of_lt)).mp
    (hj.trans hk.symm)

theorem teamNode_length_pos (hi : i < t.size) : 0 < (t.teamNode i).length :=
  length_pos_of_mem (mem_teamNode.mpr ⟨hi, rfl⟩)

theorem teamNode_congr (h : t.node i = t.node j) : t.teamNode i = t.teamNode j := by
  simp [teamNode, h]

theorem teamSameMypeNode_congr (h : t.mypeNode i = t.mypeNode j) :
    t.teamSameMypeNode i = t.teamSameMypeNode j := by
  simp [teamSameMypeNode, h]

theorem broadcasts_of_single (h : t.isTeamSameMypeNode ∨ t.isTeamNode) : t.Broadcasts := by
  have hcalls : ∀ peRoot i, t.calls peRoot i = [⟨range t.size, peRoot, false⟩] := by
    intro peRoot i
    rw [calls]
    by_cases hs : t.isTeamSameMypeNode = true
    · rw [if_pos hs]
    · rw [if_neg hs, if_pos (h.resolve_left hs)]
  intro peRoot hroot
  constructor
  · intro i hi c hc
    rw [hcalls, mem_singleton] at hc
    subst hc
    refine ⟨by simpa using hroot, fun j hj => ?_⟩
    rw [hcalls, mem_singleton]
  · intro α source dest i hi
    simp [bcastHierarchical, afterDest, afterSource, hcalls, SubBcast.value, hroot]

section TwoLevels

variable (hs : t.isTeamSameMypeNode = false) (hn : t.isTeamNode = false)

include hs hn

theorem calls_eq : t.calls peRoot i =
    (if peRoot % (t.teamNode i).length = i % (t.teamNode i).length then
      [⟨t.teamSameMypeNode i, peRoot / (t.teamNode i).length, false⟩] else []) ++
      [⟨t.teamNode i, peRoot % (t.teamNode i).length, true⟩] := by
  simp [calls, hs, hn]

theorem afterSource_eq {α : Type*} {source dest : ℕ → α} :
    t.afterSource peRoot source dest i =
      if peRoot % (t.teamNode i).length = i % (t.teamNode i).length then
        ((t.teamSameMypeNode i)[peRoot / (t.teamNode i).length]?.map source).getD (dest i)
      else dest i := by
  rw [afterSource, calls_eq hs hn]
  split <;> simp [SubBcast.value]

theorem afterDest_eq {α : Type*} {dest : ℕ → α} :
    t.afterDest peRoot dest i =
      ((t.teamNode i)[peRoot % (t.teamNode i).length]?.map dest).getD (dest i) := by
  rw [afterDest, calls_eq hs hn]
  split <;> simp [SubBcast.value]

section Filled

variable (hL : t.Filled L)

include hL

omit hs hn in
theorem teamNode_eq (hi : i < t.size) : t.teamNode i = List.range' (i / L * L) L := by
  obtain ⟨hpos, ⟨q, hq⟩, hgrid⟩ := hL
  have hblock : i / L < q := by
    rw [Nat.div_lt_iff_lt_mul hpos, Nat.mul_comm, ← hq]
    exact hi
  have hend : i / L * L + L ≤ t.size := by
    rw [hq, ← succ_mul, Nat.mul_comm L q]
    exact Nat.mul_le_mul_right L hblock
  refine eq_of_pairwise_lt pairwise_teamNode pairwise_lt_range' fun j => ?_
  rw [mem_range'_1, mem_teamNode]
  constructor
  · rintro ⟨hj, hnode⟩
    have hdiv := ((hgrid j hj i hi).1.mp hnode)
    have hmod := mod_lt j hpos
    have hsum := div_add_mod' j L
    rw [hdiv] at hsum
    omega
  · rintro ⟨hlo, hhi⟩
    have hdiv : j / L = i / L := by
      rw [Nat.div_eq_iff hpos]
      omega
    exact ⟨by omega, (hgrid j (by omega) i hi).1.mpr hdiv⟩

omit hs hn in
theorem teamSameMypeNode_eq (hi : i < t.size) :
    t.teamSameMypeNode i = List.range' (i % L) (t.size / L) L := by
  obtain ⟨hpos, ⟨q, hq⟩, hgrid⟩ := hL
  refine eq_of_pairwise_lt (List.Pairwise.filter _ pairwise_lt_range)
    (pairwise_lt_range' _ hpos) fun j => ?_
  rw [mem_range', mem_teamSameMypeNode, hq, Nat.mul_div_cancel_left q hpos]
  constructor
  · rintro ⟨hj, hmype⟩
    rw [← hq] at hj
    refine ⟨j / L, ?_, ?_⟩
    · rw [Nat.div_lt_iff_lt_mul hpos, Nat.mul_comm, ← hq]
      exact hj
    · rw [← (hgrid j hj i hi).2.mp hmype, mod_add_div]
  · rintro ⟨k, hk, rfl⟩
    have hlt : i % L + L * k < L * q := by
      have hmod := mod_lt i hpos
      have hle : L * (k + 1) ≤ L * q := Nat.mul_le_mul_left L hk
      rw [Nat.mul_add, Nat.mul_one] at hle
      omega
    refine ⟨hlt, (hgrid _ (hq ▸ hlt) i hi).2.mpr ?_⟩
    rw [add_mul_mod_self_left, mod_mod]

omit hs hn in
theorem teamNode_length (hi : i < t.size) : (t.teamNode i).length = L := by
  rw [teamNode_eq hL hi, length_range']

theorem consistent_of_filled (hroot : peRoot < t.size) : t.Consistent peRoot := by
  intro i hi c hc
  rw [calls_eq hs hn, teamNode_length hL hi, mem_append, mem_singleton] at hc
  rcases hc with hc | rfl
  · split at hc
    · next hplace =>
      rw [mem_singleton] at hc
      subst hc
      refine ⟨?_, fun j hj => ?_⟩
      · rw [teamSameMypeNode_eq hL hi, length_range', Nat.div_lt_iff_lt_mul hL.1,
          Nat.div_mul_cancel hL.2.1]
        exact hroot
      · obtain ⟨hj, hmype⟩ := mem_teamSameMypeNode.mp hj
        have hmod := (hL.2.2 j hj i hi).2.mp hmype
        rw [calls_eq hs hn, teamNode_length hL hj, hmod, if_pos hplace,
          teamSameMypeNode_congr hmype]
        exact mem_append_left _ (mem_singleton_self _)
    · simp at hc
  · refine ⟨?_, fun j hj => ?_⟩
    · rw [teamNode_length hL hi]
      exact mod_lt _ hL.1
    · obtain ⟨hj, hnode⟩ := mem_teamNode.mp hj
      rw [calls_eq hs hn, teamNode_length hL hj, teamNode_congr hnode]
      exact mem_append_right _ (mem_singleton_self _)

theorem delivers_of_filled (hroot : peRoot < t.size) : t.Delivers peRoot := by
  intro α source dest i hi
  have hmod := mod_lt peRoot hL.1
  -- the member of the node that has the root's place
  have hget : (t.teamNode i)[peRoot % L]? = some (i / L * L + peRoot % L) := by
    rw [teamNode_eq hL hi, getElem?_range' hmod, Nat.one_mul]
  have hlocal : i / L * L + peRoot % L < t.size :=
    (mem_teamNode.mp (mem_of_getElem? hget)).1
  have hplace : (i / L * L + peRoot % L) % L = peRoot % L := by
    rw [Nat.mul_comm, mul_add_mod, mod_mod]
  have hdiv : peRoot / L < t.size / L := div_lt_div_of_lt_of_dvd hL.2.1 hroot
  rw [bcastHierarchical, afterDest_eq hs hn, teamNode_length hL hi, hget, map_some,
    getD_some, afterSource_eq hs hn, teamNode_length hL hlocal, if_pos hplace.symm,
    teamSameMypeNode_eq hL hlocal, getElem?_range' hdiv, hplace, mod_add_div]
  rfl

end Filled

section Necessary

variable (h : t.Broadcasts)

include h

theorem exists_place (hi : i < t.size) (hroot : peRoot < t.size) :
    ∃ q, (t.teamNode i)[peRoot % (t.teamNode i).length]? = some q ∧ q < t.size ∧
      t.node q = t.node i ∧ t.mypeNode q = t.mypeNode peRoot := by
  have hdel := (h peRoot hroot).2 some (fun _ => none) i hi
  rw [bcastHierarchical, afterDest_eq hs hn] at hdel
  have hlt := mod_lt peRoot (teamNode_length_pos hi)
  obtain ⟨q, hq⟩ : ∃ q, (t.teamNode i)[peRoot % (t.teamNode i).length]? = some q :=
    ⟨_, getElem?_eq_getElem hlt⟩
  obtain ⟨hqlt, hqnode⟩ := mem_teamNode.mp (mem_of_getElem? hq)
  rw [hq, map_some, afterSource_eq hs hn] at hdel
  refine ⟨q, hq, hqlt, hqnode, ?_⟩
  split at hdel
  · cases hget : (t.teamSameMypeNode q)[peRoot / (t.teamNode q).length]? with
    | none => simp [hget] at hdel
    | some r =>
      simp only [hget, map_some, getD_some, some.injEq] at hdel
      subst hdel
      exact (mem_teamSameMypeNode.mp (mem_of_getElem? hget)).2.symm
  · simp at hdel

theorem mypeNode_iff (hi : i < t.size) (hj : j < t.size) (hk : k < t.size) :
    t.mypeNode j = t.mypeNode k ↔ j % (t.teamNode i).length = k % (t.teamNode i).length := by
  obtain ⟨q, hq, hqlt, hqnode, hqmype⟩ := exists_place hs hn h hi hj
  obtain ⟨r, hr, hrlt, hrnode, hrmype⟩ := exists_place hs hn h hi hk
  constructor
  · intro hmype
    have heq : q = r := index_unique hqlt hrlt (hqnode.trans hrnode.symm)
      (hqmype.trans (hmype.trans hrmype.symm))
    subst heq
    exact teamNode_inj hq hr
  · intro hmod
    rw [hmod, hr] at hq
    rw [← hqmype, ← hrmype, some.inj hq]

theorem length_eq (hi : i < t.size) (hj : j < t.size) :
    (t.teamNode i).length = (t.teamNode j).length := by
  have hle : ∀ {a b}, a < t.size → b < t.size →
      (t.teamNode b).length ≤ (t.teamNode a).length := by
    intro a b ha hb
    by_contra hlt
    push Not at hlt
    have hbound : (t.teamNode b).length ≤ t.size :=
      (length_filter_le _ _).trans length_range.le
    have hpos := teamNode_length_pos ha
    have hmype := (mypeNode_iff hs hn h ha t.size_pos (k := (t.teamNode a).length)
      (by omega)).mpr (by rw [mod_self, zero_mod])
    have hmod := (mypeNode_iff hs hn h hb t.size_pos (by omega)).mp hmype
    rw [zero_mod, mod_eq_of_lt hlt] at hmod
    omega
  exact le_antisymm (hle hj hi) (hle hi hj)

variable (hL : (t.teamNode 0).length = L)

include hL

theorem mypeNode_iff_mod (hi : i < t.size) (hj : j < t.size) :
    t.mypeNode i = t.mypeNode j ↔ i % L = j % L := by
  rw [← hL]
  exact mypeNode_iff hs hn h t.size_pos hi hj

theorem getElem?_teamNode_self (hi : i < t.size) : (t.teamNode i)[i % L]? = some i := by
  obtain ⟨q, hq, hqlt, hqnode, hqmype⟩ := exists_place hs hn h hi hi
  rw [length_eq hs hn h hi t.size_pos, hL, index_unique hqlt hi hqnode hqmype] at hq
  exact hq

theorem length_teamNode (hi : i < t.size) : (t.teamNode i).length = L := by
  rw [length_eq hs hn h hi t.size_pos, hL]

theorem node_pred (hi : i < t.size) (hmod : 0 < i % L) : t.node i = t.node (i - 1) := by
  induction i using Nat.strong_induction_on with
  | _ i ih =>
    have hself := getElem?_teamNode_self hs hn h hL hi
    have hlen := length_teamNode hs hn h hL hi
    have hLpos : 0 < L := hL ▸ teamNode_length_pos t.size_pos
    have hltL := mod_lt i hLpos
    -- the member before this one in the node team
    obtain ⟨p, hp⟩ : ∃ p, (t.teamNode i)[i % L - 1]? = some p :=
      ⟨_, getElem?_eq_getElem (by omega)⟩
    obtain ⟨hplt, hpnode⟩ := mem_teamNode.mp (mem_of_getElem? hp)
    have hpi : p < i := by
      rw [List.getElem?_eq_some_iff] at hp hself
      obtain ⟨hp', rfl⟩ := hp
      obtain ⟨hs', hself⟩ := hself
      calc (t.teamNode i)[i % L - 1] < (t.teamNode i)[i % L] :=
            pairwise_iff_getElem.mp pairwise_teamNode _ _ _ _ (by omega)
        _ = i := hself
    have hpmod : p % L = i % L - 1 := by
      have hpself := getElem?_teamNode_self hs hn h hL hplt
      rw [teamNode_congr hpnode] at hpself
      exact teamNode_inj hpself hp
    have hsucc : (p + 1) % L = i % L := by
      rw [add_mod, hpmod]
      obtain hone | hL1 : L = 1 ∨ 1 < L := by omega
      · omega
      · rw [mod_eq_of_lt hL1, Nat.sub_add_cancel hmod, mod_mod]
    by_cases hlast : p + 1 = i
    · rw [← hlast, Nat.add_sub_cancel, hlast]
      exact hpnode.symm
    · -- the place of this member would be taken by the one after that member
      have hnode := ih (p + 1) (by omega) (by omega) (by omega)
      rw [Nat.add_sub_cancel, hpnode] at hnode
      exact absurd (index_unique (by omega) hi hnode
        ((mypeNode_iff_mod hs hn h hL (by omega) hi).mpr hsucc)) hlast

theorem node_block (hi : i < t.size) : t.node i = t.node (i / L * L) := by
  have hLpos : 0 < L := hL ▸ teamNode_length_pos t.size_pos
  have hblock : ∀ r < L, i / L * L + r < t.size → t.node (i / L * L + r) = t.node (i / L * L) := by
    intro r
    induction r with
    | zero => exact fun _ _ => rfl
    | succ r ih =>
      intro hr hlt
      have hmod : (i / L * L + (r + 1)) % L = r + 1 := by
        rw [Nat.mul_comm, mul_add_mod, mod_eq_of_lt hr]
      rw [node_pred hs hn h hL hlt (by omega), ← ih (by omega) (by omega)]
      rfl
  have hdiv := div_add_mod' i L
  calc t.node i = t.node (i / L * L + i % L) := by rw [hdiv]
    _ = t.node (i / L * L) := hblock _ (mod_lt i hLpos) (by omega)

theorem div_eq_of_node (hi : i < t.size) (hj : j < t.size) (hnode : t.node i = t.node j) :
    i / L = j / L := by
  have hLpos : 0 < L := hL ▸ teamNode_length_pos t.size_pos
  have hi' := div_mul_le_self i L
  have hj' := div_mul_le_self j L
  rw [node_block hs hn h hL hi, node_block hs hn h hL hj] at hnode
  have heq := index_unique (by omega) (by omega) hnode
    ((mypeNode_iff_mod hs hn h hL (by omega) (by omega)).mpr
      (by rw [mul_mod_left, mul_mod_left]))
  exact eq_of_mul_eq_mul_right hLpos heq

theorem dvd_size : L ∣ t.size := by
  have hLpos : 0 < L := hL ▸ teamNode_length_pos t.size_pos
  by_contra hdvd
  have hdiv := div_add_mod' t.size L
  have hrlt := mod_lt t.size hLpos
  have hlt : t.size / L * L < t.size := by omega
  have hlen := length_teamNode hs hn h hL hlt
  -- the last member of the last node has its place in a whole block
  obtain ⟨p, hp⟩ : ∃ p, (t.teamNode (t.size / L * L))[L - 1]? = some p :=
    ⟨_, getElem?_eq_getElem (by omega)⟩
  obtain ⟨hplt, hpnode⟩ := mem_teamNode.mp (mem_of_getElem? hp)
  have hpmod : p % L = L - 1 := by
    have hpself := getElem?_teamNode_self hs hn h hL hplt
    rw [teamNode_congr hpnode] at hpself
    exact teamNode_inj hpself hp
  have hpdiv := div_eq_of_node hs hn h hL hplt hlt hpnode
  rw [Nat.mul_div_cancel _ hLpos] at hpdiv
  have := div_add_mod' p L
  rw [hpdiv] at this
  omega

theorem filled_of_broadcasts : t.Filled L := by
  refine ⟨hL ▸ teamNode_length_pos t.size_pos, dvd_size hs hn h hL, fun i hi j hj => ⟨⟨?_, ?_⟩, ?_⟩⟩
  · exact div_eq_of_node hs hn h hL hi hj
  · intro hdiv
    rw [node_block hs hn h hL hi, hdiv, ← node_block hs hn h hL hj]
  · exact mypeNode_iff_mod hs hn h hL hi hj

end Necessary

end TwoLevels

end Team

/-- Every root's data reaches every member, through broadcasts on which the members agree, exactly
if the team has one level or its nodes are filled alike. -/
theorem broadcasts_iff (t : Team) : t.Broadcasts ↔ t.Even := by
  by_cases hs : t.isTeamSameMypeNode = true
  · exact iff_of_true (Team.broadcasts_of_single (.inl hs)) (.inl hs)
  by_cases hn : t.isTeamNode = true
  · exact iff_of_true (Team.broadcasts_of_single (.inr hn)) (.inr (.inl hn))
  rw [Bool.not_eq_true] at hs hn
  constructor
  · exact fun h => .inr (.inr ⟨_, Team.filled_of_broadcasts hs hn h rfl⟩)
  · rintro (hs' | hn' | ⟨L, hL⟩)
    · simp [hs] at hs'
    · simp [hn] at hn'
    · exact fun peRoot hroot => ⟨Team.consistent_of_filled hs hn hL hroot,
        Team.delivers_of_filled hs hn hL hroot⟩

def firstPes : Team where
  npesNode := 8
  size := 33
  peMapping := id
  npesNode_pos := by decide
  size_pos := by decide
  peMapping_inj := fun _ _ h => h

/-- With root 1, the only member on the last node calls a broadcast that PE 0 does not call. -/
theorem not_broadcasts_firstPes :
    (⟨[0, 8, 16, 24, 32], 1, false⟩ : SubBcast) ∈ firstPes.calls 1 32 ∧
      (⟨[0, 8, 16, 24, 32], 1, false⟩ : SubBcast) ∉ firstPes.calls 1 0 ∧
      ¬ firstPes.Broadcasts := by
  have hcall : (⟨[0, 8, 16, 24, 32], 1, false⟩ : SubBcast) ∈ firstPes.calls 1 32 := by
    decide +kernel
  have hnot : (⟨[0, 8, 16, 24, 32], 1, false⟩ : SubBcast) ∉ firstPes.calls 1 0 := by
    decide +kernel
  refine ⟨hcall, hnot, fun h => ?_⟩
  exact hnot (((h 1 (by decide)).1 32 (by decide) _ hcall).2 0 (by decide))

end Nvshmem.BcastHierarchical
