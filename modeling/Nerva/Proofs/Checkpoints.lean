import Nerva.Checkpoints
import Nerva.Proofs.Reorg

/-!
# Which checkpoints are enforced

After a rollback the loop goes on with the height the chain had before it, so that the next
checkpoint is looked up above the chain and throws. For the heights 0 and 1 nothing is rolled back;
for 2 the height to roll back to is 0, which the genesis block does not allow.
-/

namespace Nerva

open List BlockchainDB

variable {ce : ChainEnv}

section Rollback

variable {node node' : Node} {b : Block}

theorem popBlockFromBlockchain_blocks (h : node.popBlockFromBlockchain ce = some (b, node')) :
    node'.bc.db.blocks = node.bc.db.blocks.dropLast := by
  obtain ⟨hlarge, hbc⟩ := popBlockFromBlockchain_bc h
  rw [hbc, updateNextCumulativeWeightLimit_db, Blockchain.popBlock, if_pos hlarge]

theorem exists_popBlockFromBlockchain (ce : ChainEnv) (node : Node) (h : 1 < node.bc.db.height) :
    ∃ b node', node.popBlockFromBlockchain ce = some (b, node') ∧
      node'.bc.db.blocks = node.bc.db.blocks.dropLast := by
  have hne : node.bc.db.blocks ≠ [] := by
    intro hnil
    rw [height, hnil] at h
    exact absurd h (by decide)
  obtain ⟨info, hlast⟩ : ∃ info, node.bc.db.blocks.getLast? = some info :=
    ⟨_, getLast?_eq_some_getLast hne⟩
  obtain ⟨r, hr⟩ : ∃ r, node.popBlockFromBlockchain ce = some r := by
    unfold Node.popBlockFromBlockchain
    rw [hlast]
    simp only [if_neg (Nat.not_le.mpr h)]
    exact ⟨_, rfl⟩
  exact ⟨r.1, r.2, hr, popBlockFromBlockchain_blocks hr⟩

/-- The genesis block is not popped. -/
theorem popBlockFromBlockchain_eq_none (h : node.bc.db.height ≤ 1) :
    node.popBlockFromBlockchain ce = none := by
  unfold Node.popBlockFromBlockchain
  split
  · rfl
  · exact if_pos h

theorem exists_popWhile_height (ce : ChainEnv) {r : ℕ} (hr : 1 ≤ r) :
    ∀ (fuel : ℕ) (node : Node) (popped : List Block), r ≤ node.bc.db.height →
      node.bc.db.height - r < fuel →
    ∃ popped' node', node.popWhile ce (fun bc => decide (bc.db.height ≠ r)) fuel popped =
      some (popped', node') ∧ node'.bc.db.blocks = node.bc.db.blocks.take r
  | 0, _, _, _, hfuel => absurd hfuel (Nat.not_lt_zero _)
  | fuel + 1, node, popped, hle, hfuel => by
    rw [Node.popWhile]
    by_cases heq : node.bc.db.height = r
    · refine ⟨popped, node, by simp [heq], ?_⟩
      rw [← heq, height, take_length]
    · obtain ⟨b, node₁, hpop, hblocks⟩ :=
        exists_popBlockFromBlockchain ce node (by omega)
      have hheight : node₁.bc.db.height = node.bc.db.height - 1 := by
        rw [height, hblocks, length_dropLast, height]
      obtain ⟨popped', node', hrest, htake⟩ := exists_popWhile_height ce hr fuel node₁
        (b :: popped) (by omega) (by omega)
      refine ⟨popped', node', ?_, ?_⟩
      · rw [if_pos (by simpa using heq), hpop]
        exact hrest
      · rw [htake, hblocks, dropLast_eq_take, take_take, ← height,
          Nat.min_eq_left (by omega)]

theorem popWhile_zero_eq_none (ce : ChainEnv) : ∀ (fuel : ℕ) (node : Node) (popped : List Block),
    1 ≤ node.bc.db.height →
    node.popWhile ce (fun bc => decide (bc.db.height ≠ 0)) fuel popped = none
  | 0, _, _, _ => rfl
  | fuel + 1, node, popped, hpos => by
    rw [Node.popWhile, if_pos (by simpa using Nat.ne_of_gt hpos)]
    rcases Nat.lt_or_ge 1 node.bc.db.height with hlarge | hsmall
    · obtain ⟨b, node₁, hpop, hblocks⟩ := exists_popBlockFromBlockchain ce node hlarge
      have hheight : node₁.bc.db.height = node.bc.db.height - 1 := by
        rw [height, hblocks, length_dropLast, height]
      rw [hpop]
      exact popWhile_zero_eq_none ce fuel node₁ (b :: popped) (by omega)
    · rw [popBlockFromBlockchain_eq_none hsmall]
      rfl

theorem rollback_zero_eq_none (hpos : 1 ≤ node.bc.db.height) :
    node.rollbackBlockchainSwitching ce [] 0 = none := by
  unfold Node.rollbackBlockchainSwitching
  have hnone := popWhile_zero_eq_none ce node.bc.db.height node.forgetWindow [] hpos
  simp only [hnone]
  rfl

/-- A rollback to a height above the genesis block succeeds. -/
theorem exists_rollback (ce : ChainEnv) (node : Node) {r : ℕ} (hr : 1 ≤ r) :
    ∃ node', node.rollbackBlockchainSwitching ce [] r = some (true, node') ∧
      node'.bc.db.blocks = node.bc.db.blocks.take r := by
  unfold Node.rollbackBlockchainSwitching
  by_cases hlow : node.bc.db.height < r
  · refine ⟨node, if_pos hlow, (take_of_length_le ?_).symm⟩
    exact Nat.le_of_lt hlow
  · obtain ⟨popped', node', hpop, hblocks⟩ := exists_popWhile_height ce hr
      node.bc.db.height node.forgetWindow [] (not_lt.mp hlow)
      (show node.bc.db.height - r < node.bc.db.height by omega)
    rw [if_neg hlow]
    simp only [hpop, Node.connect]
    exact ⟨_, rfl, by rw [reorganizeFromChainHeight_db_blocks,
      reorganizeFromChainHeight_db_blocks]; exact hblocks⟩

end Rollback

/-- A checkpoint names another block than the chain has. -/
def BlockchainDB.Conflict (env : Env) (db : BlockchainDB) (p : UInt64 × Hash) : Prop :=
  p.1.toNat < db.height ∧ db.getBlockHashFromHeight env p.1.toNat ≠ some p.2

instance (env : Env) (db : BlockchainDB) (p : UInt64 × Hash) : Decidable (db.Conflict env p) :=
  inferInstanceAs (Decidable (_ ∧ _))

/-- The node's chain is a front of the chain at the start. -/
structure IsBelow (db : BlockchainDB) (node : Node) : Prop where
  blocks : node.bc.db.blocks = db.blocks.take node.bc.db.height
  pos : 1 ≤ node.bc.db.height

section Step

variable {node : Node} {db : BlockchainDB} {points : Checkpoints} {p : UInt64 × Hash}

theorem Checkpoints.checkBlock_iff (hp : p ∈ points.points) (id : Hash) :
    points.checkBlock p.1 id = true ↔ id = p.2 := by
  obtain ⟨pre, post, hsplit⟩ := append_of_mem hp
  have hsorted := points.sorted
  rw [hsplit, pairwise_append] at hsorted
  have hlookup : points.points.lookup p.1 = some p.2 := by
    rw [hsplit]
    refine List.lookup_eq_some_iff.mpr ⟨pre, post, rfl, fun q hq => ?_⟩
    have hlt := hsorted.2.2 q hq p mem_cons_self
    simpa using (UInt64.ne_of_lt hlt).symm
  rw [Checkpoints.checkBlock, hlookup]
  simp [eq_comm]

theorem IsBelow.height_le (h : IsBelow db node) : node.bc.db.height ≤ db.height := by
  have hlen := congrArg List.length h.blocks
  rw [length_take, ← height, ← height] at hlen
  omega

theorem IsBelow.getBlockHashFromHeight (h : IsBelow db node) (env : Env) {k : ℕ}
    (hk : k < node.bc.db.height) :
    node.bc.db.getBlockHashFromHeight env k = db.getBlockHashFromHeight env k := by
  unfold BlockchainDB.getBlockHashFromHeight
  rw [h.blocks, getElem?_take, if_pos hk]

theorem IsBelow.conflict_iff (h : IsBelow db node) (env : Env) :
    node.bc.db.Conflict env p ↔ p.1.toNat < node.bc.db.height ∧ db.Conflict env p := by
  unfold BlockchainDB.Conflict
  have hle := h.height_le
  constructor
  · rintro ⟨hlt, hne⟩
    rw [h.getBlockHashFromHeight env hlt] at hne
    exact ⟨hlt, by omega, hne⟩
  · rintro ⟨hlt, -, hne⟩
    rw [h.getBlockHashFromHeight env hlt]
    exact ⟨hlt, hne⟩

theorem getBlockHashFromHeight_eq_none_iff (env : Env) (db : BlockchainDB) (k : ℕ) :
    db.getBlockHashFromHeight env k = none ↔ db.height ≤ k := by
  rw [BlockchainDB.getBlockHashFromHeight, Option.map_eq_none_iff, getElem?_eq_none_iff,
    height]

/-- A checkpoint that agrees changes nothing. -/
theorem checkAgainstPoint_of_not_conflict (h : IsBelow db node) (hp : p ∈ points.points)
    (hconflict : ¬db.Conflict ce.toEnv p)
    (hlow : p.1.toNat < db.height → p.1.toNat < node.bc.db.height) :
    node.checkAgainstPoint ce points true db.height p = some node := by
  unfold Node.checkAgainstPoint
  by_cases hhigh : db.height ≤ p.1.toNat
  · rw [if_pos hhigh]
  · have hlt := hlow (Nat.not_le.mp hhigh)
    have hid : db.getBlockHashFromHeight ce.toEnv p.1.toNat = some p.2 := by
      by_contra hne
      exact hconflict ⟨Nat.not_le.mp hhigh, hne⟩
    rw [if_neg hhigh, h.getBlockHashFromHeight ce.toEnv hlt, hid]
    simp only [(points.checkBlock_iff hp p.2).mpr rfl, if_true]

/-- A checkpoint above the chain after a rollback throws. -/
theorem checkAgainstPoint_eq_none (hlt : p.1.toNat < db.height)
    (hhigh : node.bc.db.height ≤ p.1.toNat) :
    node.checkAgainstPoint ce points true db.height p = none := by
  unfold Node.checkAgainstPoint
  rw [if_neg (Nat.not_le.mpr hlt),
    (getBlockHashFromHeight_eq_none_iff ce.toEnv _ _).mpr hhigh]

/-- A conflict rolls back to two blocks below the checkpoint. -/
theorem checkAgainstPoint_of_conflict (h : IsBelow db node) (hp : p ∈ points.points)
    (hconflict : db.Conflict ce.toEnv p) (hlow : p.1.toNat < node.bc.db.height) :
    node.checkAgainstPoint ce points true db.height p =
      (node.rollbackBlockchainSwitching ce [] (p.1 - 2).toNat).map (·.2) := by
  unfold Node.checkAgainstPoint
  rw [if_neg (Nat.not_le.mpr hconflict.1)]
  cases hid : node.bc.db.getBlockHashFromHeight ce.toEnv p.1.toNat with
  | none => exact absurd ((getBlockHashFromHeight_eq_none_iff _ _ _).mp hid) (Nat.not_le.mpr hlow)
  | some id =>
    have hne : ¬points.checkBlock p.1 id = true := by
      rw [points.checkBlock_iff hp]
      rintro rfl
      exact hconflict.2 (h.getBlockHashFromHeight ce.toEnv hlow ▸ hid)
    simp only [hne, if_false, if_true, Bool.false_eq_true]

theorem toNat_sub_two (h : UInt64) :
    (h - 2).toNat = if h.toNat < 2 then 2 ^ 64 - 2 + h.toNat else h.toNat - 2 := by
  have hlt := h.toNat_lt
  have htwo : (2 : UInt64).toNat = 2 := rfl
  rw [UInt64.toNat_sub]
  split_ifs <;> omega

theorem IsBelow.rollback (ce : ChainEnv) (h : IsBelow db node) {r : ℕ} (hr : 1 ≤ r) :
    ∃ node', node.rollbackBlockchainSwitching ce [] r = some (true, node') ∧ IsBelow db node' ∧
      node'.bc.db.height = min r node.bc.db.height := by
  obtain ⟨node', hroll, hblocks⟩ := exists_rollback ce node hr
  have hheight : node'.bc.db.height = min r node.bc.db.height := by
    rw [height, hblocks, length_take, height]
  have hpos := h.pos
  refine ⟨node', hroll, ⟨?_, by omega⟩, hheight⟩
  rw [hblocks, h.blocks, take_take, hheight]

end Step

/-- Rollbacks for the heights 0 and 1 stay out of reach. -/
structure IsAhead (db : BlockchainDB) (node : Node) : Prop extends IsBelow db node where
  high : min db.height (2 ^ 64 - 2) ≤ node.bc.db.height

section Run

variable {node node' : Node} {db : BlockchainDB} {points : Checkpoints}

theorem IsAhead.checkAgainstPoint (h : IsAhead db node) {p : UInt64 × Hash}
    (hp : p ∈ points.points) (hquiet : 2 ≤ p.1.toNat → ¬db.Conflict ce.toEnv p) :
    (∃ node', node.checkAgainstPoint ce points true db.height p = some node' ∧ IsAhead db node') ∨
      (node.checkAgainstPoint ce points true db.height p = none ∧
        node.bc.db.height ≤ p.1.toNat ∧ p.1.toNat < db.height) := by
  by_cases hbelow : p.1.toNat < db.height ∧ node.bc.db.height ≤ p.1.toNat
  · exact .inr ⟨checkAgainstPoint_eq_none hbelow.1 hbelow.2, hbelow.2, hbelow.1⟩
  have hlow : p.1.toNat < db.height → p.1.toNat < node.bc.db.height := by omega
  refine .inl ?_
  by_cases hconflict : db.Conflict ce.toEnv p
  · have hsmall : p.1.toNat < 2 := by
      by_contra hlarge
      exact hquiet (not_lt.mp hlarge) hconflict
    have hr := toNat_sub_two p.1
    rw [if_pos hsmall] at hr
    obtain ⟨node', hroll, hbelow', hheight⟩ := h.toIsBelow.rollback ce (r := (p.1 - 2).toNat)
      (by omega)
    have hhigh := h.high
    refine ⟨node', ?_, hbelow', by omega⟩
    rw [checkAgainstPoint_of_conflict h.toIsBelow hp hconflict (hlow hconflict.1), hroll]
    rfl
  · exact ⟨node, checkAgainstPoint_of_not_conflict h.toIsBelow hp hconflict hlow, h⟩

/-- Checkpoints that agree, or lie below height 2, leave the chain ahead of them. -/
theorem IsAhead.foldlM : ∀ {l : List (UInt64 × Hash)} {node : Node}, IsAhead db node →
    (∀ p ∈ l, p ∈ points.points) → (∀ p ∈ l, 2 ≤ p.1.toNat → ¬db.Conflict ce.toEnv p) →
    l.foldlM (Node.checkAgainstPoint ce points true db.height) node = some node' → IsAhead db node'
  | [], node, h, _, _, hrun => by
    cases hrun
    exact h
  | p :: l, node, h, hmem, hquiet, hrun => by
    obtain ⟨node₁, hstep, hrest⟩ := Option.bind_eq_some_iff.mp hrun
    rcases h.checkAgainstPoint (hmem p mem_cons_self) (hquiet p mem_cons_self) with
      ⟨node₂, hstep₂, h₂⟩ | ⟨hnone, -⟩
    · cases hstep.symm.trans hstep₂
      exact h₂.foldlM (fun q hq => hmem q (mem_cons_of_mem _ hq))
        (fun q hq => hquiet q (mem_cons_of_mem _ hq)) hrest
    · cases hstep.symm.trans hnone

theorem IsAhead.exists_foldlM : ∀ {l : List (UInt64 × Hash)} {node : Node}, IsAhead db node →
    (∀ p ∈ l, p ∈ points.points) → (∀ p ∈ l, 2 ≤ p.1.toNat → ¬db.Conflict ce.toEnv p) →
    (∀ p ∈ l, p.1.toNat < 2 ^ 64 - 2) →
    ∃ node', l.foldlM (Node.checkAgainstPoint ce points true db.height) node = some node'
  | [], node, _, _, _, _ => ⟨node, rfl⟩
  | p :: l, node, h, hmem, hquiet, hsmall => by
    rcases h.checkAgainstPoint (hmem p mem_cons_self) (hquiet p mem_cons_self) with
      ⟨node₁, hstep, h₁⟩ | ⟨-, hhigh, hlt⟩
    · obtain ⟨node', hrest⟩ := h₁.exists_foldlM (fun q hq => hmem q (mem_cons_of_mem _ hq))
        (fun q hq => hquiet q (mem_cons_of_mem _ hq))
        (fun q hq => hsmall q (mem_cons_of_mem _ hq))
      refine ⟨node', ?_⟩
      rw [foldlM_cons, hstep]
      exact hrest
    · have hbound := h.high
      have hp := hsmall p mem_cons_self
      omega

theorem foldlM_of_not_conflict (h : IsBelow node.bc.db node) : ∀ {l : List (UInt64 × Hash)},
    (∀ p ∈ l, p ∈ points.points) → (∀ p ∈ l, ¬node.bc.db.Conflict ce.toEnv p) →
    l.foldlM (Node.checkAgainstPoint ce points true node.bc.db.height) node = some node
  | [], _, _ => rfl
  | p :: l, hmem, hquiet => by
    rw [foldlM_cons, checkAgainstPoint_of_not_conflict h (hmem p mem_cons_self)
      (hquiet p mem_cons_self) id]
    exact foldlM_of_not_conflict h (fun q hq => hmem q (mem_cons_of_mem _ hq))
      (fun q hq => hquiet q (mem_cons_of_mem _ hq))

/-- Of the checkpoints above the chain, the first that was within it throws. -/
theorem foldlM_above {node : Node} : ∀ {l : List (UInt64 × Hash)},
    (∀ p ∈ l, node.bc.db.height ≤ p.1.toNat) →
    l.foldlM (Node.checkAgainstPoint ce points true db.height) node =
      if ∀ p ∈ l, db.height ≤ p.1.toNat then some node else none
  | [], _ => by simp
  | p :: l, habove => by
    rw [foldlM_cons]
    have hrest := foldlM_above fun q hq => habove q (mem_cons_of_mem p hq)
    by_cases hhigh : db.height ≤ p.1.toNat
    · have hstep : node.checkAgainstPoint ce points true db.height p = some node := if_pos hhigh
      rw [hstep]
      simp only [forall_mem_cons, hhigh, true_and]
      exact hrest
    · rw [checkAgainstPoint_eq_none (Nat.not_le.mp hhigh) (habove p mem_cons_self)]
      simp only [forall_mem_cons, hhigh]
      rfl

end Run

/-- No checkpoint is in conflict, or the last one below the chain's height is: it is at height 3 or
above, and no other one is in conflict except at height 1, which a rollback from height 3 takes back
too. -/
def Checkpoints.Enforceable (env : Env) (db : BlockchainDB) (points : Checkpoints) : Prop :=
  (∀ p ∈ points.points, ¬db.Conflict env p) ∨
    ∃ c ∈ points.points, db.Conflict env c ∧ 3 ≤ c.1.toNat ∧
      (∀ p ∈ points.points, c.1 < p.1 → db.height ≤ p.1.toNat) ∧
      ∀ p ∈ points.points, p.1 < c.1 → db.Conflict env p → p.1.toNat = 1 ∧ c.1.toNat = 3

/-- The chain has the blocks that the checkpoints name. -/
def Checkpoints.Meets (env : Env) (db : BlockchainDB) (points : Checkpoints) : Prop :=
  ∀ p ∈ points.points, p.1.toNat < db.height → db.getBlockHashFromHeight env p.1.toNat = some p.2

section Loop

variable {node node' : Node} {points : Checkpoints} {pre post : List (UInt64 × Hash)}
  {c : UInt64 × Hash}

theorem IsBelow.not_conflict_of_meets {db : BlockchainDB} {env : Env} (h : IsBelow db node')
    (hmeets : points.Meets env node'.bc.db) {p : UInt64 × Hash} (hp : p ∈ points.points)
    (hconflict : db.Conflict env p) : node'.bc.db.height ≤ p.1.toNat := by
  by_contra hlow
  have hnode := (h.conflict_iff env).mpr ⟨Nat.not_le.mp hlow, hconflict⟩
  exact hnode.2 (hmeets p hp hnode.1)

theorem isAhead_self (hpos : 1 ≤ node.bc.db.height) : IsAhead node.bc.db node where
  blocks := by rw [height, take_length]
  pos := hpos
  high := Nat.min_le_left _ _

theorem Checkpoints.lt_of_split (hsplit : points.points = pre ++ c :: post) :
    (∀ p ∈ pre, p.1 < c.1) ∧ ∀ p ∈ post, c.1 < p.1 := by
  have hsorted := points.sorted
  rw [hsplit, pairwise_append, pairwise_cons] at hsorted
  exact ⟨fun p hp => hsorted.2.2 p hp c mem_cons_self, hsorted.2.1.1⟩

/-- From the first conflict on, the loop ends with it or throws. -/
theorem foldlM_conflict {db : BlockchainDB} (h : IsAhead db node)
    (hsplit : points.points = pre ++ c :: post) (hconflict : db.Conflict ce.toEnv c)
    (hlarge : 2 ≤ c.1.toNat) (hlow : c.1.toNat < node.bc.db.height) :
    (c.1.toNat = 2 ∧
      (c :: post).foldlM (Node.checkAgainstPoint ce points true db.height) node = none) ∨
    ∃ node', IsBelow db node' ∧ node'.bc.db.height = c.1.toNat - 2 ∧
      (c :: post).foldlM (Node.checkAgainstPoint ce points true db.height) node =
        if ∀ p ∈ post, db.height ≤ p.1.toNat then some node' else none := by
  have hmem : c ∈ points.points := hsplit ▸ mem_append_right _ mem_cons_self
  have hr := toNat_sub_two c.1
  rw [if_neg (not_lt.mpr hlarge)] at hr
  rw [foldlM_cons, checkAgainstPoint_of_conflict h.toIsBelow hmem hconflict hlow, hr]
  by_cases htwo : c.1.toNat = 2
  · refine .inl ⟨htwo, ?_⟩
    rw [htwo, rollback_zero_eq_none h.pos]
    rfl
  · obtain ⟨node', hroll, hbelow, hheight⟩ := h.toIsBelow.rollback ce
      (r := c.1.toNat - 2) (by omega)
    have hheight' : node'.bc.db.height = c.1.toNat - 2 := by omega
    refine .inr ⟨node', hbelow, hheight', ?_⟩
    rw [hroll]
    refine foldlM_above fun p hp => ?_
    have hlt := UInt64.lt_iff_toNat_lt.mp ((Checkpoints.lt_of_split hsplit).2 p hp)
    show node'.bc.db.height ≤ p.1.toNat
    omega

/-- If the chain meets the checkpoints, they were enforceable. -/
theorem enforceable_of_meets (hpos : 1 ≤ node.bc.db.height)
    (hrun : node.checkAgainstCheckpoints ce points true = some node')
    (hmeets : points.Meets ce.toEnv node'.bc.db) : points.Enforceable ce.toEnv node.bc.db := by
  unfold Node.checkAgainstCheckpoints at hrun
  cases hfind : points.points.find? fun p =>
      decide (2 ≤ p.1.toNat ∧ node.bc.db.Conflict ce.toEnv p) with
  | none =>
    -- Nothing is rolled back that the heights 0 and 1 are part of.
    have hquiet : ∀ p ∈ points.points, 2 ≤ p.1.toNat → ¬node.bc.db.Conflict ce.toEnv p := by
      intro p hp
      simpa using find?_eq_none.mp hfind p hp
    have h := (isAhead_self hpos).foldlM (fun p hp => hp) hquiet hrun
    left
    intro p hp hconflict
    have hhigh := h.not_conflict_of_meets hmeets hp hconflict
    have hsmall : p.1.toNat < 2 := by
      by_contra hlarge
      exact hquiet p hp (not_lt.mp hlarge) hconflict
    have hbound := h.high
    have hlt := hconflict.1
    omega
  | some c =>
    obtain ⟨hc, pre, post, hsplit, hpre⟩ := find?_eq_some_iff_append.mp hfind
    obtain ⟨hlarge, hconflict⟩ := of_decide_eq_true hc
    have hquiet : ∀ p ∈ pre, 2 ≤ p.1.toNat → ¬node.bc.db.Conflict ce.toEnv p := by
      intro p hp hlarge
      have hnot : p.1.toNat < 2 ∨ ¬node.bc.db.Conflict ce.toEnv p := by simpa using hpre p hp
      exact hnot.resolve_left (not_lt.mpr hlarge)
    have hmem : ∀ p ∈ pre, p ∈ points.points := fun p hp => hsplit ▸ mem_append_left _ hp
    have hcmem : c ∈ points.points := hsplit ▸ mem_append_right _ mem_cons_self
    obtain ⟨hbefore, hafter⟩ := Checkpoints.lt_of_split hsplit
    rw [hsplit, foldlM_append] at hrun
    obtain ⟨node₁, hrun₁, hrest⟩ := Option.bind_eq_some_iff.mp hrun
    have h₁ := (isAhead_self hpos).foldlM hmem hquiet hrun₁
    have hlow : c.1.toNat < node₁.bc.db.height := by
      by_contra hhigh
      rw [foldlM_cons, checkAgainstPoint_eq_none hconflict.1 (not_lt.mp hhigh)] at hrest
      cases hrest
    rcases foldlM_conflict h₁ hsplit hconflict hlarge hlow with ⟨-, hnone⟩ |
      ⟨node₂, hbelow, hheight, hcases⟩
    · cases hrest.symm.trans hnone
    · rw [hcases] at hrest
      split_ifs at hrest with hpost
      cases hrest
      right
      have hheight_pos := hbelow.pos
      refine ⟨c, hcmem, hconflict, by omega, ?_, ?_⟩
      · intro p hp hlt
        rw [hsplit] at hp
        rcases mem_append.mp hp with hp | hp
        · exact absurd (hbefore p hp) (UInt64.not_lt.mpr (UInt64.le_of_lt hlt))
        · rcases mem_cons.mp hp with rfl | hp
          · exact absurd hlt (UInt64.lt_irrefl _)
          · exact hpost p hp
      · intro p hp hlt hpconflict
        have hhigh := hbelow.not_conflict_of_meets hmeets hp hpconflict
        have hsmall : p.1.toNat < 2 := by
          by_contra hlargep
          rw [hsplit] at hp
          rcases mem_append.mp hp with hp | hp
          · exact hquiet p hp (not_lt.mp hlargep) hpconflict
          · rcases mem_cons.mp hp with rfl | hp
            · exact UInt64.lt_irrefl _ hlt
            · exact UInt64.lt_irrefl _ (UInt64.lt_trans hlt (hafter p hp))
        omega

/-- Enforceable checkpoints are met. -/
theorem meets_of_enforceable (hpos : 1 ≤ node.bc.db.height)
    (h : points.Enforceable ce.toEnv node.bc.db) :
    ∃ node', node.checkAgainstCheckpoints ce points true = some node' ∧
      points.Meets ce.toEnv node'.bc.db := by
  unfold Node.checkAgainstCheckpoints
  have hself := isAhead_self hpos
  rcases h with hnone | ⟨c, hcmem, hconflict, hlarge, hlast, hother⟩
  · refine ⟨node, foldlM_of_not_conflict hself.toIsBelow (fun p hp => hp) hnone, ?_⟩
    intro p hp hlt
    by_contra hne
    exact hnone p hp ⟨hlt, hne⟩
  · obtain ⟨pre, post, hsplit⟩ := append_of_mem hcmem
    obtain ⟨hbefore, hafter⟩ := Checkpoints.lt_of_split hsplit
    have hmem : ∀ p ∈ pre, p ∈ points.points := fun p hp => hsplit ▸ mem_append_left _ hp
    have hpost : ∀ p ∈ post, node.bc.db.height ≤ p.1.toNat := fun p hp =>
      hlast p (hsplit ▸ mem_append_right _ (mem_cons_of_mem _ hp)) (hafter p hp)
    -- The checkpoints before the conflict leave the chain above it.
    obtain ⟨node₁, hrun₁, h₁, hlow⟩ : ∃ node₁,
        pre.foldlM (Node.checkAgainstPoint ce points true node.bc.db.height) node = some node₁ ∧
          IsAhead node.bc.db node₁ ∧ c.1.toNat < node₁.bc.db.height := by
      by_cases hquiet : ∀ p ∈ pre, ¬node.bc.db.Conflict ce.toEnv p
      · exact ⟨node, foldlM_of_not_conflict hself.toIsBelow hmem hquiet, hself, hconflict.1⟩
      · simp only [not_forall, not_not] at hquiet
        obtain ⟨q, hq, hqconflict⟩ := hquiet
        have hthree := (hother q (hmem q hq) (hbefore q hq) hqconflict).2
        have hquiet : ∀ p ∈ pre, 2 ≤ p.1.toNat → ¬node.bc.db.Conflict ce.toEnv p := by
          intro p hp hge hpconflict
          have hone := (hother p (hmem p hp) (hbefore p hp) hpconflict).1
          omega
        have hsmall : ∀ p ∈ pre, p.1.toNat < 2 ^ 64 - 2 := by
          intro p hp
          have hlt := UInt64.lt_iff_toNat_lt.mp (hbefore p hp)
          omega
        obtain ⟨node₁, hrun₁⟩ := hself.exists_foldlM hmem hquiet hsmall
        have h₁ := hself.foldlM hmem hquiet hrun₁
        have hhigh := h₁.high
        have hlt := hconflict.1
        exact ⟨node₁, hrun₁, h₁, by omega⟩
    rcases foldlM_conflict h₁ hsplit hconflict (by omega) hlow with ⟨htwo, -⟩ |
      ⟨node₂, hbelow, hheight, hrun₂⟩
    · omega
    · rw [if_pos hpost] at hrun₂
      refine ⟨node₂, ?_, ?_⟩
      · rw [hsplit, foldlM_append, hrun₁]
        exact hrun₂
      · intro p hp hlt
        by_contra hne
        have hpconflict := ((hbelow.conflict_iff ce.toEnv).mp ⟨hlt, hne⟩).2
        have hltc : p.1 < c.1 := UInt64.lt_iff_toNat_lt.mpr (by omega)
        have hone := hother p hp hltc hpconflict
        omega

end Loop

/-- Enforcement ends without an exception and with a chain that meets every checkpoint below its
height exactly when the checkpoints are `Enforceable`. -/
theorem checkAgainstCheckpoints_meets_iff (ce : ChainEnv) (node : Node) (points : Checkpoints)
    (hpos : 1 ≤ node.bc.db.height) :
    (∃ node', node.checkAgainstCheckpoints ce points true = some node' ∧
        points.Meets ce.toEnv node'.bc.db) ↔
      points.Enforceable ce.toEnv node.bc.db :=
  ⟨fun ⟨_, hrun, hmeets⟩ => enforceable_of_meets hpos hrun hmeets, meets_of_enforceable hpos⟩

/-- The last of two checkpoints is in conflict with eight blocks whose ids are 1 to 8. -/
theorem checkAgainstCheckpoints_meets_iff_last :
    (∃ node', eightBlocks.checkAgainstCheckpoints paidEnv ⟨[(4, 5), (6, 99)], by decide⟩ true =
        some node' ∧
      Checkpoints.Meets paidEnv.toEnv node'.bc.db ⟨[(4, 5), (6, 99)], by decide⟩) ↔
      Checkpoints.Enforceable paidEnv.toEnv eightBlocks.bc.db ⟨[(4, 5), (6, 99)], by decide⟩ :=
  checkAgainstCheckpoints_meets_iff paidEnv eightBlocks _ (by decide)

/-- With a checkpoint above the one in conflict the loop throws, and with one in conflict at height
1 it leaves the chain as it is. -/
theorem checkpoints_not_enforced :
    1 ≤ eightBlocks.bc.db.height ∧
    eightBlocks.checkAgainstCheckpoints paidEnv ⟨[(5, 99), (7, 8)], by decide⟩ true = none ∧
    ∃ node', eightBlocks.checkAgainstCheckpoints paidEnv ⟨[(1, 99)], by decide⟩ true = some node' ∧
      1 < node'.bc.db.height ∧ node'.bc.db.getBlockHashFromHeight paidEnv.toEnv 1 = some 2 := by
  refine ⟨by decide, ?_, eightBlocks, ?_, by decide, by decide⟩
  · have hnone : (eightBlocks.checkAgainstCheckpoints paidEnv
        ⟨[(5, 99), (7, 8)], by decide⟩ true).isNone = true := by decide
    exact Option.isNone_iff_eq_none.mp hnone
  · rfl

end Nerva
