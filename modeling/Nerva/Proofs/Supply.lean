import Nerva.Proofs.WeightLimit

/-!
# The coins generated along a chain

`already_generated_coins` of a block is that of the block below it plus the reward validation found,
stopped at `MONEY_SUPPLY`. Along a chain grown from genesis the arithmetic in 64 bits is exact.
-/

namespace Nerva

open List UInt64

/-- The reward of a block in exact arithmetic: the emission curve or the tail subsidy, whichever is
more, less the penalty for a block heavier than the median. -/
def exactReward (median weight coins : ℕ) : ℕ :=
  let base := max ((moneySupply.toNat - coins) / 262144) finalSubsidy.toNat
  let m := max blockGrantedFullRewardZone median
  if weight ≤ m then base else base * ((2 * m - weight) * weight) / m / m

section Reward

variable {m w version : ℕ} {coins reward : UInt64}

/-- The base reward, without wrapping. -/
theorem baseReward_toNat (coins : UInt64) :
    (baseReward coins).toNat =
      max ((moneySupply.toNat - coins.toNat) / 262144) finalSubsidy.toNat := by
  have hle : coins ≤ moneySupply := by
    exact Nat.le_of_lt_succ coins.toNat_lt
  have hshift : ((moneySupply - coins) >>> emissionSpeedFactor).toNat =
      (moneySupply.toNat - coins.toNat) / 262144 := by
    rw [UInt64.toNat_shiftRight, UInt64.toNat_sub_of_le _ _ hle, Nat.shiftRight_eq_div_pow]
    rfl
  unfold baseReward
  simp only []
  split_ifs with htail
  · rw [lt_iff_toNat_lt, hshift] at htail
    exact (Nat.max_eq_right (Nat.le_of_lt htail)).symm
  · rw [UInt64.not_lt, UInt64.le_iff_toNat_le, hshift] at htail
    rw [hshift]
    exact (Nat.max_eq_left htail).symm

/-- The penalty for a heavy block, without wrapping. -/
theorem penalisedReward_toNat {base : UInt64} (hm : m < UInt32.size) (hlt : m < w)
    (hle : w ≤ 2 * m) :
    (penalisedReward base m w).toNat = base.toNat * ((2 * m - w) * w) / m / m := by
  have hsquare := Nat.le_of_lt (penalty_lt hlt hle)
  have hsize : m * m < size := by
    have : m * m ≤ (UInt32.size - 1) * (UInt32.size - 1) := Nat.mul_le_mul (by omega) (by omega)
    exact Nat.lt_of_le_of_lt this (by decide)
  have hquot : base.toNat * ((2 * m - w) * w) / m / m < size := by
    rw [Nat.div_div_eq_div_mul]
    refine Nat.lt_of_le_of_lt (Nat.div_le_of_le_mul ?_) base.toNat_lt_size
    rw [Nat.mul_comm (m * m)]
    exact Nat.mul_le_mul_left _ hsquare
  unfold penalisedReward
  rw [Nat.mod_eq_of_lt (Nat.lt_of_le_of_lt hsquare hsize)]
  exact toNat_ofNat_of_lt' hquot

/-- The reward is exact when the premine is not due. -/
theorem getBlockReward_exact (hdue : ¬(0 < m ∧ coins < premine)) (hm : m < UInt32.size)
    (h : getBlockReward m w coins version = some reward) :
    reward.toNat = exactReward m w coins.toNat := by
  have hsmall : max blockGrantedFullRewardZone m < UInt32.size :=
    Nat.max_lt.mpr ⟨by decide, hm⟩
  rw [getBlockReward_of_not_due hdue] at h
  unfold exactReward
  simp only []
  rw [← baseReward_toNat]
  split_ifs at h ⊢ with hlight hheavy
  · rw [← Option.some.inj h]
  · rw [← Option.some.inj h]
    exact penalisedReward_toNat hsmall (by omega) (by omega)

/-- A block without penalty pays at least the final subsidy. -/
theorem finalSubsidy_le_reward (hw : w ≤ max blockGrantedFullRewardZone m)
    (h : getBlockReward m w coins version = some reward) : finalSubsidy ≤ reward := by
  by_cases hdue : 0 < m ∧ coins < premine
  · rw [getBlockReward_premine hdue.1 hdue.2] at h
    rw [← Option.some.inj h]
    decide
  · rw [getBlockReward_of_not_due hdue, if_pos hw] at h
    rw [← Option.some.inj h]
    exact finalSubsidy_le_baseReward coins

theorem computeGeneratedCoins_toNat (reward coins : UInt64) :
    (computeGeneratedCoins reward coins).toNat =
      min (coins.toNat + reward.toNat) moneySupply.toNat := by
  have hcoins : coins.toNat ≤ moneySupply.toNat := Nat.le_of_lt_succ coins.toNat_lt
  have hleft : (moneySupply - coins).toNat = moneySupply.toNat - coins.toNat :=
    UInt64.toNat_sub_of_le _ _ (UInt64.le_iff_toNat_le.mpr hcoins)
  have hsize : moneySupply.toNat < 18446744073709551616 := by decide
  unfold computeGeneratedCoins
  split_ifs with h
  · rw [lt_iff_toNat_lt] at h
    rw [UInt64.toNat_add]
    omega
  · rw [UInt64.not_lt, UInt64.le_iff_toNat_le] at h
    omega

end Reward

theorem getD_lt_of_forall {l : List ℕ} {n : ℕ} (hn : 0 < n) (h : ∀ w ∈ l, w < n) (i : ℕ) :
    l.getD i 0 < n := by
  rw [getD_eq_getElem?_getD]
  cases hi : l[i]? with
  | none => exact hn
  | some w => exact h w (mem_of_getElem? hi)

theorem medianWeight_lt {v : List ℕ} {n : ℕ} (hn : 0 < n) (h : ∀ w ∈ v, w < n) :
    medianWeight v < n := by
  have hsorted : ∀ i, (v.insertionSort (· ≤ ·)).getD i 0 < n := fun i =>
    getD_lt_of_forall hn (fun w hw => h w ((perm_insertionSort _ v).mem_iff.mp hw)) i
  unfold medianWeight
  split_ifs
  · cases v with
    | nil => exact hn
    | cons w _ => exact h w mem_cons_self
  · exact hsorted _
  · have h₁ := hsorted (v.length / 2 - 1)
    have h₂ := hsorted (v.length / 2)
    simp only []
    omega

def medianOnto (l : List BlockInfo) : ℕ := BlockchainDB.shortTermMedian { blocks := l }

/-- The coins generated by the end of the blocks. -/
def coinsOf (l : List BlockInfo) : UInt64 := BlockchainDB.generatedCoins { blocks := l }

theorem medianOnto_lt {l : List BlockInfo} {n : ℕ} (hn : 0 < n) (h : ∀ b ∈ l, b.blockWeight < n) :
    medianOnto l < n := by
  refine medianWeight_lt hn fun w hw => ?_
  obtain ⟨b, hb, rfl⟩ := mem_map.mp hw
  exact h b (mem_of_mem_take (mem_of_mem_drop hb))

theorem medianOnto_singleton (g : BlockInfo) : medianOnto [g] = g.blockWeight := rfl

@[simp] theorem coinsOf_concat (l : List BlockInfo) (info : BlockInfo) :
    coinsOf (l ++ [info]) = info.alreadyGeneratedCoins := by
  simp [coinsOf, BlockchainDB.generatedCoins]

/-- `l'` is `l` with one block that `handle_block_to_main_chain` accepted on top, whatever the pool,
the caches, the fork state and the clock were. -/
def AcceptedOnto (l l' : List BlockInfo) : Prop :=
  ∃ (ce : ChainEnv) (node : Node) (b : Block) (node' : Node),
    node.handleBlockToMainChain ce b = (.ok (), node') ∧ node.bc.db.blocks = l ∧
      node'.bc.db.blocks = l'

/-- A chain of blocks that were accepted one after another. -/
def Grown (l : List BlockInfo) : Prop := Relation.ReflTransGen AcceptedOnto [] l

/-- What a block adds to the supply. -/
structure Issued (below : List BlockInfo) (info : BlockInfo) (reward : UInt64) : Prop where
  mono : coinsOf below ≤ info.alreadyGeneratedCoins
  capped : info.alreadyGeneratedCoins ≤ moneySupply
  grown : info.alreadyGeneratedCoins.toNat =
    min ((coinsOf below).toNat + reward.toNat) moneySupply.toNat
  premined : below ≠ [] → coinsOf below < premine → reward = premine
  exact : below = [] ∨ premine ≤ coinsOf below →
    reward.toNat = exactReward (medianOnto below) info.blockWeight (coinsOf below).toNat
  tail : info.blockWeight ≤ max blockGrantedFullRewardZone (medianOnto below) →
    finalSubsidy ≤ reward

section Chain

variable {l l' below above : List BlockInfo} {info : BlockInfo}

theorem AcceptedOnto.eq_concat (h : AcceptedOnto l l') :
    ∃ info version reward, l' = l ++ [info] ∧
      getBlockReward (medianOnto l) info.blockWeight (coinsOf l) version = some reward ∧
      info.alreadyGeneratedCoins = computeGeneratedCoins reward (coinsOf l) := by
  obtain ⟨ce, node, b, node', hhandle, rfl, rfl⟩ := h
  obtain ⟨info, haccepted⟩ := exists_accepted hhandle
  obtain ⟨reward, hreward, hcoins⟩ := haccepted.rewarded
  exact ⟨info, _, reward, haccepted.blocks, hreward, hcoins⟩

/-- From the second block on the premine is out. -/
theorem Grown.short_or_premined (h : Grown l) (hgenesis : ∀ g ∈ l.head?, 0 < g.blockWeight) :
    l = [] ∨ (∃ g, l = [g]) ∨ premine ≤ coinsOf l := by
  induction h with
  | refl => exact .inl rfl
  | tail _ hstep ih =>
    obtain ⟨info, version, reward, rfl, hreward, hcoins⟩ := hstep.eq_concat
    have hle : ∀ a r : UInt64, premine ≤ a ∨ r = premine → premine ≤ computeGeneratedCoins r a := by
      intro a r har
      rw [le_iff_toNat_le, computeGeneratedCoins_toNat]
      have hp : premine.toNat ≤ moneySupply.toNat := by decide
      rcases har with ha | rfl
      · rw [le_iff_toNat_le] at ha
        omega
      · omega
    have hbelow := ih fun g hg => hgenesis g (by
      rw [head?_append, Option.mem_def.mp hg]
      rfl)
    rcases hbelow with rfl | ⟨g, rfl⟩ | hbelow
    · exact .inr (.inl ⟨info, rfl⟩)
    · refine .inr (.inr ?_)
      rw [coinsOf_concat, hcoins]
      by_cases hdue : coinsOf [g] < premine
      · rw [medianOnto_singleton, getBlockReward_premine (hgenesis g rfl) hdue] at hreward
        exact hle _ _ (.inr (Option.some.inj hreward).symm)
      · exact hle _ _ (.inl (UInt64.not_lt.mp hdue))
    · refine .inr (.inr ?_)
      rw [coinsOf_concat, hcoins]
      exact hle _ _ (.inl hbelow)

/-- A block onto a grown chain issues what it should. -/
theorem issued_of_reward {version : ℕ} {reward : UInt64} (hbelow : Grown below)
    (hgenesis : ∀ g ∈ below.head?, 0 < g.blockWeight)
    (hlight : ∀ b ∈ below, b.blockWeight < UInt32.size)
    (hreward : getBlockReward (medianOnto below) info.blockWeight (coinsOf below) version =
      some reward)
    (hcoins : info.alreadyGeneratedCoins = computeGeneratedCoins reward (coinsOf below)) :
    Issued below info reward := by
  have hgrown : info.alreadyGeneratedCoins.toNat =
      min ((coinsOf below).toNat + reward.toNat) moneySupply.toNat := by
    rw [hcoins, computeGeneratedCoins_toNat]
  have hsupply : (coinsOf below).toNat ≤ moneySupply.toNat :=
    Nat.le_of_lt_succ (coinsOf below).toNat_lt
  have hmedian : medianOnto below < UInt32.size := medianOnto_lt (by decide) hlight
  refine ⟨?_, ?_, hgrown, ?_, ?_, fun hw => finalSubsidy_le_reward hw hreward⟩
  · rw [le_iff_toNat_le]
    omega
  · rw [le_iff_toNat_le]
    omega
  · intro hne hdue
    rcases hbelow.short_or_premined hgenesis with rfl | ⟨g, rfl⟩ | hmuch
    · exact absurd rfl hne
    · rw [medianOnto_singleton, getBlockReward_premine (hgenesis g rfl) hdue] at hreward
      exact (Option.some.inj hreward).symm
    · exact absurd hmuch (UInt64.not_le.mpr hdue)
  · intro hcase
    refine getBlockReward_exact ?_ hmedian hreward
    rintro ⟨hpos, hdue⟩
    rcases hcase with rfl | hmuch
    · exact absurd hpos (by decide)
    · exact absurd hmuch (UInt64.not_le.mpr hdue)

/-- Along every chain accepted from genesis on, the generated coins never decrease, never pass the
supply and grow by the reward of validation, which is the exact one. -/
theorem grown_issued (hgrown : Grown l) (hgenesis : ∀ g ∈ l.head?, 0 < g.blockWeight)
    (hlight : ∀ b ∈ l, b.blockWeight < UInt32.size) (hsplit : l = below ++ info :: above) :
    ∃ version reward,
      getBlockReward (medianOnto below) info.blockWeight (coinsOf below) version = some reward ∧
        Issued below info reward := by
  induction hgrown generalizing above with
  | refl => simp at hsplit
  | tail hbelow hstep ih =>
    rename_i prior _
    obtain ⟨top, version, reward, rfl, hreward, hcoins⟩ := hstep.eq_concat
    have hgenesis' : ∀ g ∈ prior.head?, 0 < g.blockWeight := fun g hg => hgenesis g (by
      rw [head?_append, Option.mem_def.mp hg]
      rfl)
    have hlight' : ∀ b ∈ prior, b.blockWeight < UInt32.size := fun b hb =>
      hlight b (mem_append_left _ hb)
    -- either `info` is the block just added, or it lies below it
    rcases eq_nil_or_concat above with rfl | ⟨above, last, rfl⟩
    · obtain ⟨rfl, hinfo⟩ := append_inj' hsplit rfl
      obtain rfl := singleton_inj.mp hinfo
      exact ⟨version, reward, hreward,
        issued_of_reward hbelow hgenesis' hlight' hreward hcoins⟩
    · refine @ih above hgenesis' hlight' ?_
      rw [concat_eq_append, ← cons_append, ← append_assoc] at hsplit
      exact (append_inj' hsplit rfl).1

end Chain

def grownNode : ℕ → Node
  | 0 => testnetNode []
  | n + 1 => ((grownNode n).handleBlockToMainChain paidEnv (paidInfo n).bl).2

theorem grown_grownNode : ∀ n : ℕ,
    (∀ i < n, ((grownNode i).handleBlockToMainChain paidEnv (paidInfo i).bl).1 = .ok ()) →
    Grown (grownNode n).bc.db.blocks
  | 0, _ => .refl
  | n + 1, h =>
    (grown_grownNode n fun i hi => h i (Nat.lt_succ_of_lt hi)).tail
      ⟨paidEnv, grownNode n, (paidInfo n).bl, grownNode (n + 1),
        Prod.ext (h n (Nat.lt_succ_self n)) rfl, rfl, rfl⟩

/-- Genesis, the block with the premine and one on the emission curve. -/
theorem grown_issued_testnet :
    (grownNode 3).bc.db.blocks = [paidInfo 0, paidInfo 1] ++ paidInfo 2 :: [] ∧
    ∃ version reward,
      getBlockReward (medianOnto [paidInfo 0, paidInfo 1]) (paidInfo 2).blockWeight
          (coinsOf [paidInfo 0, paidInfo 1]) version = some reward ∧
        Issued [paidInfo 0, paidInfo 1] (paidInfo 2) reward :=
  have hblocks : (grownNode 3).bc.db.blocks = [paidInfo 0, paidInfo 1] ++ paidInfo 2 :: [] := by
    decide
  ⟨hblocks, grown_issued (grown_grownNode 3 (by decide)) (by decide) (by decide) hblocks⟩

end Nerva
