import Nerva.Proofs.LongTerm
import Nerva.Proofs.Mining

/-!
# The weight limit that is advertised and the one that is enforced

From version 12 on `update_next_cumulative_weight_limit` caps the median of the last hundred blocks
by the long-term one, and `validate_miner_transaction` does not. A block that passes validation is
within the limit exactly when the cap does not bind, whatever the cache has made of the long-term
median.
-/

namespace Nerva

open List

/-- Every block that is accepted on top of this chain is within the limit that
`update_next_cumulative_weight_limit` computed when it was called with this cache and median. -/
def Blockchain.LimitEnforced (bc : Blockchain) (pre : Option ℕ) : Prop :=
  ∀ (ce : ChainEnv) (node : Node) (b : Block) (node' : Node) (info : BlockInfo),
    node.bc.db = bc.db → node.bc.hardfork = bc.hardfork →
    node.handleBlockToMainChain ce b = (.ok (), node') →
    node'.bc.db.blocks = bc.db.blocks ++ [info] →
    info.blockWeight ≤ (bc.updateNextCumulativeWeightLimit pre false).currentBlockCumulWeightLimit

/-- The long-term effective median that the call computes. -/
def Blockchain.nextEffectiveMedian (bc : Blockchain) (pre : Option ℕ) : ℕ :=
  (bc.updateNextCumulativeWeightLimit pre false).longTermEffectiveMedianBlockWeight

/-- The premine is mined, or the median is zero and not looked at, and the cap does not bind. -/
def Blockchain.CapLoose (bc : Blockchain) (pre : Option ℕ) : Prop :=
  (bc.db.generatedCoins < premine → bc.db.shortTermMedian = 0) ∧
    bc.db.shortTermMedian ≤ shortTermBlockWeightSurgeFactor * bc.nextEffectiveMedian pre

section Limit

variable {bc : Blockchain} {w : ℕ} {reward : UInt64} {b : Block} {ce : ChainEnv} {info : BlockInfo}
  {node node' : Node}

/-- Which weights get a reward. -/
theorem getBlockReward_isSome_iff (m w version : ℕ) (coins : UInt64) :
    (∃ r, getBlockReward m w coins version = some r) ↔
      (0 < m ∧ coins < premine) ∨ w ≤ 2 * max blockGrantedFullRewardZone m := by
  by_cases hpremine : 0 < m ∧ coins < premine
  · simp [getBlockReward_premine hpremine.1 hpremine.2, hpremine]
  · rw [getBlockReward_of_not_due hpremine, or_iff_right hpremine]
    split_ifs with hlight hheavy
    · exact iff_of_true ⟨_, rfl⟩ (by omega)
    · exact iff_of_false (by simp) (by omega)
    · exact iff_of_true ⟨_, rfl⟩ (by omega)

section

variable (hgenesis : 0 < bc.db.height)
  (hversion : hfVersionLongTermBlockWeight ≤ bc.getCurrentHardForkVersion) (pre : Option ℕ)

include hgenesis hversion

theorem le_nextEffectiveMedian : blockGrantedFullRewardZone ≤ bc.nextEffectiveMedian pre := by
  refine (updateNextCumulativeWeightLimit_upToDate hgenesis pre).2 ?_
  unfold Blockchain.getCurrentHardForkVersion
  rw [updateNextCumulativeWeightLimit_hardfork]
  exact hversion

/-- The limit, by the two medians. -/
theorem limit_eq :
    (bc.updateNextCumulativeWeightLimit pre false).currentBlockCumulWeightLimit =
      2 * min (max blockGrantedFullRewardZone bc.db.shortTermMedian)
        (shortTermBlockWeightSurgeFactor * bc.nextEffectiveMedian pre) := by
  have hzone := le_nextEffectiveMedian hgenesis hversion pre
  have hfactor : shortTermBlockWeightSurgeFactor = 50 := rfl
  obtain ⟨hlimit, hok⟩ := updateNextCumulativeWeightLimit_upToDate hgenesis pre
  have hmedian := Blockchain.cumulWeightMedian_eq hok
  have hsame : (bc.updateNextCumulativeWeightLimit pre false).getCurrentHardForkVersion =
      bc.getCurrentHardForkVersion := by
    unfold Blockchain.getCurrentHardForkVersion
    rw [updateNextCumulativeWeightLimit_hardfork]
  rw [hsame, updateNextCumulativeWeightLimit_db, ← Blockchain.nextEffectiveMedian, hfactor]
    at hmedian
  rw [hfactor, hlimit]
  split_ifs at hmedian with h
  · omega
  · omega

/-- All weights that get a reward are within the limit exactly when the cap is loose. -/
theorem rewarded_le_limit_iff :
    (∀ w, (∃ r, getBlockReward bc.db.shortTermMedian w bc.db.generatedCoins
        bc.getCurrentHardForkVersion = some r) →
      w ≤ (bc.updateNextCumulativeWeightLimit pre false).currentBlockCumulWeightLimit) ↔
    bc.CapLoose pre := by
  have hzone := le_nextEffectiveMedian hgenesis hversion pre
  have hfactor : shortTermBlockWeightSurgeFactor = 50 := rfl
  simp only [getBlockReward_isSome_iff, limit_eq hgenesis hversion, Blockchain.CapLoose, hfactor]
  constructor
  · intro h
    refine ⟨fun hcoins => ?_, ?_⟩
    · by_contra hne
      have := h (2 * max blockGrantedFullRewardZone bc.db.shortTermMedian + 1)
        (.inl ⟨by omega, hcoins⟩)
      omega
    · have := h (2 * max blockGrantedFullRewardZone bc.db.shortTermMedian) (.inr le_rfl)
      omega
  · rintro ⟨hpremine, hcap⟩ w (⟨hpos, hcoins⟩ | hw)
    · have := hpremine hcoins
      omega
    · omega

end

theorem reward_of_validated {size version : ℕ} {fee coins : UInt64}
    (h : bc.validateMinerTransaction b size fee coins version = some reward) :
    getBlockReward bc.db.shortTermMedian size coins version = some reward := by
  unfold Blockchain.validateMinerTransaction at h
  cases hreward : getBlockReward bc.db.shortTermMedian size coins version with
  | none => simp [hreward] at h
  | some r =>
    simp only [hreward] at h
    split_ifs at h
    exact h

theorem Accepted.rewarded (h : Accepted ce node b info node') :
    ∃ r, getBlockReward node.bc.db.shortTermMedian info.blockWeight node.bc.db.generatedCoins
        node.bc.getCurrentHardForkVersion = some r ∧
      info.alreadyGeneratedCoins = computeGeneratedCoins r node.bc.db.generatedCoins := by
  obtain ⟨cache, hcache⟩ := getDifficultyForNextBlock_snd ce.toEnv ce.fns node.bc
  obtain ⟨es, -, hstores⟩ := h.stores
  obtain ⟨r, next, hpaid, -, rfl⟩ := hstores.paid
  rw [hcache] at hpaid ⊢
  refine ⟨r, reward_of_validated hpaid, ?_⟩
  simp only []

theorem Accepted.blockWeight_of_empty (h : Accepted ce node b info node')
    (hempty : b.txHashes = []) :
    info.blockWeight = ce.txWeight b.minerTx := by
  obtain ⟨es, -, hstores⟩ := h.stores
  obtain rfl : es = [] := map_eq_nil_iff.mp (hstores.ids.symm.trans hempty)
  obtain ⟨r, next, -, -, rfl⟩ := hstores.paid
  rfl

def plainBlock (bc : Blockchain) (reward : UInt64) : Block where
  majorVersion := bc.getCurrentHardForkVersion
  minorVersion := bc.getCurrentHardForkVersion
  timestamp := 18446744073709551615
  prevId := bc.difficultyCache.difficultyForNextBlockTopHash + 1
  nonce := 0
  minerTx :=
    { version := 2
      unlockTime := UInt64.ofNat (bc.db.height + coinbaseUnlockWindow bc.getCurrentHardForkVersion)
      vin := [.gen bc.db.height]
      vout := [⟨reward, .toKey 0⟩]
      extra := []
      rctSignatures := ⟨.null, 0, [], [], [], []⟩
      pruned := false }
  txHashes := []

def lateClock (version : ℕ) : UInt64 := 18446744073709551615 - futureTimeLimit version

def plainEnv (bc : Blockchain) (w : ℕ) : ChainEnv :=
  (plainMiner bc (lateClock bc.getCurrentHardForkVersion) w).toChainEnv

theorem checkBlockTimestamp_latest (env : Env)
    (hnow : env.now = lateClock bc.getCurrentHardForkVersion)
    (hlatest : b.timestamp = 18446744073709551615) : bc.checkBlockTimestamp env b = true := by
  have hnot : ∀ t : UInt64, ¬18446744073709551615 < t := fun t => by
    rw [UInt64.lt_iff_toNat_lt]
    have := t.toNat_lt
    simp only [UInt64.reduceToNat]
    omega
  have hfuture : env.now + futureTimeLimit bc.getCurrentHardForkVersion = 18446744073709551615 := by
    rw [hnow]
    exact UInt64.sub_add_cancel _ _
  unfold Blockchain.checkBlockTimestamp
  simp only [hfuture]
  rw [if_neg (hnot _)]
  split_ifs
  · rfl
  · unfold checkTimestamps
    simp only [hlatest]
    rw [if_neg (fun h => hnot _ h.2)]
    exact decide_eq_true (hnot _)

/-- A weight that gets a reward is that of some accepted block. -/
theorem exists_accepted_of_rewarded (hgenesis : 0 < bc.db.height)
    (hversion : 0 < bc.getCurrentHardForkVersion)
    (hreward : getBlockReward bc.db.shortTermMedian w bc.db.generatedCoins
      bc.getCurrentHardForkVersion = some reward) :
    ∃ ce node b info node',
      node.bc = bc ∧ Accepted ce node b info node' ∧ info.blockWeight = w := by
  have hlinks : bc.checkBlockLinks (plainEnv bc w).toEnv (plainBlock bc reward) = .ok () := by
    simp only [Blockchain.checkBlockLinks, Checks.bind_eq_ok, Checks.exists_unit,
      Checks.require_eq_ok]
    refine ⟨?_, ?_, checkBlockTimestamp_latest _ rfl rfl⟩
    · unfold BlockchainDB.topBlockHash
      rw [getLast?_eq_some_getLast (length_pos_iff.mp hgenesis)]
      rfl
    · have hvote : (plainBlock bc reward).vote = bc.hardfork.getCurrentVersion :=
        if_neg (Nat.ne_of_gt hversion)
      unfold HardFork.check HardFork.doCheck
      rw [hvote]
      simp [plainBlock, Blockchain.getCurrentHardForkVersion]
  have hdiffic := plainMiner_diffic_ne hgenesis (lateClock bc.getCurrentHardForkVersion) w
  obtain ⟨cache, hcache⟩ :=
    getDifficultyForNextBlock_snd (plainEnv bc w).toEnv (plainEnv bc w).fns bc
  have hwork : { bc with difficultyCache := cache }.checkBlockWork (plainEnv bc w)
      (plainBlock bc reward)
      (getDifficultyForNextBlock (plainEnv bc w).toEnv (plainEnv bc w).fns bc).1 = .ok () := by
    simp only [Blockchain.checkBlockWork, Checks.bind_eq_ok, Checks.exists_unit,
      Checks.require_eq_ok]
    exact ⟨hdiffic, rfl, rfl, prevalidateMinerTransaction_of_singleton rfl rfl rfl⟩
  have haccepts : { bc with difficultyCache := cache }.AcceptsReward
      ((plainEnv bc w).txWeight (plainBlock bc reward).minerTx + weightsOf []) reward :=
    ⟨reward, hreward, .inl rfl⟩
  have htake : ∃ r, takeBlockTxs (plainEnv bc w) { bc with difficultyCache := cache }
      (getDifficultyForNextBlock (plainEnv bc w).toEnv (plainEnv bc w).fns bc).1 {}
      (plainBlock bc reward) = .ok r := by
    have hids : (plainBlock bc reward).txHashes = ([] : List PoolTx).map (·.id) := rfl
    have hpos : 0 < { bc with difficultyCache := cache }.db.height := hgenesis
    rw [takeBlockTxs_isOk_iff hpos hids (forall_mem_nil _) (forall_mem_nil _) nodup_nil
      (forall_mem_nil _) rfl]
    exact (validateMinerTransaction_isSome_iff rfl (UInt64.add_zero reward).symm).mpr haccepts
  rw [← hcache] at hwork htake
  have hok : (Node.handleBlockToMainChain (plainEnv bc w) { bc, pool := {} }
      (plainBlock bc reward)).1 = .ok () :=
    handleBlockToMainChain_ok_iff.mpr ⟨hlinks, hwork, htake⟩
  obtain ⟨info, haccepted⟩ := exists_accepted (Prod.ext hok rfl)
  exact ⟨plainEnv bc w, _, _, info, _, rfl, haccepted, haccepted.blockWeight_of_empty rfl⟩

/-- From version 12 on, every accepted block is within the limit exactly when the median of the last
blocks is within the surge factor of the long-term one and the premine is mined. -/
theorem limitEnforced_iff (bc : Blockchain) (pre : Option ℕ) (hgenesis : 0 < bc.db.height)
    (hversion : hfVersionLongTermBlockWeight ≤ bc.getCurrentHardForkVersion) :
    bc.LimitEnforced pre ↔ bc.CapLoose pre := by
  have hpos : 0 < bc.getCurrentHardForkVersion := Nat.lt_of_lt_of_le (by decide) hversion
  rw [← rewarded_le_limit_iff hgenesis hversion]
  constructor
  · rintro h w ⟨reward, hreward⟩
    obtain ⟨ce, node, b, info, node', hbc, haccepted, hw⟩ :=
      exists_accepted_of_rewarded hgenesis hpos hreward
    rw [← hw]
    exact h ce node b node' info (by rw [hbc]) (by rw [hbc]) haccepted.eq
      (by rw [haccepted.blocks, hbc])
  · intro h ce node b node' info hdb hhf hhandle hblocks
    obtain ⟨stored, haccepted⟩ := exists_accepted hhandle
    rw [← hdb] at hblocks
    obtain rfl : stored = info :=
      singleton_inj.mp (append_cancel_left (haccepted.blocks.symm.trans hblocks))
    obtain ⟨r, hreward, -⟩ := haccepted.rewarded
    unfold Blockchain.getCurrentHardForkVersion at h hreward
    rw [hdb, hhf] at hreward
    exact h stored.blockWeight ⟨r, hreward⟩

end Limit

/-- After a restart the median comes from the stored weights. -/
theorem nextEffectiveMedian_restarted {bc : Blockchain} (data : ℕ → ℕ)
    (hcache : bc.longTermCache = .create data) (hgenesis : 0 < bc.db.height)
    (hversion : hfVersionLongTermBlockWeight ≤ bc.getCurrentHardForkVersion) :
    bc.nextEffectiveMedian none = bc.longTermEffectiveMedian := by
  obtain ⟨u, hu, hexact, -⟩ := (LongTermCache.fits_create data bc _).update hgenesis
  rw [← hcache] at hu
  unfold Blockchain.nextEffectiveMedian
  rw [updateNextCumulativeWeightLimit_new false hversion hu]
  exact hexact.effective

/-- From version 12 on, fifty-one blocks of twice the full reward zone, then as many of twice that
weight, and so on. -/
def surgeWeight (height : ℕ) : ℕ :=
  if height < 700 then 80 else 600000 * 2 ^ ((height - 700) / 51)

def surgeInfo (height : ℕ) : BlockInfo :=
  { paidInfo height with
    blockWeight := surgeWeight height
    longTermBlockWeight := min (surgeWeight height) 420000 }

def surgeNode (height : ℕ) : Node := testnetNode ((List.range height).map surgeInfo)

theorem limitEnforced_iff_lightBlocks :
    (surgeNode 701).bc.LimitEnforced none ↔ (surgeNode 701).bc.CapLoose none :=
  limitEnforced_iff (surgeNode 701).bc none (by decide +kernel) (by decide +kernel)

def surgeBlock : Block :=
  paidBlock 1006 1006 1006 (penalisedReward (baseReward (minedCoins 1005)) 19200000 35000000) []

def surgeEnv : ChainEnv := { paidEnv with txWeight := fun _ => 35000000 }

set_option maxRecDepth 100000 in
/-- The limit is 30 MB, since the long-term median is still that of the first 700 blocks. -/
theorem surgeBlock_beyond_limit :
    hfVersionLongTermBlockWeight ≤ (surgeNode 1006).bc.getCurrentHardForkVersion ∧
    ¬(surgeNode 1006).bc.LimitEnforced none := by
  have hversion : hfVersionLongTermBlockWeight ≤ (surgeNode 1006).bc.getCurrentHardForkVersion := by
    decide
  refine ⟨hversion, fun h => ?_⟩
  have hok : ((surgeNode 1006).handleBlockToMainChain surgeEnv surgeBlock).1 = .ok () := by
    decide
  have heffective : (surgeNode 1006).bc.nextEffectiveMedian none = 300000 :=
    (nextEffectiveMedian_restarted (fun _ => 0) rfl (by decide) hversion).trans (by decide)
  have hgenesis : 0 < (surgeNode 1006).bc.db.height := by decide
  have hlimit := limit_eq hgenesis hversion none
  rw [heffective] at hlimit
  have hshort : (surgeNode 1006).bc.db.shortTermMedian = 19200000 := by decide
  obtain ⟨info, haccepted⟩ := exists_accepted (Prod.ext hok rfl)
  have hle := h surgeEnv (surgeNode 1006) surgeBlock _ info rfl rfl haccepted.eq haccepted.blocks
  have hweight : info.blockWeight = 35000000 := haccepted.blockWeight_of_empty rfl
  rw [hlimit, hshort, hweight] at hle
  exact absurd hle (by decide)

end Nerva
