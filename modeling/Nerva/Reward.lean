import Nerva.LongTerm
import Nerva.TxChecks

/-!
# Block weights and the block reward

The reward of a block falls as its weight passes the median weight of recent blocks. Validation
takes that of the last hundred blocks; everyone else takes half of the weight limit that
`update_next_cumulative_weight_limit` keeps. Weights are `ℕ`; the one product that wraps is reduced.
-/

namespace Nerva

def rewardBlocksWindow : ℕ := 100
def shortTermBlockWeightSurgeFactor : ℕ := 50
def moneySupply : UInt64 := 18446744073709551615
def emissionSpeedFactor : UInt64 := 18
def finalSubsidy : UInt64 := 300000000000
def premine : UInt64 := 180000000000000000
def minedMoneyUnlockWindow : ℕ := 10
def minedMoneyUnlockWindowV6 : ℕ := 20

def getMinBlockWeight (_version : ℕ) : ℕ := blockGrantedFullRewardZone

/-- `epee::misc_utils::median` over weights. -/
def medianWeight (v : List ℕ) : ℕ :=
  if v.length ≤ 1 then v.headD 0
  else
    let sorted := v.insertionSort (· ≤ ·)
    let n := v.length / 2
    if v.length % 2 = 1 then sorted.getD n 0
    else (sorted.getD (n - 1) 0 + sorted.getD n 0) / 2

def baseReward (alreadyGeneratedCoins : UInt64) : UInt64 :=
  let emitted := (moneySupply - alreadyGeneratedCoins) >>> emissionSpeedFactor
  if emitted < finalSubsidy then finalSubsidy else emitted

/-- The reward of a block heavier than the median: `base * (2m - w) * w / m / m` in 128 bits, where
`(2m - w) * w` has wrapped to 64. -/
def penalisedReward (base : UInt64) (medianWeight currentBlockWeight : ℕ) : UInt64 :=
  let multiplicand := (2 * medianWeight - currentBlockWeight) * currentBlockWeight % UInt64.size
  UInt64.ofNat (base.toNat * multiplicand / medianWeight / medianWeight)

def getBlockReward (medianWeight currentBlockWeight : ℕ) (alreadyGeneratedCoins : UInt64)
    (version : ℕ) : Option UInt64 :=
  if 0 < medianWeight ∧ alreadyGeneratedCoins < premine then some premine
  else
    let base := baseReward alreadyGeneratedCoins
    let fullRewardZone := getMinBlockWeight version
    let medianWeight := if medianWeight < fullRewardZone then fullRewardZone else medianWeight
    if currentBlockWeight ≤ medianWeight then some base
    else if 2 * medianWeight < currentBlockWeight then none
    else some (penalisedReward base medianWeight currentBlockWeight)

def computeGeneratedCoins (blockReward prevGeneratedCoins : UInt64) : UInt64 :=
  if blockReward < moneySupply - prevGeneratedCoins then prevGeneratedCoins + blockReward
  else moneySupply

namespace BlockchainDB

def lastNBlocksWeights (db : BlockchainDB) (count : ℕ) : List ℕ :=
  (db.range (db.height - min db.height count) db.height).map (·.blockWeight)

def shortTermMedian (db : BlockchainDB) : ℕ :=
  medianWeight (db.lastNBlocksWeights rewardBlocksWindow)

def generatedCoins (db : BlockchainDB) : UInt64 :=
  (db.blocks.getLast?.map (·.alreadyGeneratedCoins)).getD 0

end BlockchainDB

namespace Blockchain

variable (bc : Blockchain)

/-- None is the exception of `get_long_term_block_weight_median`, which an empty chain gets. -/
def getNextLongTermBlockWeight (blockWeight : ℕ) : Option LongTermCache.NextWeight :=
  bc.longTermCache.getNextLongTermBlockWeight bc blockWeight

/-- The median that `get_next_long_term_block_weight` passes on and the cache it leaves. The weight
of the block has no part in either. -/
def nextLongTermMedian : Option ℕ × LongTermCache :=
  match bc.getNextLongTermBlockWeight 0 with
  | none => (none, bc.longTermCache)
  | some next => (next.longTermMedian, next.cache)

def cumulWeightMedian : ℕ :=
  let version := bc.getCurrentHardForkVersion
  let fullRewardZone := getMinBlockWeight version
  let median :=
    if version < hfVersionLongTermBlockWeight then bc.db.shortTermMedian
    else min (max blockGrantedFullRewardZone bc.db.shortTermMedian)
      (shortTermBlockWeightSurgeFactor * bc.longTermEffectiveMedianBlockWeight)
  if median ≤ fullRewardZone then fullRewardZone else median

def setCumulWeightLimit : Blockchain :=
  { bc with
    currentBlockCumulWeightMedian := bc.cumulWeightMedian
    currentBlockCumulWeightLimit := bc.cumulWeightMedian * 2 }

/-- `update_next_cumulative_weight_limit`. In the middle of a batch the limit is left stale. Only an
empty chain makes the long-term part throw. -/
def updateNextCumulativeWeightLimit (precomputedLongTermMedian : Option ℕ) (midBatch : Bool) :
    Blockchain :=
  if bc.getCurrentHardForkVersion < hfVersionLongTermBlockWeight then bc.setCumulWeightLimit
  else
    match bc.longTermCache.updateLongTerm bc precomputedLongTermMedian with
    | none => bc
    | some u =>
      let bc := { bc with
        longTermCache := u.cache
        longTermEffectiveMedianBlockWeight := u.longTermEffectiveMedian }
      if midBatch then bc else bc.setCumulWeightLimit

end Blockchain

def coinbaseUnlockWindow (version : ℕ) : ℕ :=
  if 6 ≤ version then minedMoneyUnlockWindowV6 else minedMoneyUnlockWindow

def prevalidateMinerTransaction (b : Block) (height : ℕ) : Bool :=
  match b.minerTx.vin with
  | [.gen h] =>
    h = height &&
    b.minerTx.unlockTime = UInt64.ofNat (height + coinbaseUnlockWindow b.majorVersion) &&
    checkOutsOverflow b.minerTx
  | _ => false

def Transaction.moneyOut (tx : Transaction) : UInt64 :=
  tx.vout.foldl (fun money o => money + o.amount) 0

def Blockchain.validateMinerTransaction (bc : Blockchain) (b : Block) (cumulativeBlockSize : ℕ)
    (fee alreadyGeneratedCoins : UInt64) (version : ℕ) : Option UInt64 :=
  if b.minerTx.vout = [] then none
  else
    match getBlockReward bc.db.shortTermMedian cumulativeBlockSize alreadyGeneratedCoins
        version with
    | none => none
    | some reward =>
      if reward + fee ≠ b.minerTx.moneyOut ∧ 0 < alreadyGeneratedCoins then none else some reward

end Nerva
