import Nerva.Difficulty

/-!
# The cache of long-term weights

`get_long_term_block_weight_median` keeps a rolling median over the long-term weights of the last
blocks, which it knows by the height of its newest entry alone. The weight of a block just added is
put in by hand.
-/

namespace Nerva

def blockGrantedFullRewardZone : ℕ := 300000

namespace BlockchainDB

def longTermBlockWeights (db : BlockchainDB) (start count : ℕ) : List ℕ :=
  (db.range start (start + count)).map (·.longTermBlockWeight)

def blockLongTermWeight (db : BlockchainDB) (height : ℕ) : ℕ :=
  ((db.blocks[height]?).map (·.longTermBlockWeight)).getD 0

end BlockchainDB

def shortTermConstraint (longTermEffectiveMedian : ℕ) : ℕ :=
  longTermEffectiveMedian + longTermEffectiveMedian * 2 / 5

namespace LongTermCache

variable (c : LongTermCache)

def getLongTermBlockWeightMedian (db : BlockchainDB) (startHeight count : ℕ) :
    Option (ℕ × LongTermCache) :=
  if count = 0 then none
  else
    let tipHeight := startHeight + count - 1
    let sameSize := decide (count = c.rollingMedian.size)
    if tipHeight < db.height && sameSize && decide (tipHeight = c.tipHeight) then
      some (c.rollingMedian.median, c)
    else if 0 < tipHeight && sameSize && decide (tipHeight < db.height) &&
        decide (tipHeight - 1 = c.tipHeight) then
      let rollingMedian := c.rollingMedian.insert (db.blockLongTermWeight tipHeight)
      some (rollingMedian.median, ⟨tipHeight, rollingMedian⟩)
    else
      let weights := db.longTermBlockWeights startHeight count
      let rollingMedian := weights.foldl RollingMedian.insert c.rollingMedian.clear
      some (rollingMedian.median, ⟨tipHeight, rollingMedian⟩)

structure NextWeight where
  longTermBlockWeight : ℕ
  longTermMedian : Option ℕ
  cache : LongTermCache

def getNextLongTermBlockWeight (bc : Blockchain) (blockWeight : ℕ) : Option NextWeight :=
  let nblocks := min longTermBlockWeightWindowSize bc.db.height
  if bc.getCurrentHardForkVersion < hfVersionLongTermBlockWeight then some ⟨blockWeight, none, c⟩
  else do
    let (longTermMedian, c) ← c.getLongTermBlockWeightMedian bc.db (bc.db.height - nblocks) nblocks
    let constraint := shortTermConstraint (max blockGrantedFullRewardZone longTermMedian)
    return ⟨min blockWeight constraint, some longTermMedian, c⟩

structure Updated where
  longTermMedian : ℕ
  longTermEffectiveMedian : ℕ
  cache : LongTermCache

def rangeBelowTop (height : ℕ) : ℕ × ℕ :=
  let nblocks := min longTermBlockWeightWindowSize height
  let nblocks := if nblocks = height then nblocks - 1 else nblocks
  (height - nblocks - 1, nblocks)

def medianBelowTop (bc : Blockchain) (precomputedLongTermMedian : Option ℕ) :
    Option (ℕ × LongTermCache) :=
  if bc.db.height = 1 then some (blockGrantedFullRewardZone, c)
  else
    match precomputedLongTermMedian with
    | some longTermMedian => some (longTermMedian, c)
    | none =>
      let range := rangeBelowTop bc.db.height
      c.getLongTermBlockWeightMedian bc.db range.1 range.2

/-- `update_next_cumulative_weight_limit` from version 12 on, as far as the long-term weights go. -/
def updateLongTerm (bc : Blockchain) (precomputedLongTermMedian : Option ℕ) :
    Option Updated := do
  let (longTermMedian, c) ← c.medianBelowTop bc precomputedLongTermMedian
  let blockWeight := (bc.db.blocks.getLast?.map (·.blockWeight)).getD 0
  let constraint := shortTermConstraint (max blockGrantedFullRewardZone longTermMedian)
  let longTermBlockWeight := min blockWeight constraint
  if bc.db.height = 1 then
    return ⟨longTermMedian, max blockGrantedFullRewardZone longTermBlockWeight, c⟩
  else
    let rollingMedian := c.rollingMedian.insert longTermBlockWeight
    return ⟨longTermMedian, max blockGrantedFullRewardZone rollingMedian.median,
      ⟨bc.db.height - 1, rollingMedian⟩⟩

end LongTermCache

end Nerva
