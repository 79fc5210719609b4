import Mathlib.Algebra.Ring.Nat
import Nerva.Basic

/-!
# Pruning stripes

A pruned node keeps the prunable data of one stripe in eight, besides that of the last blocks. Its
seed names the stripe.
-/

namespace Nerva

def cryptonotePruningStripeSize : ℕ := 4096
def cryptonotePruningLogStripes : ℕ := 3
def cryptonotePruningTipBlocks : ℕ := 5500

def pruningSeedLogStripesShift : UInt32 := 7
def pruningSeedLogStripesMask : UInt32 := 7
def pruningSeedStripeMask : UInt32 := 127

def getPruningLogStripes (pruningSeed : UInt32) : ℕ :=
  ((pruningSeed >>> pruningSeedLogStripesShift) &&& pruningSeedLogStripesMask).toNat

def getPruningStripe (pruningSeed : UInt32) : ℕ :=
  if pruningSeed = 0 then 0 else 1 + (pruningSeed &&& pruningSeedStripeMask).toNat

/-- `get_pruning_stripe` of a block; 0 for the blocks that every node keeps. -/
def getBlockPruningStripe (blockHeight blockchainHeight logStripes : ℕ) : ℕ :=
  if blockchainHeight ≤ blockHeight + cryptonotePruningTipBlocks then 0
  else blockHeight / cryptonotePruningStripeSize % 2 ^ logStripes + 1

def hasUnprunedBlock (blockHeight blockchainHeight : ℕ) (pruningSeed : UInt32) : Bool :=
  let stripe := getPruningStripe pruningSeed
  if stripe = 0 then true
  else
    let blockStripe :=
      getBlockPruningStripe blockHeight blockchainHeight (getPruningLogStripes pruningSeed)
    blockStripe = 0 || blockStripe = stripe

/-- `get_next_unpruned_block_height`. Where an assertion fails it returns `block_height`. -/
def getNextUnprunedBlockHeight (blockHeight blockchainHeight : ℕ) (pruningSeed : UInt32) : ℕ :=
  let stripe := getPruningStripe pruningSeed
  if cryptonoteMaxBlockNumber + 1 < blockHeight ∨
      cryptonoteMaxBlockNumber + 1 < blockchainHeight then
    blockHeight
  else if stripe = 0 ∨ blockchainHeight ≤ blockHeight + cryptonotePruningTipBlocks then blockHeight
  else
    let seedLogStripes := getPruningLogStripes pruningSeed
    let logStripes := if seedLogStripes = 0 then cryptonotePruningLogStripes else seedLogStripes
    let blockPruningStripe := blockHeight / cryptonotePruningStripeSize % 2 ^ logStripes + 1
    if blockPruningStripe = stripe then blockHeight
    else
      let cycles := blockHeight / cryptonotePruningStripeSize / 2 ^ logStripes
      let cycleStart := cycles + if blockPruningStripe < stripe then 0 else 1
      let h := cycleStart * (cryptonotePruningStripeSize * 2 ^ logStripes) +
        (stripe - 1) * cryptonotePruningStripeSize
      if blockchainHeight < h + cryptonotePruningTipBlocks then
        blockchainHeight - cryptonotePruningTipBlocks
      else if h < blockHeight then blockHeight
      else h

end Nerva
