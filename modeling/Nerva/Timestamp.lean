import Nerva.Difficulty

/-!
# Block timestamps

The timestamp rule and its two callers: on the main chain `check_block_timestamp` reads the last
blocks of the database, on an alternative chain `build_alt_chain` collects the timestamps of the
alternative blocks and completes them from the main chain below.
-/

namespace Nerva

def timestampCheckWindow (version : ℕ) : ℕ := if version < 2 then 60 else 12

def futureTimeLimitV6 : UInt64 := 300

def futureTimeLimit (version : ℕ) : UInt64 :=
  if version < 2 then 7200 else if version < 6 then 1440 else futureTimeLimitV6

/-- `check_block_timestamp(timestamps, b)`. Computing the median has sorted the vector, so that its
last element is the largest. The subtraction wraps. -/
def checkTimestamps (version : ℕ) (timestamps : List UInt64) (b : Block) : Bool :=
  let topBlockTimestamp := (sortTimestamps timestamps).getLast?.getD b.timestamp
  if 5 < version ∧ b.timestamp < topBlockTimestamp - futureTimeLimitV6 then false
  else decide (¬b.timestamp < median timestamps)

def Blockchain.checkBlockTimestamp (env : Env) (bc : Blockchain) (b : Block) : Bool :=
  let version := bc.getCurrentHardForkVersion
  let window := timestampCheckWindow version
  let height := bc.db.height
  if env.now + futureTimeLimit version < b.timestamp then false
  else if height < window then true
  else checkTimestamps version ((bc.db.range (height - window) height).map (·.bl.timestamp)) b

namespace BlockchainDB

/-- The loop of `build_alt_chain` down the alternative blocks, the lowest one in front. No block is
met twice, so their number bounds the loop. -/
def walkAltBlocks (db : BlockchainDB) : ℕ → Hash → List AltBlock
  | 0, _ => []
  | fuel + 1, prevId =>
    match db.getAltBlock prevId with
    | none => []
    | some b => walkAltBlocks db fuel b.bl.prevId ++ [b]

end BlockchainDB

/-- `complete_timestamps_vector`: the timestamps of the main chain from `startTopHeight` down, as
many as the window lacks. Genesis is never reached. -/
def completeTimestampsVector (bc : Blockchain) (startTopHeight : ℕ) (timestamps : List UInt64) :
    List UInt64 :=
  let window := timestampCheckWindow bc.getCurrentHardForkVersion
  if window ≤ timestamps.length ∨ bc.db.height ≤ startTopHeight then timestamps
  else
    let needElements := window - timestamps.length
    let stopOffset := if needElements < startTopHeight then startTopHeight - needElements else 0
    timestamps ++
      ((bc.db.range (stopOffset + 1) (startTopHeight + 1)).map (·.bl.timestamp)).reverse

/-- `build_alt_chain`: the alternative blocks below a block with parent `prevId`, and the
timestamps to check it against, newest first. -/
def buildAltChain (env : Env) (bc : Blockchain) (prevId : Hash) :
    Option (List AltBlock × List UInt64) :=
  let altChain := bc.db.walkAltBlocks bc.db.altBlocks.length prevId
  let timestamps := (altChain.map (·.bl.timestamp)).reverse
  match altChain.head? with
  | some front =>
    if bc.db.height ≤ front.height then none
    else
      match bc.db.getBlockHeight env front.bl.prevId with
      | none => none
      | some parent =>
        if bc.db.getBlockHashFromHeight env (front.height - 1) = some front.bl.prevId then
          some (altChain, completeTimestampsVector bc parent timestamps)
        else none
  | none =>
    (bc.db.getBlockHeight env prevId).map fun parent =>
      ([], completeTimestampsVector bc parent timestamps)

end Nerva
