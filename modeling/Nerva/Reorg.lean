import Nerva.MainChain

/-!
# Alternative blocks and reorganisations

`handle_alternative_block` keeps a block that does not extend the tip, and calls
`switch_to_alternative_blockchain` once its chain is the heavier one. After a success that hands the
popped blocks to `handle_alternative_block` in turn, so that the two functions call each other.
-/

namespace Nerva

open Checks

namespace BlockchainDB

def addAltBlock (db : BlockchainDB) (id : Hash) (b : AltBlock) : BlockchainDB :=
  { db with altBlocks := (id, b) :: db.altBlocks }

def removeAltBlock (db : BlockchainDB) (id : Hash) : BlockchainDB :=
  { db with altBlocks := db.altBlocks.filter fun a => decide (a.1 ≠ id) }

def getTx (env : Env) (db : BlockchainDB) (id : Hash) : Option Transaction :=
  db.blocks.findSome? fun b =>
    if env.txHash b.bl.minerTx = id then some b.bl.minerTx else (b.bl.txHashes.zip b.txs).lookup id

end BlockchainDB

namespace Node

def forgetWindow (node : Node) : Node := { node with bc := node.bc.forgetWindow }

def reorganizeFromChainHeight (node : Node) (height : ℕ) : Node :=
  let (hardfork, db) := node.bc.hardfork.reorganizeFromChainHeight node.bc.db height
  { node with bc := { node.bc with hardfork, db } }

/-- Blocks are popped as long as `more` says so, the lowest one in front. None is the exception for
genesis, which comes before the fuel is used up if that is the height. -/
def popWhile (ce : ChainEnv) (more : Blockchain → Bool) :
    ℕ → Node → List Block → Option (List Block × Node)
  | 0, _, _ => none
  | fuel + 1, node, popped =>
    if more node.bc then
      (node.popBlockFromBlockchain ce).bind fun (b, node) =>
        popWhile ce more fuel node (b :: popped)
    else some (popped, node)

def connect (ce : ChainEnv) : Node → List Block → List Block × Node
  | node, [] => ([], node)
  | node, b :: rest =>
    match node.handleBlockToMainChain ce b with
    | (.ok (), node) => connect ce node rest
    | (.error _, node) => (b :: rest, node)

def rollbackBlockchainSwitching (ce : ChainEnv) (node : Node) (originalChain : List Block)
    (rollbackHeight : ℕ) : Option (Bool × Node) :=
  if node.bc.db.height < rollbackHeight then some (true, node)
  else
    let more := fun bc : Blockchain => decide (bc.db.height ≠ rollbackHeight)
    (node.forgetWindow.popWhile ce more node.bc.db.height []).map fun (_, node) =>
      let (left, node) := (node.reorganizeFromChainHeight rollbackHeight).connect ce originalChain
      if left = [] then (true, node.reorganizeFromChainHeight rollbackHeight) else (false, node)

/-- An alternative block that could not be connected: `add_block_as_invalid` and
`remove_alt_block`. -/
def dismiss (env : Env) (node : Node) (b : Block) : Node :=
  { node with bc := { node.bc with
    invalidBlocks := env.blockHash b :: node.bc.invalidBlocks
    db := node.bc.db.removeAltBlock (env.blockHash b) } }

def removeAltBlocks (env : Env) (node : Node) (altChain : List AltBlock) : Node :=
  { node with bc := { node.bc with
    db := altChain.foldl (fun db a => db.removeAltBlock (env.blockHash a.bl)) node.bc.db } }

end Node

def cnSeedBackreach : ℕ := 255
def cnSeedStableDepth : ℕ := 256
def cnSeedMinHeight : ℕ := cnSeedStableDepth + cnSeedBackreach

def getLonghashHeightSupported (majorVersion height : ℕ) : Bool :=
  if majorVersion < 7 then true
  else if majorVersion = 7 then 1 + cnSeedBackreach ≤ height
  else if majorVersion = 8 then 256 + cnSeedBackreach ≤ height
  else cnSeedMinHeight ≤ height

/-- `get_longhash_alt_chain_depth_limit`; zero is no limit. -/
def getLonghashAltChainDepthLimit (majorVersion : ℕ) : ℕ :=
  if majorVersion < 7 then 0 else if majorVersion = 7 then 1 else cnSeedStableDepth

def tooDeep (majorVersion height splitHeight : ℕ) : Bool :=
  let depthLimit := getLonghashAltChainDepthLimit majorVersion
  depthLimit ≠ 0 && depthLimit ≤ height - splitHeight

/-- `get_block_height(b)`: the height the coinbase names, zero if it names none. -/
def Block.height (b : Block) : ℕ :=
  match b.minerTx.vin with
  | [.gen height] => height
  | _ => 0

inductive AltRefusal
  | heightZero
  | belowCheckpoint
  | oldVersion
  | brokenAltChain
  | altChainTooDeep
  | invalidTimestamp
  | checkpointFailed
  | difficultyOverhead
  | heightNotSupported
  | noLonghash
  | notEnoughProofOfWork
  | incorrectMinerTransaction
  | alreadyExists
  | switchFailed
  deriving DecidableEq, Repr

/-- What has become of a block when `handle_alternative_block` returns true. -/
inductive AltOutcome
  | markedAsOrphaned
  | addedAsAlternative
  | addedToMainChain
  deriving DecidableEq, Repr

structure AltCandidate where
  below : List AltBlock
  bei : AltBlock
  isACheckpoint : Bool
  deriving DecidableEq, Repr

/-- `checkpoints::is_alternative_block_allowed`: the last checkpoint up to the chain height, if
there is one, is below the block. -/
def isAlternativeBlockAllowed (ce : ChainEnv) (blockchainHeight blockHeight : ℕ) : Bool :=
  blockHeight ≠ 0 &&
    (ce.checkpoints.filter fun c => c.1 ≤ blockchainHeight).all fun c => decide (c.1 < blockHeight)

/-- The loop that sums up the weight of an alternative block: zero when a transaction is unknown. -/
def altBlockWeight (ce : ChainEnv) (db : BlockchainDB) (pool : TxPool) : ℕ → List Hash → ℕ
  | weight, [] => weight
  | weight, id :: rest =>
    match pool.find? id, db.getTx ce.toEnv id with
    | some e, _ => altBlockWeight ce db pool (weight + e.info.weight) rest
    | none, some tx => altBlockWeight ce db pool (weight + ce.prunedTxWeight tx) rest
    | none, none => 0

namespace Blockchain

def checkAltHeader (ce : ChainEnv) (bc : Blockchain) (b : Block) : Except AltRefusal Unit := do
  require (b.height ≠ 0) .heightZero
  require (isAlternativeBlockAllowed ce bc.db.height b.height) .belowCheckpoint
  require (bc.hardfork.checkForHeight b b.height) .oldVersion

def checkAltProofOfWork (ce : ChainEnv) (bc : Blockchain) (b : Block) (height : ℕ)
    (currentDiff : UInt64) : Except AltRefusal Unit :=
  match ce.blockLonghash bc.db.blocks b height with
  | none => .error .noLonghash
  | some proofOfWork => require (ce.checkHash proofOfWork currentDiff) .notEnoughProofOfWork

def checkAltWork (ce : ChainEnv) (bc : Blockchain) (below : List AltBlock)
    (timestamps : List UInt64) (b : Block) (height : ℕ) : Except AltRefusal UInt64 := do
  let splitHeight := (below.head?.map (·.height)).getD height
  require (¬tooDeep b.majorVersion height splitHeight) .altChainTooDeep
  require (checkTimestamps bc.getCurrentHardForkVersion timestamps b) .invalidTimestamp
  require (checkCheckpoint ce height (ce.blockHash b)) .checkpointFailed
  let currentDiff := getNextDifficultyForAlternativeChain ce.fns bc below height
  require (currentDiff ≠ 0) .difficultyOverhead
  require (getLonghashHeightSupported b.majorVersion height) .heightNotSupported
  checkAltProofOfWork ce bc b height currentDiff
  require (prevalidateMinerTransaction b height) .incorrectMinerTransaction
  return currentDiff

/-- The height, cumulative difficulty and coins of the parent: those of the last alternative block
below, or of the main-chain block `prevId`. -/
def altParent (env : Env) (bc : Blockchain) (below : List AltBlock) (prevId : Hash) :
    ℕ × ℕ × UInt64 :=
  match below.getLast? with
  | some a => (a.height, a.cumulativeDifficulty, a.alreadyGeneratedCoins)
  | none =>
    let height := (bc.db.getBlockHeight env prevId).getD 0
    let parent := bc.db.blocks[height]?
    (height, (parent.map (·.cumulativeDifficulty)).getD 0,
      (parent.map (·.alreadyGeneratedCoins)).getD 0)

/-- `handle_alternative_block` up to the point where the block is stored; none when its parent is
not known. -/
def checkAlternativeBlock (ce : ChainEnv) (bc : Blockchain) (pool : TxPool) (b : Block) :
    Except AltRefusal (Option AltCandidate) := do
  checkAltHeader ce bc b
  if (bc.db.getAltBlock b.prevId).isNone && (bc.db.getBlockHeight ce.toEnv b.prevId).isNone then
    return none
  else
    match buildAltChain ce.toEnv bc b.prevId with
    | none => .error .brokenAltChain
    | some (below, timestamps) =>
      let (prevHeight, prevDifficulty, prevCoins) := bc.altParent ce.toEnv below b.prevId
      let height := prevHeight + 1
      let currentDiff ← checkAltWork ce bc below timestamps b height
      require ((bc.db.getAltBlock (ce.blockHash b)).isNone) .alreadyExists
      return some {
        below := below
        bei := {
          bl := b
          height := height
          cumulativeWeight := altBlockWeight ce bc.db pool (ce.txWeight b.minerTx) b.txHashes
          cumulativeDifficulty := prevDifficulty + currentDiff.toNat
          alreadyGeneratedCoins := computeGeneratedCoins b.minerTx.moneyOut prevCoins }
        isACheckpoint := (ce.checkpoints.lookup height).isSome }

end Blockchain

namespace Node

/-- The popped blocks are offered as alternatives, up to the first one that is too deep. Whether
they are taken is only logged. -/
def pushOldChain (handleAlt : Node → Block → Option Node) (splitHeight : ℕ) :
    Node → List Block → Option Node
  | node, [] => some node
  | node, b :: rest =>
    if tooDeep b.majorVersion b.height splitHeight then some node
    else (handleAlt node b).bind fun node => pushOldChain handleAlt splitHeight node rest

/-- `switch_to_alternative_blockchain`, with the function the popped blocks are handed to. -/
def switchWith (ce : ChainEnv) (handleAlt : Node → Block → Option Node) (node : Node)
    (altChain : List AltBlock) (discardDisconnectedChain : Bool) : Option (Bool × Node) :=
  let node := node.forgetWindow
  match altChain with
  | [] => some (false, node)
  | front :: _ =>
    if (node.bc.db.getBlockHeight ce.toEnv front.bl.prevId).isNone then some (false, node)
    else
      let more := fun bc : Blockchain => decide (bc.db.topBlockHash ce.toEnv ≠ front.bl.prevId)
      (node.popWhile ce more node.bc.db.height []).bind fun (disconnectedChain, node) =>
        let splitHeight := node.bc.db.height
        match node.connect ce (altChain.map (·.bl)) with
        | ([], node) =>
          (if discardDisconnectedChain then some node
            else node.pushOldChain handleAlt splitHeight disconnectedChain).map fun node =>
              (true, (node.removeAltBlocks ce.toEnv altChain).reorganizeFromChainHeight splitHeight)
        | (b :: left, node) =>
          (node.rollbackBlockchainSwitching ce disconnectedChain splitHeight).map fun (_, node) =>
            (false, (b :: left).foldl (dismiss ce.toEnv) node)

/-- `handle_alternative_block`. The fuel bounds how often a switch and the blocks it pops lead to
another switch. -/
def handleAlternativeBlock (ce : ChainEnv) :
    ℕ → Node → Block → Option (Except AltRefusal AltOutcome × Node)
  | 0, _, _ => none
  | fuel + 1, node, b =>
    let node := node.forgetWindow
    match node.bc.checkAlternativeBlock ce node.pool b with
    | .error refusal => some (.error refusal, node)
    | .ok none => some (.ok .markedAsOrphaned, node)
    | .ok (some c) =>
      let mainDifficulty := (node.bc.db.blocks.getLast?.map (·.cumulativeDifficulty)).getD 0
      let db := node.bc.db.addAltBlock (ce.blockHash b) c.bei
      let node := { node with bc := { node.bc with db } }
      if c.isACheckpoint || mainDifficulty < c.bei.cumulativeDifficulty then
        let handleAlt := fun node b => (handleAlternativeBlock ce fuel node b).map (·.2)
        (node.switchWith ce handleAlt (c.below ++ [c.bei]) c.isACheckpoint).map fun (r, node) =>
          (if r then .ok .addedToMainChain else .error .switchFailed, node)
      else some (.ok .addedAsAlternative, node)

end Node

end Nerva
