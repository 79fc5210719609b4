import Nerva.Chain
import Nerva.Timestamp
import Nerva.TxPool

/-!
# Adding a block to the main chain, and popping one

`handle_block_to_main_chain` checks a block, takes its transactions from the pool and checks them,
checks the coinbase, and only then stores the block; `pop_block_from_blockchain` is the way back.
Both re-validate the whole pool when the fork version changes.
-/

namespace Nerva

open Checks

structure AccountPublicAddress where
  viewPublicKey : PublicKey
  spendPublicKey : PublicKey
  deriving DecidableEq, Repr

structure BlockTemplate where
  block : Block
  diffic : UInt64
  height : ℕ
  expectedReward : UInt64
  deriving DecidableEq, Repr

/-- The template of an earlier call, `m_btc` and its companions, with what it was made for. -/
structure TemplateCache where
  template : BlockTemplate
  address : AccountPublicAddress
  nonce : Blob
  poolCookie : ℕ
  deriving DecidableEq, Repr

structure Node where
  bc : Blockchain
  pool : TxPool
  /-- None when `m_btc_valid` is false. -/
  templateCache : Option TemplateCache := none
  prepareNblocks : ℕ := 0
  batchStartHeight : ℕ := 0
  batchSuccess : Bool := true

inductive BlockRefusal
  | wrongPrevId
  | oldVersion
  | invalidTimestamp
  | difficultyOverhead
  | noLonghash
  | notEnoughProofOfWork
  | checkpointFailed
  | prevalidationFailed
  | transactionInBlockchain (id : Hash)
  | unknownTransaction (id : Hash)
  | invalidOutputs (id : Hash)
  | wrongInputs (id : Hash)
  | prunedWithoutWeight
  | incorrectMinerTransaction
  | keyImageExists
  | databaseError
  deriving DecidableEq, Repr

def BlockRefusal.marksInvalid : BlockRefusal → Bool
  | .invalidOutputs _ | .wrongInputs _ => true
  | _ => false

/-- The refusals that come from the database, after which the batch is to be aborted. -/
def BlockRefusal.abortsBatch : BlockRefusal → Bool
  | .keyImageExists | .databaseError => true
  | _ => false

/-- The refusal that leaves without `return_tx_to_pool`. -/
def BlockRefusal.keepsTransactions : BlockRefusal → Bool
  | .prunedWithoutWeight => true
  | _ => false

namespace BlockchainDB

def txExists (env : Env) (db : BlockchainDB) (id : Hash) : Bool :=
  db.blocks.any fun b => b.bl.txHashes.contains id || env.txHash b.bl.minerTx = id

/-- `add_transaction` over the transactions of a block: false is `KEY_IMAGE_EXISTS`. -/
def addSpentKeys (db : BlockchainDB) (txs : List Transaction) : Bool :=
  let keyImages := txs.flatMap (·.keyImages)
  decide keyImages.Nodup && keyImages.all fun k => !db.hasKeyImage k

end BlockchainDB

namespace Blockchain

/-- The checks of `handle_block_to_main_chain` before the difficulty is asked for. -/
def checkBlockLinks (env : Env) (bc : Blockchain) (b : Block) : Except BlockRefusal Unit := do
  require (b.prevId = bc.db.topBlockHash env) .wrongPrevId
  require (bc.hardfork.check b) .oldVersion
  require (bc.checkBlockTimestamp env b) .invalidTimestamp

def checkProofOfWork (ce : ChainEnv) (bc : Blockchain) (b : Block) (height : ℕ) (diffic : UInt64) :
    Except BlockRefusal Unit :=
  if ce.blockNeedsPow height (ce.blockHash b) then
    match ce.blockLonghash bc.db.blocks b height with
    | none => .error .noLonghash
    | some proofOfWork => require (ce.checkHash proofOfWork diffic) .notEnoughProofOfWork
  else .ok ()

/-- `checkpoints::check_block`. -/
def checkCheckpoint (ce : ChainEnv) (height : ℕ) (id : Hash) : Bool :=
  (ce.checkpoints.lookup height).all (· = id)

def checkBlockWork (ce : ChainEnv) (bc : Blockchain) (b : Block) (diffic : UInt64) :
    Except BlockRefusal Unit := do
  let height := bc.db.height
  require (diffic ≠ 0) .difficultyOverhead
  checkProofOfWork ce bc b height diffic
  require (checkCheckpoint ce height (ce.blockHash b)) .checkpointFailed
  require (prevalidateMinerTransaction b height) .prevalidationFailed

end Blockchain

structure TakenTxs where
  txs : List PoolTx := []
  pool : TxPool
  feeSummary : UInt64 := 0
  cumulativeWeight : ℕ
  nPruned : ℕ := 0

def takeBlockTx (env : Env) (bc : Blockchain) (t : TakenTxs) (id : Hash) :
    Except (BlockRefusal × TakenTxs) TakenTxs :=
  if bc.db.txExists env id then .error (.transactionInBlockchain id, t)
  else
    match t.pool.takeTx id with
    | none => .error (.unknownTransaction id, t)
    | some (e, pool) =>
      let t := { t with
        txs := t.txs ++ [e]
        pool := pool
        nPruned := if e.info.pruned then t.nPruned + 1 else t.nPruned }
      match checkTxOutputs env bc e.tx, checkTxInputs env bc e.tx with
      | .error _, _ => .error (.invalidOutputs id, t)
      | .ok (), .error _ => .error (.wrongInputs id, t)
      | .ok (), .ok _ => .ok { t with
          feeSummary := t.feeSummary + e.info.fee
          cumulativeWeight := t.cumulativeWeight + e.info.weight }

def returnTxToPool (ce : ChainEnv) (bc : Blockchain) (pool : TxPool) (txs : List PoolTx) : TxPool :=
  txs.foldl (fun pool e => pool.addBlockTx ce bc bc.getCurrentHardForkVersion e.id e.tx) pool

/-- The loop over the transactions and the checks of the block as a whole: what is stored. -/
def takeBlockTxs (ce : ChainEnv) (bc : Blockchain) (diffic : UInt64) (pool : TxPool) (b : Block) :
    Except (BlockRefusal × TakenTxs) (BlockInfo × TxPool) := do
  let t ← b.txHashes.foldlM (takeBlockTx ce.toEnv bc)
    { pool, cumulativeWeight := ce.txWeight b.minerTx }
  let pruned := decide (0 < t.nPruned)
  let checkedWeight := ce.blocksHashCheckWeight bc.db.height
  require (¬(pruned ∧ checkedWeight = 0)) (.prunedWithoutWeight, t)
  let weight := if pruned then checkedWeight else t.cumulativeWeight
  let coins := bc.db.generatedCoins
  match bc.validateMinerTransaction b weight t.feeSummary coins bc.getCurrentHardForkVersion with
  | none => .error (.incorrectMinerTransaction, t)
  | some baseReward =>
    match bc.getNextLongTermBlockWeight weight with
    | none => .error (.databaseError, t)
    | some next =>
      let txs := t.txs.map (·.tx)
      require (bc.db.addSpentKeys txs) (.keyImageExists, t)
      return ({
        bl := b
        txs := txs
        blockWeight := weight
        longTermBlockWeight := next.longTermBlockWeight
        cumulativeDifficulty :=
          ((bc.db.blocks.getLast?.map (·.cumulativeDifficulty)).getD 0) + diffic.toNat
        alreadyGeneratedCoins := computeGeneratedCoins baseReward coins }, t.pool)

/-- A block is stored once its long-term weight has been asked for, and the weight limit follows. -/
def Blockchain.addBlockWeighed (bc : Blockchain) (info : BlockInfo) (midBatch : Bool) :
    Blockchain :=
  let (longTermMedian, longTermCache) := bc.nextLongTermMedian
  { bc.addBlock info with longTermCache }.updateNextCumulativeWeightLimit longTermMedian midBatch

namespace Node

variable (ce : ChainEnv) (node : Node)

def revalidateFrom (previous : ℕ) : Node :=
  let version := node.bc.getCurrentHardForkVersion
  if version = previous then node
  else { node with pool := node.pool.validate ce node.bc version }

/-- `mid_batch`: more blocks of the batch are to come after the one that makes the chain this
high. -/
def midBatch (newHeight : ℕ) : Bool :=
  decide (1 < node.prepareNblocks) &&
    decide (newHeight < node.batchStartHeight + node.prepareNblocks)

/-- The end of `handle_block_to_main_chain`: the block is stored. After genesis the pool is not
validated. -/
def storeBlock (info : BlockInfo) (pool : TxPool) : Node :=
  let previousVersion := node.bc.getCurrentHardForkVersion
  let newHeight := node.bc.db.height + 1
  let bc := node.bc.addBlockWeighed info (node.midBatch newHeight)
  let bc := (getDifficultyForNextBlock ce.toEnv ce.fns bc).2
  let node := { node with bc, pool, templateCache := none }
  if newHeight = 1 then node else node.revalidateFrom ce previousVersion

/-- When the database refuses a block, its long-term weight has been asked for. -/
def refuseBlock (b : Block) (refusal : BlockRefusal) (t : TakenTxs) : Node :=
  { node with
    bc := { node.bc with
      invalidBlocks := if refusal.marksInvalid then ce.blockHash b :: node.bc.invalidBlocks
        else node.bc.invalidBlocks
      longTermCache := if refusal.abortsBatch then node.bc.nextLongTermMedian.2
        else node.bc.longTermCache }
    pool := if refusal.keepsTransactions then t.pool else returnTxToPool ce node.bc t.pool t.txs
    batchSuccess := node.batchSuccess && !refusal.abortsBatch }

def handleBlockToMainChain (b : Block) : Except BlockRefusal Unit × Node :=
  match node.bc.checkBlockLinks ce.toEnv b with
  | .error refusal => (.error refusal, node)
  | .ok () =>
    let (diffic, bc) := getDifficultyForNextBlock ce.toEnv ce.fns node.bc
    let node := { node with bc }
    match bc.checkBlockWork ce b diffic with
    | .error refusal => (.error refusal, node)
    | .ok () =>
      match takeBlockTxs ce bc diffic node.pool b with
      | .error (refusal, t) => (.error refusal, node.refuseBlock ce b refusal t)
      | .ok (info, pool) => (.ok (), node.storeBlock ce info pool)

/-- A popped transaction goes back to the pool, unless it is pruned or a coinbase. -/
def returnPopped (bc : Blockchain) (pool : TxPool) (tx : Transaction) : TxPool :=
  if tx.pruned || tx.isCoinbase then pool
  else pool.addBlockTx ce bc (bc.hardfork.getIdealVersionAt bc.db.height) (ce.txHash tx) tx

/-- `pop_block_from_blockchain`; none is the exception for genesis. The database gives the
transactions back last first. -/
def popBlockFromBlockchain : Option (Block × Node) :=
  match node.bc.db.blocks.getLast? with
  | none => none
  | some info =>
    if node.bc.db.height ≤ 1 then none
    else
      let bc := node.bc.popBlock
      let pool := info.txs.reverse.foldl (returnPopped ce bc) node.pool
      let bc := { bc with scanTable := [] }.updateNextCumulativeWeightLimit none false
      let popped := { node with bc, pool, templateCache := none }
      some (info.bl, popped.revalidateFrom ce node.bc.getCurrentHardForkVersion)

end Node

/-- What is done to a chain, as its long-term weights see it. -/
inductive WeightOp
  /-- `handle_block_to_main_chain` stores a block; its long-term weight is yet to be found. -/
  | add (info : BlockInfo) (midBatch : Bool)
  /-- It fails after the long-term weight has been asked for. -/
  | refuse (blockWeight : ℕ)
  | pop
  | restart (data : ℕ → ℕ)

namespace WeighedChain

def storedBlock (info : BlockInfo) (next : LongTermCache.NextWeight) : BlockInfo :=
  { info with longTermBlockWeight := next.longTermBlockWeight }

def step (bc : Blockchain) : WeightOp → Option Blockchain
  | .add info midBatch => (bc.getNextLongTermBlockWeight info.blockWeight).map fun next =>
      bc.addBlockWeighed (storedBlock info next) midBatch
  | .refuse blockWeight => (bc.getNextLongTermBlockWeight blockWeight).map fun next =>
      { bc with longTermCache := next.cache }
  | .pop => some (if 1 < bc.db.height then bc.popBlock.updateNextCumulativeWeightLimit none false
      else bc)
  | .restart data => some
      ({ bc with longTermCache := .create data }.updateNextCumulativeWeightLimit none false)

end WeighedChain

end Nerva
