import Nerva.Mempool
import Nerva.Prepare
import Nerva.Reorg

/-!
# Batches of incoming blocks

Between `prepare_handle_incoming_blocks` and `cleanup_handle_incoming_blocks` the blocks of a batch
are added under one database transaction. When the database throws, cleaning up takes the database
back to where it was; what the node keeps in memory beside it stays as the blocks have left it.
-/

namespace Nerva

inductive AddResult
  | alreadyExists
  | mainChain (r : Except BlockRefusal Unit)
  | alternative (r : Except AltRefusal AltOutcome)

def AddResult.quiet : AddResult → Bool
  | .alreadyExists => true
  | .mainChain (.ok ()) => false
  | .mainChain (.error _) => true
  | .alternative (.ok .addedToMainChain) | .alternative (.error .switchFailed) => false
  | .alternative _ => true

/-- A block of a batch, with the transactions that came with it and passed the checks of the core.
`throws` is whether the database throws when the block is added to it. -/
structure BatchEntry where
  txs : List Transaction := []
  block : Block
  throws : Bool := false

/-- A batch: the number of blocks it was prepared for, what its preparation has found, and the
entries that were handled before it was stopped. -/
structure Batch where
  nblocks : ℕ
  hashCheckSize : ℕ := 0
  scanTable : ScanTable := []
  entries : List BatchEntry

namespace Node

/-- `handle_block_to_main_chain` when `add_block` throws: a block that gets that far is refused. -/
def handleBlockThrowing (ce : ChainEnv) (node : Node) (b : Block) :
    Except BlockRefusal Unit × Node :=
  match node.handleBlockToMainChain ce b with
  | (.error refusal, node) => (.error refusal, node)
  | (.ok (), _) =>
    let bc := (getDifficultyForNextBlock ce.toEnv ce.fns node.bc).2
    match b.txHashes.foldlM (takeBlockTx ce.toEnv bc)
        { pool := node.pool, cumulativeWeight := ce.txWeight b.minerTx } with
    | .error (_, t) | .ok t => (.error .databaseError,
        { node with bc }.refuseBlock ce b .databaseError t)

def addNewBlock (ce : ChainEnv) (fuel : ℕ) (node : Node) (b : Block) (throws : Bool) :
    Option (AddResult × Node) :=
  if node.bc.haveBlock ce.toEnv (ce.blockHash b) then some (.alreadyExists, node)
  else if b.prevId ≠ node.bc.db.topBlockHash ce.toEnv then
    (node.handleAlternativeBlock ce fuel b).map fun (r, node) => (.alternative r, node)
  else
    let added :=
      if throws then node.handleBlockThrowing ce b else node.handleBlockToMainChain ce b
    some (.mainChain added.1, added.2)

def addIncomingTx (ce : ChainEnv) (node : Node) (tx : Transaction) : Node :=
  let id := ce.txHash tx
  if node.pool.ids.contains id || node.bc.db.txExists ce.toEnv id then node
  else
    let weight := if tx.pruned then ce.prunedTxWeight tx else ce.txWeight tx
    { node with pool := (node.pool.addTx ce node.bc tx id weight true true false
        node.bc.getCurrentHardForkVersion).2 }

def handleEntry (ce : ChainEnv) (fuel : ℕ) (node : Node) (entry : BatchEntry) :
    Option (AddResult × Node) :=
  (entry.txs.foldl (addIncomingTx ce) node).addNewBlock ce fuel entry.block entry.throws

def handleEntries (ce : ChainEnv) (fuel : ℕ) :
    Node → List BatchEntry → Option (List AddResult × Node)
  | node, [] => some ([], node)
  | node, entry :: rest =>
    (node.handleEntry ce fuel entry).bind fun (r, node) =>
      (handleEntries ce fuel node rest).map fun (rs, node) => (r :: rs, node)

/-- `prepare_handle_incoming_blocks`. Below the precomputed block hashes it stops early. -/
def prepareBlocks (node : Node) (batch : Batch) : Node :=
  if node.bc.db.height + batch.nblocks < batch.hashCheckSize then { node with batchSuccess := true }
  else
    { node with
      bc := { node.bc with scanTable := batch.scanTable }
      prepareNblocks := batch.nblocks
      batchStartHeight := node.bc.db.height
      batchSuccess := true }

/-- `cleanup_handle_incoming_blocks`, with the database that a failed batch goes back to. -/
def cleanupBlocks (saved : BlockchainDB) (node : Node) : Node :=
  { node with
    bc := { node.bc with
      scanTable := []
      db := if node.batchSuccess then node.bc.db else saved }
    prepareNblocks := 0 }

def runBatch (ce : ChainEnv) (fuel : ℕ) (node : Node) (batch : Batch) :
    Option (List AddResult × Node) :=
  ((node.prepareBlocks batch).handleEntries ce fuel batch.entries).map fun (rs, node') =>
    (rs, node'.cleanupBlocks node.bc.db)

end Node

end Nerva
