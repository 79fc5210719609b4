import Nerva.Lib.Checks
import Nerva.Lib.Tables
import Nerva.State

/-!
# The chain tables

`BlockchainDB::add_block` and `pop_block` over the tables of `BlockchainLMDB`. Ids come from the
sizes of tables when rows are added; on the way back the rows of a block are removed in the opposite
order. LMDB is taken for a set of sorted maps, and the `hf_versions` table is left out.
-/

namespace Nerva

open Checks

structure DbEnv extends Env where
  blockToBlob : Block → Blob
  txToBlob : Transaction → Blob
  /-- `unprunable_size`, or else the size that `serialize_base` writes. -/
  unprunableSize : Transaction → ℕ
  prunableHash : Transaction → Blob → Hash
  /-- `is_v1_tx`; none is its exception. -/
  isV1Tx : Blob → Option Bool

/-- The exceptions of `blockchain_db.h`, without the reason that LMDB gives. -/
inductive DbError
  | dbError (what : String)
  | blockDne (what : String)
  | blockParentDne (what : String)
  | blockExists (what : String)
  | txDne (what : String)
  | txExists (what : String)
  | outputDne (what : String)
  | keyImageExists (what : String)
  | runtimeError (what : String)
  deriving DecidableEq, Repr

structure MdbBlockInfo where
  timestamp : UInt64
  coins : UInt64
  weight : ℕ
  diff : ℕ
  hash : Hash
  cumRct : ℕ
  longTermBlockWeight : ℕ
  deriving DecidableEq, Repr

structure BlockTables where
  blocks : Table ℕ Blob
  blockInfo : Table ℕ MdbBlockInfo
  blockHeights : Table Hash ℕ

structure TxIndex where
  txId : ℕ
  unlockTime : UInt64
  blockId : ℕ
  deriving DecidableEq, Repr

/-- The tables of transactions. All but the first go by transaction id. -/
structure TxTables where
  txIndices : Table Hash TxIndex
  txsPruned : Table ℕ Blob
  txsPrunable : Table ℕ Blob
  txsPrunableHash : Table ℕ Hash
  /-- The height of each transaction that is recent; no id has two. -/
  txsPrunableTip : Table ℕ ℕ
  txOutputs : Table ℕ (List ℕ)

structure OutTx where
  txHash : Hash
  localIndex : ℕ
  deriving DecidableEq, Repr

structure OutKey where
  outputId : ℕ
  pubkey : PublicKey
  unlockTime : UInt64
  height : ℕ
  commitment : Option Hash
  deriving DecidableEq, Repr

structure OutputTables where
  outputTxs : Table ℕ OutTx
  outputAmounts : DupTable ℕ ℕ OutKey

structure Lmdb extends BlockTables, TxTables, OutputTables where
  spentKeys : Table KeyImage Unit
  pruningSeed : Option UInt32

namespace OutputTables

def addOutput (t : OutputTables) (txHash : Hash) (txOutput : TxOut) (localIndex : ℕ)
    (unlockTime : UInt64) (height : ℕ) (commitment : Option Hash) :
    Except DbError (ℕ × OutputTables) := do
  let key ← demand txOutput.key? (.dbError "Wrong output type: expected txout_to_key")
  require (txOutput.amount = 0 → commitment.isSome) (.dbError "RCT output without commitment")
  let outputId := t.outputTxs.nextKey
  let outputTxs ← demand (t.outputTxs.append outputId ⟨txHash, localIndex⟩)
    (.dbError "Failed to add output tx hash to db transaction: ")
  let amount := txOutput.amount.toNat
  let amountIndex := (t.outputAmounts.dups amount).size
  let row := ⟨outputId, key, unlockTime, height, if txOutput.amount = 0 then commitment else none⟩
  let outputAmounts ← demand (t.outputAmounts.append amount amountIndex row)
    (.dbError "Failed to add output pubkey to db transaction: ")
  return (amountIndex, ⟨outputTxs, outputAmounts⟩)

def removeOutput (t : OutputTables) (amount outIndex : ℕ) : Except DbError OutputTables := do
  let row ← demand (t.outputAmounts.dups amount)[outIndex]? (.outputDne
    "Attempting to get an output index by amount and amount index, but amount not found")
  let _ ← demand t.outputTxs[row.outputId]?
    (.dbError "Unexpected: global output index not found in m_output_txs")
  return ⟨t.outputTxs.erase row.outputId, t.outputAmounts.erase amount outIndex⟩

/-- The output as it is stored, with its commitment: an output of a miner transaction goes under
amount 0. -/
def stored (env : Env) (tx : Transaction) (minerTx : Bool) (i : ℕ) (o : TxOut) :
    TxOut × Option Hash :=
  if minerTx then ({ o with amount := 0 }, some (env.zeroCommit o.amount false))
  else (o, tx.rctSignatures.outPk[i]?)

def addOutputs (env : Env) (tx : Transaction) (txHash : Hash) (minerTx : Bool) (height : ℕ) :
    ℕ → List TxOut → OutputTables → Except DbError (List ℕ × OutputTables)
  | _, [], t => .ok ([], t)
  | i, o :: os, t => do
    let (index, t) ← t.addOutput txHash (stored env tx minerTx i o).1 i tx.unlockTime height
      (stored env tx minerTx i o).2
    let (indices, t) ← addOutputs env tx txHash minerTx height (i + 1) os t
    return (index :: indices, t)

/-- The loop of `remove_tx_outputs`, which begins with the last output. An index that is missing is
read out of bounds. -/
def removeOutputs (isPseudoRct : Bool) (indices : List ℕ) :
    ℕ → List TxOut → OutputTables → Except DbError OutputTables
  | _, [], t => .ok t
  | i, o :: os, t => do
    let t ← removeOutputs isPseudoRct indices (i + 1) os t
    let index ← demand indices[i]? (.runtimeError "out of bounds")
    t.removeOutput (if isPseudoRct then 0 else o.amount.toNat) index

end OutputTables

def addSpentKey (spentKeys : Table KeyImage Unit) (k : KeyImage) :
    Except DbError (Table KeyImage Unit) := do
  require (spentKeys[k]? = none)
    (.keyImageExists "Attempting to add spent key image that's already in the db")
  return spentKeys.insert k ()

def addInputs : Table KeyImage Unit → Bool → List TxIn →
    Except DbError (Table KeyImage Unit × Option Bool)
  | spentKeys, minerTx, [] => .ok (spentKeys, some minerTx)
  | spentKeys, minerTx, .toKey _ _ k :: rest => do
    let spentKeys ← addSpentKey spentKeys k
    addInputs spentKeys minerTx rest
  | spentKeys, _, .gen _ :: rest => addInputs spentKeys true rest
  | spentKeys, _, _ :: _ => .ok (spentKeys, none)

def removeSpentKeys (spentKeys : Table KeyImage Unit) (tx : Transaction) : Table KeyImage Unit :=
  tx.keyImages.foldl (fun keys k => keys.erase k) spentKeys

namespace TxTables

/-- The row that a transaction of version 2 has in `txs_prunable_hash`. -/
def addPrunableHash (t : TxTables) (txId version : ℕ) (txPrunableHash : Hash) :
    Except DbError (Table ℕ Hash) :=
  if 1 < version then
    demand (t.txsPrunableHash.append txId txPrunableHash)
      (.dbError "Failed to add prunable tx prunable hash to db transaction: ")
  else .ok t.txsPrunableHash

def addTransactionData (env : DbEnv) (t : TxTables) (height : ℕ) (pruningSeed : UInt32)
    (tx : Transaction) (blob : Blob) (txHash txPrunableHash : Hash) :
    Except DbError (ℕ × TxTables) := do
  let txId := t.txsPruned.size
  require (t.txIndices[txHash]? = none)
    (.txExists "Attempting to add transaction that's already in the db")
  let unprunableSize := env.unprunableSize tx
  require (unprunableSize ≤ blob.length) (.dbError "pruned tx size is larger than tx size")
  let txsPruned ← demand (t.txsPruned.append txId (blob.take unprunableSize))
    (.dbError "Failed to add pruned tx blob to db transaction: ")
  let txsPrunable ← demand (t.txsPrunable.append txId (blob.drop unprunableSize))
    (.dbError "Failed to add prunable tx blob to db transaction: ")
  let txsPrunableTip :=
    if pruningSeed ≠ 0 then t.txsPrunableTip.insert txId height else t.txsPrunableTip
  let txsPrunableHash ← t.addPrunableHash txId tx.version txPrunableHash
  return (txId,
    { t with
      txIndices := t.txIndices.insert txHash ⟨txId, tx.unlockTime, height⟩
      txsPruned, txsPrunable, txsPrunableTip, txsPrunableHash })

def getTxBlob (t : TxTables) (h : Hash) : Option Blob :=
  t.txIndices[h]?.bind fun ti => t.txsPruned[ti.txId]?.bind fun pruned =>
    t.txsPrunable[ti.txId]?.map (pruned ++ ·)

def getPrunedTxBlob (t : TxTables) (h : Hash) : Option Blob :=
  t.txIndices[h]?.bind fun ti => t.txsPruned[ti.txId]?

def getPrunedTx (env : DbEnv) (t : TxTables) (h : Hash) : Except DbError Transaction := do
  let bd ← demand (t.getPrunedTxBlob h) (.txDne "pruned tx not found in db")
  demand (env.parseTxBase bd)
    (.dbError "Failed to parse transaction base from blob retrieved from the db")

def getTxOrPruned (env : DbEnv) (t : TxTables) (h : Hash) : Except DbError Transaction :=
  match t.getTxBlob h with
  | some bd => demand (env.parseTx bd)
      (.dbError "Failed to parse transaction from blob retrieved from the db")
  | none => do
    let bd ← demand (t.getPrunedTxBlob h)
      (.dbError "Failed to get pruned or unpruned transaction from the db")
    demand (env.parseTxBase bd)
      (.dbError "Failed to parse transaction base from blob retrieved from the db")

def removePrunableHash (t : TxTables) (txId version : ℕ) : Except DbError (Table ℕ Hash) :=
  if 1 < version then do
    let _ ← demand t.txsPrunableHash[txId]?
      (.dbError "Failed to locate prunable hash tx for removal: ")
    return t.txsPrunableHash.erase txId
  else .ok t.txsPrunableHash

/-- The rows that `remove_transaction_data` removes before the outputs. -/
def removePrunable (t : TxTables) (txId version : ℕ) : Except DbError TxTables := do
  let _ ← demand t.txsPruned[txId]? (.dbError "Failed to locate pruned tx for removal: ")
  let txsPrunableHash ← t.removePrunableHash txId version
  return { t with
    txsPruned := t.txsPruned.erase txId
    txsPrunable := t.txsPrunable.erase txId
    txsPrunableTip := t.txsPrunableTip.erase txId
    txsPrunableHash }

end TxTables

namespace Lmdb

def height (db : Lmdb) : ℕ := db.blocks.size

def getBlockchainPruningSeed (db : Lmdb) : UInt32 := db.pruningSeed.getD 0

/-- `BlockchainDB::add_transaction`. A transaction with an input of another type is left out without
an error. -/
def addTransaction (env : DbEnv) (db : Lmdb) (tx : Transaction) (blob : Blob) (txHash : Hash) :
    Except DbError Lmdb := do
  let (spentKeys, minerTx?) ← addInputs db.spentKeys false tx.vin
  match minerTx? with
  | none => return { db with spentKeys := removeSpentKeys spentKeys tx }
  | some minerTx =>
    let (txId, txs) ← db.toTxTables.addTransactionData env db.height db.getBlockchainPruningSeed
      tx blob txHash (env.prunableHash tx blob)
    let (indices, outputs) ← OutputTables.addOutputs env.toEnv tx txHash minerTx db.height 0 tx.vout
      db.toOutputTables
    let txOutputs ← demand (txs.txOutputs.append txId indices)
      (.dbError "Failed to add <tx hash, amount output index array> to db transaction: ")
    return { db with
      toTxTables := { txs with txOutputs }
      toOutputTables := outputs
      spentKeys }

def removeTxOutputs (db : Lmdb) (txId : ℕ) (tx : Transaction) : Except DbError OutputTables := do
  let indices ← demand db.txOutputs[txId]? (.runtimeError "tx has no amount indices stored")
  require (indices = [] → tx.vout = []) (.dbError "tx has outputs, but no output indices found")
  OutputTables.removeOutputs tx.isCoinbase indices 0 tx.vout db.toOutputTables

def removeTransactionData (db : Lmdb) (txHash : Hash) (tx : Transaction) : Except DbError Lmdb := do
  let ti ← demand db.txIndices[txHash]?
    (.txDne "Attempting to remove transaction that isn't in the db")
  let txs ← db.toTxTables.removePrunable ti.txId tx.version
  let outputs ← db.removeTxOutputs ti.txId tx
  return { db with
    toTxTables := { txs with
      txOutputs := txs.txOutputs.erase ti.txId
      txIndices := txs.txIndices.erase txHash }
    toOutputTables := outputs }

def removeTransaction (env : DbEnv) (db : Lmdb) (txHash : Hash) : Except DbError Lmdb := do
  let tx ← db.getPrunedTx env txHash
  { db with spentKeys := removeSpentKeys db.spentKeys tx }.removeTransactionData txHash tx

end Lmdb

def HoldsBase (env : DbEnv) (tx : Transaction) (blob : Blob) : Prop :=
  ∃ base, env.parseTxBase (blob.take (env.unprunableSize tx)) = some base ∧
    base.version = tx.version ∧ base.vin = tx.vin ∧ base.vout = tx.vout

structure TxEntry (env : DbEnv) where
  tx : Transaction
  blob : Blob
  holdsBase : HoldsBase env tx blob

structure BlockEntry (env : DbEnv) where
  blk : Block
  txs : List (TxEntry env)
  blockWeight : ℕ
  longTermBlockWeight : ℕ
  cumulativeDifficulty : ℕ
  coinsGenerated : UInt64
  parses : env.parseBlock (env.blockToBlob blk) = some blk
  holdsBase : HoldsBase env blk.minerTx (env.txToBlob blk.minerTx)

namespace BlockTables

def checkParent (t : BlockTables) (prevId : Hash) : Except DbError Unit :=
  if 0 < t.blocks.size then do
    let parent ← demand t.blockHeights[prevId]?
      (.dbError "Failed to get top block hash to check for new block's parent: ")
    require (parent = t.blocks.size - 1) (.blockParentDne "Top block is not new block's parent")
  else .ok ()

def prevCumRct (t : BlockTables) : Except DbError ℕ :=
  if 1 ≤ t.blocks.size then do
    let prev ← demand t.blockInfo[t.blocks.size - 1]? (.blockDne "Failed to get block info: ")
    return prev.cumRct
  else .ok 0

def addBlock (env : DbEnv) (t : BlockTables) (entry : BlockEntry env) (numRctOuts : ℕ)
    (blkHash : Hash) : Except DbError BlockTables := do
  let height := t.blocks.size
  require (t.blockHeights[blkHash]? = none)
    (.blockExists "Attempting to add block that's already in the db")
  t.checkParent entry.blk.prevId
  let blocks ← demand (t.blocks.append height (env.blockToBlob entry.blk))
    (.dbError "Failed to add block blob to db transaction: ")
  let prevRct ← t.prevCumRct
  let blockInfo ← demand
    (t.blockInfo.append height
      { timestamp := entry.blk.timestamp
        coins := entry.coinsGenerated
        weight := entry.blockWeight
        diff := entry.cumulativeDifficulty
        hash := blkHash
        cumRct := numRctOuts + prevRct
        longTermBlockWeight := entry.longTermBlockWeight })
    (.dbError "Failed to add block info to db transaction: ")
  return ⟨blocks, blockInfo, t.blockHeights.insert blkHash height⟩

/-- `remove_block`. Its cursor on the blocks stands where `get_top_block` has left it. -/
def removeBlock (t : BlockTables) : Except DbError BlockTables := do
  let height := t.blocks.size
  require (height ≠ 0) (.blockDne "Attempting to remove block from an empty blockchain")
  let bi ← demand t.blockInfo[height - 1]?
    (.blockDne "Attempting to remove block that's not in the db: ")
  let _ ← demand t.blockHeights[bi.hash]?
    (.dbError "Failed to locate block height by hash for removal: ")
  return ⟨t.blocks.erase (height - 1), t.blockInfo.erase (height - 1), t.blockHeights.erase bi.hash⟩

def getTopBlock (env : DbEnv) (t : BlockTables) : Except DbError (Option Block) :=
  if t.blocks.size = 0 then .ok none
  else do
    let bd ← demand t.blocks[t.blocks.size - 1]?
      (.blockDne "Attempt to get block from height failed -- block not in db")
    let b ← demand (env.parseBlock bd)
      (.dbError "Failed to parse block from blob retrieved from the db")
    return some b

end BlockTables

namespace Lmdb

def addTransactions (env : DbEnv) : Lmdb → List (Hash × TxEntry env) → Except DbError Lmdb
  | db, [] => .ok db
  | db, (txHash, e) :: rest => do
    let db ← db.addTransaction env e.tx e.blob txHash
    addTransactions env db rest

end Lmdb

namespace BlockEntry

variable {env : DbEnv}

def minerEntry (entry : BlockEntry env) : TxEntry env :=
  ⟨entry.blk.minerTx, env.txToBlob entry.blk.minerTx, entry.holdsBase⟩

def hashed (entry : BlockEntry env) : List (Hash × TxEntry env) :=
  entry.blk.txHashes.zip entry.txs

def numRctOuts (entry : BlockEntry env) : ℕ :=
  entry.txs.foldl (fun n e => n + e.tx.vout.countP (·.amount = 0)) entry.blk.minerTx.vout.length

end BlockEntry

namespace Lmdb

def addBlock (env : DbEnv) (db : Lmdb) (entry : BlockEntry env) : Except DbError Lmdb := do
  require (entry.blk.txHashes.length = entry.txs.length)
    (.runtimeError "Inconsistent tx/hashes sizes")
  let db ← db.addTransaction env entry.minerEntry.tx entry.minerEntry.blob
    (env.txHash entry.blk.minerTx)
  let db ← db.addTransactions env entry.hashed
  let blocks ← db.toBlockTables.addBlock env entry entry.numRctOuts (env.blockHash entry.blk)
  return { db with toBlockTables := blocks }

/-- The loop of `pop_block` over the hashes, the last one first. -/
def popTransactions (env : DbEnv) : Lmdb → List Hash → Except DbError (List Transaction × Lmdb)
  | db, [] => .ok ([], db)
  | db, h :: hs => do
    let tx ← db.getTxOrPruned env h
    let db ← db.removeTransaction env h
    let (txs, db) ← popTransactions env db hs
    return (tx :: txs, db)

def popBlock (env : DbEnv) (db : Lmdb) : Except DbError (Block × List Transaction × Lmdb) := do
  let top ← db.getTopBlock env
  let blocks ← db.removeBlock
  let blk ← demand top (.blockDne "Attempting to remove block from an empty blockchain")
  let (txs, db) ← popTransactions env { db with toBlockTables := blocks } blk.txHashes.reverse
  let db ← db.removeTransaction env (env.txHash blk.minerTx)
  return (blk, txs, db)

end Lmdb

end Nerva
