import Nerva.Lmdb
import Nerva.Pruning

/-!
# Pruning the tables

`prune_worker` deletes the prunable data of old blocks outside the node's stripe. The first time it
goes through all transactions and writes down the recent ones in `txs_prunable_tip`; from then on
`update_pruning` only goes through that table, to which `add_block` adds.
-/

namespace Nerva

open Checks

inductive PruneMode
  | prune
  | update
  | check
  deriving DecidableEq, Repr

def makePruningSeed (stripe logStripes : ℕ) : Except DbError UInt32 := do
  require (logStripes ≤ pruningSeedLogStripesMask.toNat) (.runtimeError "log_stripes out of range")
  require (0 < stripe ∧ stripe ≤ 2 ^ logStripes) (.runtimeError "stripe out of range")
  return UInt32.ofNat logStripes <<< pruningSeedLogStripesShift ||| UInt32.ofNat (stripe - 1)

def getNextPrunedBlockHeight (blockHeight blockchainHeight : ℕ) (pruningSeed : UInt32) :
    Except DbError ℕ :=
  let stripe := getPruningStripe pruningSeed
  if stripe = 0 ∨ blockchainHeight ≤ blockHeight + cryptonotePruningTipBlocks then
    .ok blockchainHeight
  else
    let seedLogStripes := getPruningLogStripes pruningSeed
    let logStripes := if seedLogStripes = 0 then cryptonotePruningLogStripes else seedLogStripes
    let blockPruningSeed := blockHeight / cryptonotePruningStripeSize % 2 ^ logStripes + 1
    if blockPruningSeed ≠ stripe then .ok blockHeight
    else do
      let seed ← makePruningSeed (1 + blockPruningSeed % 2 ^ logStripes) logStripes
      return getNextUnprunedBlockHeight blockHeight blockchainHeight seed

namespace TxTables

def isV1Tx (env : DbEnv) (t : TxTables) (txId : ℕ) : Except DbError Bool := do
  let v ← demand t.txsPruned[txId]? (.dbError "Failed to find transaction pruned data: ")
  require (v ≠ []) (.dbError "Invalid transaction pruned data")
  demand (env.isV1Tx v) (.runtimeError "Internal error getting transaction version")

def pruneTx (env : DbEnv) (height : ℕ) (pruningSeed : UInt32) (t : TxTables)
    (txId blockHeight : ℕ) :
    Except DbError TxTables :=
  if hasUnprunedBlock blockHeight height pruningSeed then .ok t
  else do
    let v1 ← t.isV1Tx env txId
    return if v1 then t else { t with txsPrunable := t.txsPrunable.erase txId }

def pruneTip (env : DbEnv) (height : ℕ) (pruningSeed : UInt32) :
    List (ℕ × ℕ) → TxTables → Except DbError TxTables
  | [], t => .ok t
  | (txId, blockHeight) :: rest, t =>
    if blockHeight + cryptonotePruningTipBlocks < height then do
      let t ← t.pruneTx env height pruningSeed txId blockHeight
      pruneTip env height pruningSeed rest
        { t with txsPrunableTip := t.txsPrunableTip.erase txId }
    else pruneTip env height pruningSeed rest t

def addTip (height : ℕ) (t : TxTables) (ti : TxIndex) : TxTables :=
  if height ≤ ti.blockId + cryptonotePruningTipBlocks then
    { t with txsPrunableTip := t.txsPrunableTip.insert ti.txId ti.blockId }
  else t

def pruneAll (env : DbEnv) (height : ℕ) (pruningSeed : UInt32) :
    List TxIndex → TxTables → Except DbError TxTables
  | [], t => .ok t
  | ti :: rest, t => do
    let t ← (t.addTip height ti).pruneTx env height pruningSeed ti.txId ti.blockId
    pruneAll env height pruningSeed rest t

end TxTables

namespace Lmdb

def indexRows (db : Lmdb) : List TxIndex := db.txIndices.toList.map Prod.snd

/-- The loops of `prune_worker`. To check is to go through the same transactions and report. -/
def pruneTables (env : DbEnv) (db : Lmdb) (mode : PruneMode) (pruneTipTable : Bool)
    (pruningSeed : UInt32) : Except DbError TxTables :=
  match mode with
  | .check => do
    let _ ← db.toTxTables.pruneAll env db.height pruningSeed db.indexRows
    return db.toTxTables
  | _ =>
    if pruneTipTable then
      db.toTxTables.pruneTip env db.height pruningSeed db.txsPrunableTip.toList
    else db.toTxTables.pruneAll env db.height pruningSeed db.indexRows

/-- `prune_worker`, with the stripe that is drawn when none is asked for. -/
def pruneWorker (env : DbEnv) (db : Lmdb) (mode : PruneMode) (pruningSeed : UInt32)
    (randomStripe : ℕ) : Except DbError Lmdb := do
  let logStripes := getPruningLogStripes pruningSeed
  require (logStripes = 0 ∨ logStripes = cryptonotePruningLogStripes)
    (.dbError "Pruning seed not in range")
  let stripe := getPruningStripe pruningSeed
  require (stripe ≤ 2 ^ cryptonotePruningLogStripes) (.dbError "Pruning seed not in range")
  match db.pruningSeed with
  | none =>
    if mode ≠ .prune then return db
    else
      let pruningSeed ← makePruningSeed (if stripe = 0 then randomStripe else stripe)
        cryptonotePruningLogStripes
      let txs ← db.pruneTables env mode false pruningSeed
      return { db with toTxTables := txs, pruningSeed := some pruningSeed }
  | some data =>
    let stripe := if stripe = 0 then getPruningStripe data else stripe
    require (getPruningStripe data = stripe)
      (.dbError "Blockchain already pruned with different seed")
    require (getPruningLogStripes data = cryptonotePruningLogStripes)
      (.dbError "Blockchain already pruned with different base")
    let pruningSeed ← makePruningSeed stripe cryptonotePruningLogStripes
    let txs ← db.pruneTables env mode (mode = .update) pruningSeed
    return { db with toTxTables := txs }

def pruneBlockchain (env : DbEnv) (db : Lmdb) (pruningSeed : UInt32) (randomStripe : ℕ) :
    Except DbError Lmdb :=
  db.pruneWorker env .prune pruningSeed randomStripe

def updatePruning (env : DbEnv) (db : Lmdb) : Except DbError Lmdb := db.pruneWorker env .update 0 0

inductive Op (env : DbEnv)
  | pruneBlockchain (pruningSeed : UInt32) (randomStripe : ℕ)
  | addBlock (entry : BlockEntry env)
  | popBlock
  | updatePruning

/-- The database after a call. An exception aborts the database transaction. -/
def step {env : DbEnv} (db : Lmdb) : Op env → Lmdb
  | .pruneBlockchain pruningSeed randomStripe =>
    (db.pruneBlockchain env pruningSeed randomStripe).toOption.getD db
  | .addBlock entry => (db.addBlock env entry).toOption.getD db
  | .popBlock => ((db.popBlock env).map (·.2.2)).toOption.getD db
  | .updatePruning => (db.updatePruning env).toOption.getD db

def run {env : DbEnv} (db : Lmdb) (ops : List (Op env)) : Lmdb := ops.foldl step db

end Lmdb

end Nerva
