import Nerva.TxPool

/-!
# The containers of the transaction pool

`tx_memory_pool` with all that it keeps: the pool's table in the database, and in memory the total
weight, the sorted container and the index of spent key images, each updated by itself. Without a
commit the table goes back to where it was at the start of the batch, and the memory does not.
-/

namespace Nerva

open Checks

structure TxpoolRow where
  id : Hash
  tx : Transaction
  info : TxpoolTxMeta
  deriving DecidableEq, Repr

def PoolTx.row (e : PoolTx) : TxpoolRow := ⟨e.id, e.tx, e.info⟩

def TxPool.table (pool : TxPool) : List TxpoolRow := pool.txs.map PoolTx.row

/-- `emplace`: an entry that is there already is not inserted again. -/
def emplace (e : SortedTx) (entries : List SortedTx) : List SortedTx :=
  if e ∈ entries then entries else entries.orderedInsert SortedTx.before e

def eraseSorted (id : Hash) (entries : List SortedTx) : List SortedTx :=
  entries.eraseP fun e => decide (e.id = id)

structure TxMemoryPool where
  table : List TxpoolRow := []
  txpoolMaxWeight : ℕ := defaultTxpoolMaxWeight
  txpoolWeight : UInt64 := 0
  txsByFeeAndReceiveTime : List SortedTx := []
  spentKeyImages : Index KeyImage Hash := Index.empty
  timedOutTransactions : List Hash := []
  cookie : ℕ := 0

def mempoolTxLivetime : UInt64 := 259200
def mempoolTxFromAltBlockLivetime : UInt64 := 604800

namespace TxMemoryPool

variable (pool : TxMemoryPool)

def haveTxKeyimgesAsSpent (tx : Transaction) : Bool :=
  tx.vin.any (TxIn.spent (haveTxKeyimgAsSpent pool.spentKeyImages))

def find? (id : Hash) : Option TxpoolRow := Keyed.lookup (·.id) id pool.table

/-- `for_all_txpool_txes`: the rows in the order of their keys. -/
def inKeyOrder (rank : Hash → ℕ) (pool : TxMemoryPool) : List TxpoolRow :=
  pool.table.insertionSort fun a b => rank a.id ≤ rank b.id

def removeTxpoolTx (id : Hash) : List TxpoolRow :=
  pool.table.filter fun r => decide (r.id ≠ id)

def mapInfo (f : TxpoolRow → TxpoolTxMeta) : TxMemoryPool :=
  { pool with table := pool.table.map fun r => { r with info := f r } }

def updateTxpoolTx (id : Hash) (info : TxpoolTxMeta) : Bool × TxMemoryPool :=
  ((pool.find? id).isSome, pool.mapInfo fun r => if r.id = id then info else r.info)

/-- What `prune`, `take_tx` and `remove_stuck_transactions` share: the row is removed, then its
weight and its key images. -/
def removeTx (row : TxpoolRow) : TxMemoryPool :=
  let removed := removeTransactionKeyimages row.id row.tx.vin pool.spentKeyImages
  { pool with
    table := pool.removeTxpoolTx row.id
    txpoolWeight := pool.txpoolWeight - UInt64.ofNat row.info.weight
    spentKeyImages := removed.2
    cookie := if removed.1 then pool.cookie + 1 else pool.cookie }

/-- The loop of `prune`, from the last transaction up. The first flag is false when a row is
missing, the second one says whether anything was removed. -/
def pruneFrom (bytes : ℕ) : Bool → List SortedTx → TxMemoryPool → Bool × Bool × TxMemoryPool
  | changed, [], pool => (true, changed, pool)
  | changed, e :: rest, pool =>
    if pool.txpoolWeight.toNat ≤ bytes then (true, changed, pool)
    else
      match pool.find? e.id with
      | none => (false, changed, pool)
      | some row =>
        if row.info.keptByBlock then pruneFrom bytes changed rest pool
        else
          let pool := pool.removeTx row
          pruneFrom bytes true rest
            { pool with txsByFeeAndReceiveTime := pool.txsByFeeAndReceiveTime.erase e }

/-- `prune`. The first transaction is never removed; `nested` is whether a batch was open. -/
def prune (bytes : ℕ) (nested : Bool) : TxMemoryPool :=
  let bytes := if bytes = 0 then pool.txpoolMaxWeight else bytes
  let (committed, changed, left) :=
    pruneFrom bytes false pool.txsByFeeAndReceiveTime.tail.reverse pool
  if committed then { left with cookie := if changed then left.cookie + 1 else left.cookie }
  else { left with table := if nested then left.table else pool.table }

/-- `prune` when a step fails after `n` turns: it returns without the commit. The step that fails
has changed nothing. -/
def pruneFailing (bytes : ℕ) (nested : Bool) (n : ℕ) : TxMemoryPool :=
  let bytes := if bytes = 0 then pool.txpoolMaxWeight else bytes
  let left := (pruneFrom bytes false (pool.txsByFeeAndReceiveTime.tail.reverse.take n) pool).2.2
  { left with table := if nested then left.table else pool.table }

def takeTx (id : Hash) : Option (TxpoolRow × TxMemoryPool) :=
  (pool.find? id).map fun row =>
    let left := pool.removeTx row
    (row, { left with
      txsByFeeAndReceiveTime := eraseSorted id left.txsByFeeAndReceiveTime
      cookie := left.cookie + 1 })

def markDoubleSpend (tx : Transaction) : TxMemoryPool :=
  let ids := doubleSpenders pool.spentKeyImages tx.vin
  let marked := pool.mapInfo fun r =>
    if r.id ∈ ids then { r.info with doubleSpendSeen := true } else r.info
  { marked with cookie := if marked.table = pool.table then pool.cookie else pool.cookie + 1 }

def setRelayed (now : UInt64) (ids : List Hash) : TxMemoryPool :=
  pool.mapInfo fun r =>
    if r.id ∈ ids then { r.info with relayed := true, lastRelayedTime := now } else r.info

/-- The transaction is stored, in the table, in the index, in the sorted container, and the pool
pruned. The table takes a row in place of one with the same id. -/
def store (rate : UInt64 → ℕ → ℕ) (pool : TxMemoryPool) (row : TxpoolRow) (receiveTime : UInt64)
    (nested : Bool) : Verdict Unit × TxMemoryPool :=
  let table := row :: pool.removeTxpoolTx row.id
  match insertKeyImages row.info.keptByBlock row.id row.tx.vin pool.spentKeyImages with
  | (false, index) =>
    (.error none,
      { pool with table := if nested then table else pool.table, spentKeyImages := index })
  | (true, index) =>
    let weight := row.info.weight
    let entry := ⟨rate row.info.fee (if weight = 0 then 1 else weight), receiveTime, row.id⟩
    let added := { pool with
      table := table
      spentKeyImages := index
      txsByFeeAndReceiveTime := emplace entry pool.txsByFeeAndReceiveTime
      txpoolWeight := pool.txpoolWeight + UInt64.ofNat weight
      cookie := pool.cookie + 2 }
    (.ok (), added.prune added.txpoolMaxWeight nested)

def addTx (ce : ChainEnv) (bc : Blockchain) (pool : TxMemoryPool) (tx : Transaction) (id : Hash)
    (txWeight : ℕ) (keptByBlock relayed doNotRelay : Bool) (version : ℕ) (nested : Bool) :
    Verdict Unit × TxMemoryPool :=
  let info : TxpoolTxMeta :=
    { weight := txWeight, fee := tx.rctSignatures.txnFee, receiveTime := ce.now,
      lastRelayedTime := ce.now, keptByBlock, relayed,
      doNotRelay := doNotRelay, pruned := tx.pruned }
  match addTxChecks ce.toEnv bc pool.timedOutTransactions (pool.haveTxKeyimgesAsSpent tx) tx id
      txWeight keptByBlock version with
  | .error flag =>
    (.error flag, if flag = some .doubleSpend then pool.markDoubleSpend tx else pool)
  | .ok () =>
    match checkTxInputsFor ce.toEnv bc tx with
    | none =>
      if keptByBlock then
        pool.store ce.feeRate
          ⟨id, tx, { info with doubleSpendSeen := pool.haveTxKeyimgesAsSpent tx }⟩ ce.now nested
      else (.error (some .invalidInput), pool)
    | some (height, blockId) =>
      pool.store ce.feeRate
        ⟨id, tx, { info with maxUsedBlockHeight := height, maxUsedBlockId := blockId }⟩
        ce.now nested

def isStuck (now : UInt64) (row : TxpoolRow) : Bool :=
  let txAge := now - row.info.receiveTime
  (mempoolTxLivetime < txAge && !row.info.keptByBlock) ||
    (mempoolTxFromAltBlockLivetime < txAge && row.info.keptByBlock)

/-- `remove_stuck_transactions`: the sorted container first, then everything else. -/
def removeStuckTransactions (rank : Hash → ℕ) (now : UInt64) (pool : TxMemoryPool) : TxMemoryPool :=
  let stuck := (pool.inKeyOrder rank).filter (isStuck now)
  if stuck = [] then pool
  else
    let unsorted := { pool with
      txsByFeeAndReceiveTime :=
        stuck.foldl (fun l row => eraseSorted row.id l) pool.txsByFeeAndReceiveTime
      timedOutTransactions := stuck.map (·.id) ++ pool.timedOutTransactions }
    let left := stuck.foldl removeTx unsorted
    { left with cookie := left.cookie + 1 }

/-- One turn of the loop of `validate`, with whether the transaction is counted as removed. -/
def revalidate (ce : ChainEnv) (bc : Blockchain) (version : ℕ) (pool : TxMemoryPool)
    (row : TxpoolRow) : Bool × TxMemoryPool :=
  match pool.takeTx row.id with
  | none => (false, pool)
  | some (taken, pool) =>
    match pool.addTx ce bc taken.tx row.id row.info.weight false taken.info.relayed
        taken.info.doNotRelay version true with
    | (.error _, pool) => (true, pool)
    | (.ok (), pool) =>
      let updated := pool.updateTxpoolTx row.id row.info
      (!updated.1, updated.2)

def validate (ce : ChainEnv) (bc : Blockchain) (version : ℕ) (pool : TxMemoryPool) : TxMemoryPool :=
  let txes := (pool.inKeyOrder ce.keyRank).filter fun r => !r.info.pruned
  let (removed, left) := txes.foldl (fun s row =>
    let turn := revalidate ce bc version s.2 row
    (s.1 || turn.1, turn.2)) (false, pool)
  { left with cookie := if removed then left.cookie + 1 else left.cookie }

/-- One pass of `init` over the rows; none when the key images of a row do not go in. -/
def initPass (rate : UInt64 → ℕ → ℕ) : List TxpoolRow → TxMemoryPool → Option TxMemoryPool
  | [], pool => some pool
  | row :: rest, pool =>
    match insertKeyImages row.info.keptByBlock row.id row.tx.vin pool.spentKeyImages with
    | (false, _) => none
    | (true, index) =>
      let entry := ⟨rate row.info.fee row.info.weight, row.info.receiveTime, row.id⟩
      initPass rate rest { pool with
        spentKeyImages := index
        txsByFeeAndReceiveTime := emplace entry pool.txsByFeeAndReceiveTime
        txpoolWeight := pool.txpoolWeight + UInt64.ofNat row.info.weight }

/-- `init`, on the table that is found: first the transactions that are not kept by a block, then
those that are. -/
def init (ce : ChainEnv) (maxTxpoolWeight : ℕ) (table : List TxpoolRow) : Option TxMemoryPool :=
  let pool : TxMemoryPool :=
    { table := table
      txpoolMaxWeight := if maxTxpoolWeight = 0 then defaultTxpoolMaxWeight else maxTxpoolWeight }
  let rows := pool.inKeyOrder ce.keyRank
  (initPass ce.feeRate (rows.filter fun r => !r.info.keptByBlock) pool).bind
    (initPass ce.feeRate (rows.filter fun r => r.info.keptByBlock))

end TxMemoryPool

inductive PoolOp
  | addTx (tx : Transaction) (id : Hash) (txWeight : ℕ) (keptByBlock relayed doNotRelay : Bool)
      (version : ℕ) (nested : Bool)
  | takeTx (id : Hash)
  | prune (bytes : ℕ) (nested : Bool)
  | removeStuckTransactions
  | validate (version : ℕ)
  | markDoubleSpend (tx : Transaction)
  | setRelayed (ids : List Hash)

def TxMemoryPool.apply (ce : ChainEnv) (bc : Blockchain) (pool : TxMemoryPool) :
    PoolOp → TxMemoryPool
  | .addTx tx id txWeight keptByBlock relayed doNotRelay version nested =>
    (pool.addTx ce bc tx id txWeight keptByBlock relayed doNotRelay version nested).2
  | .takeTx id => ((pool.takeTx id).map (·.2)).getD pool
  | .prune bytes nested => pool.prune bytes nested
  | .removeStuckTransactions => pool.removeStuckTransactions ce.keyRank ce.now
  | .validate version => pool.validate ce bc version
  | .markDoubleSpend tx => pool.markDoubleSpend tx
  | .setRelayed ids => pool.setRelayed ce.now ids

end Nerva
