import Nerva.Reward
import Nerva.Lib.Index
import Nerva.Lib.Keyed

/-!
# The transaction pool

`tx_memory_pool`: the transactions waiting for a block, best fee rate first, with the total weight
and the index of spent key images, each updated by itself. The sorted container and the table of the
database are one list here: they part only where the database is rolled back. The caches of parsed
transactions and of checked inputs are left out, since every change of the chain empties them.
-/

namespace Nerva

open Checks

structure ChainEnv extends Env where
  fns : DifficultyFns
  /-- `get_block_longhash`, which reads the main chain; none when it cannot be computed. -/
  blockLonghash : List BlockInfo → Block → ℕ → Option Hash
  checkHash : Hash → UInt64 → Bool
  blockNeedsPow : ℕ → Hash → Bool
  checkpoints : List (ℕ × Hash)
  /-- The weights of `m_blocks_hash_check`, zero where there is none. -/
  blocksHashCheckWeight : ℕ → ℕ
  prunedTxWeight : Transaction → ℕ
  /-- The rank of `fee / (double)weight` among the fee rates. -/
  feeRate : UInt64 → ℕ → ℕ
  /-- The place of a transaction id in the order of the database keys. -/
  keyRank : Hash → ℕ

def maxTxExtraSize : ℕ := 1060
def defaultTxpoolMaxWeight : ℕ := 648000000
def dynamicFeePerKbBaseFee : ℕ := 400000000
def dynamicFeePerKbBaseBlockReward : ℕ := 10000000000000
def feeQuantizationMask : UInt64 := 10000

def getTransactionWeightLimit (version : ℕ) : ℕ :=
  getMinBlockWeight version - coinbaseBlobReservedSize

def getDynamicPerKbFee (blockReward : UInt64) (medianBlockWeight version : ℕ) : UInt64 :=
  let minBlockWeight := getMinBlockWeight version
  let medianBlockWeight :=
    if medianBlockWeight < minBlockWeight then minBlockWeight else medianBlockWeight
  let unscaledFeePerKb := dynamicFeePerKbBaseFee * minBlockWeight / medianBlockWeight
  let lo := UInt64.ofNat (unscaledFeePerKb * blockReward.toNat /
    (dynamicFeePerKbBaseBlockReward / 1000000) / 1000000)
  (lo + feeQuantizationMask - 1) / feeQuantizationMask * feeQuantizationMask

def Blockchain.checkFee (bc : Blockchain) (txWeight : ℕ) (fee : UInt64) : Bool :=
  let version := bc.getCurrentHardForkVersion
  let median := bc.currentBlockCumulWeightLimit / 2
  match getBlockReward median 1 bc.db.generatedCoins version with
  | none => false
  | some baseReward =>
    let feePerKb := getDynamicPerKbFee baseReward
      (if hfVersionLongTermBlockWeight ≤ version then bc.longTermEffectiveMedianBlockWeight
        else median) version
    let neededFee :=
      UInt64.ofNat (txWeight / 1024 + if txWeight % 1024 = 0 then 0 else 1) * feePerKb
    decide (¬fee < neededFee - neededFee / 50)

structure TxpoolTxMeta where
  weight : ℕ
  fee : UInt64
  maxUsedBlockId : Hash := nullHash
  maxUsedBlockHeight : ℕ := 0
  lastFailedHeight : ℕ := 0
  lastFailedId : Hash := nullHash
  receiveTime : UInt64
  lastRelayedTime : UInt64 := 0
  keptByBlock : Bool
  relayed : Bool
  doNotRelay : Bool
  doubleSpendSeen : Bool := false
  pruned : Bool
  deriving DecidableEq, Repr

structure SortedTx where
  rate : ℕ
  time : UInt64
  id : Hash
  deriving DecidableEq, Repr

/-- `txCompare`, for different ids. -/
def SortedTx.before (a b : SortedTx) : Prop := b.rate < a.rate ∨ (b.rate = a.rate ∧ a.time ≤ b.time)

instance : DecidableRel SortedTx.before := fun _ _ => inferInstanceAs (Decidable (_ ∨ (_ ∧ _)))

/-- A transaction of the pool, with the fee rate and the time by which it is sorted: those of the
last `add_tx`, which `validate` does not carry over to the metadata. -/
structure PoolTx where
  id : Hash
  tx : Transaction
  info : TxpoolTxMeta
  sortRate : ℕ
  sortTime : UInt64
  deriving DecidableEq, Repr

def PoolTx.entry (e : PoolTx) : SortedTx := ⟨e.sortRate, e.sortTime, e.id⟩

def weightsOf (txs : List PoolTx) : ℕ := txs.foldr (fun e weight => e.info.weight + weight) 0

structure TxPool where
  txs : List PoolTx := []
  nodup : (txs.map (·.id)).Nodup := by exact List.nodup_nil
  txpoolWeight : UInt64 := 0
  spentKeyImages : Index KeyImage Hash := Index.empty
  timedOutTransactions : List Hash := []
  maxWeight : ℕ := defaultTxpoolMaxWeight
  cookie : ℕ := 0

/-- Whether an input's key image is spent; an input that is not `txin_to_key` counts as spent. -/
def TxIn.spent (spent : KeyImage → Bool) : TxIn → Bool
  | .toKey _ _ k => spent k
  | _ => true

/-- `insert_key_images`. It stops where an input fails, with what it has done so far. -/
def insertKeyImages (keptByBlock : Bool) (id : Hash) :
    List TxIn → Index KeyImage Hash → Bool × Index KeyImage Hash
  | [], index => (true, index)
  | .toKey _ _ k :: rest, index =>
    let set := index.ids k
    if ¬(keptByBlock ∨ set = ∅) then (false, index.put k (some set))
    else if id ∈ set then (false, index.put k (some set))
    else insertKeyImages keptByBlock id rest (index.add k id)
  | _ :: _, index => (false, index)

/-- `remove_transaction_keyimages`. It stops where an input fails, too. -/
def removeTransactionKeyimages (id : Hash) :
    List TxIn → Index KeyImage Hash → Bool × Index KeyImage Hash
  | [], index => (true, index)
  | .toKey _ _ k :: rest, index =>
    match index k with
    | none => (false, index)
    | some set =>
      if set = ∅ then (false, index)
      else if id ∉ set then (false, index)
      else removeTransactionKeyimages id rest (index.drop k id)
  | _ :: _, index => (false, index)

/-- The transactions that `mark_double_spend` looks at: it stops at an input that is not
`txin_to_key`. -/
def doubleSpenders (index : Index KeyImage Hash) : List TxIn → Finset Hash
  | .toKey _ _ k :: rest => index.ids k ∪ doubleSpenders index rest
  | _ => ∅

def haveTxKeyimgAsSpent (index : Index KeyImage Hash) (k : KeyImage) : Bool := (index k).isSome

def Blockchain.haveTxKeyimgesAsSpent (bc : Blockchain) (tx : Transaction) : Bool :=
  tx.vin.any (TxIn.spent bc.db.hasKeyImage)

namespace TxPool

variable (pool : TxPool)

def ids : List Hash := pool.txs.map (·.id)

def find? (id : Hash) : Option PoolTx := Keyed.lookup (·.id) id pool.txs

def weight : ℕ := weightsOf pool.txs

def haveTxKeyimgesAsSpent (tx : Transaction) : Bool :=
  tx.vin.any (TxIn.spent (haveTxKeyimgAsSpent pool.spentKeyImages))

def keep (p : PoolTx → Bool) : TxPool :=
  { pool with
    txs := pool.txs.filter p
    nodup := pool.nodup.sublist (List.filter_sublist.map _) }

def mapInfo (f : PoolTx → TxpoolTxMeta) : TxPool :=
  { pool with
    txs := pool.txs.map fun e => { e with info := f e }
    nodup := by
      rw [List.map_map]
      exact pool.nodup }

def updateTxpoolTx (id : Hash) (info : TxpoolTxMeta) : TxPool :=
  pool.mapInfo fun e => if e.id = id then info else e.info

def markDoubleSpend (tx : Transaction) : TxPool :=
  let ids := doubleSpenders pool.spentKeyImages tx.vin
  let marked := pool.mapInfo fun e =>
    if e.id ∈ ids then { e.info with doubleSpendSeen := true } else e.info
  { marked with cookie := if marked.txs = pool.txs then pool.cookie else pool.cookie + 1 }

/-- Whether `a` comes before `b` when it is inserted: a higher fee rate first, then the earlier
one. -/
def comesBefore (a b : PoolTx) : Prop := a.entry.before b.entry

instance : DecidableRel comesBefore := fun a b =>
  inferInstanceAs (Decidable (a.entry.before b.entry))

def insert (pool : TxPool) (e : PoolTx) (h : e.id ∉ pool.ids) : TxPool :=
  { pool with
    txs := pool.txs.orderedInsert comesBefore e
    nodup := by
      have hperm := (List.perm_orderedInsert comesBefore e pool.txs).map (·.id)
      rw [hperm.nodup_iff, List.map_cons, List.nodup_cons]
      exact ⟨h, pool.nodup⟩
    txpoolWeight := pool.txpoolWeight + UInt64.ofNat e.info.weight
    spentKeyImages :=
      (insertKeyImages e.info.keptByBlock e.id e.tx.vin pool.spentKeyImages).2
    cookie := pool.cookie + 2 }

/-- What `prune` and `take_tx` share: the transaction is removed, then its weight and its key
images. -/
def removeTx (e : PoolTx) : TxPool :=
  let removed := removeTransactionKeyimages e.id e.tx.vin pool.spentKeyImages
  { pool.keep fun a => decide (a.id ≠ e.id) with
    txpoolWeight := pool.txpoolWeight - UInt64.ofNat e.info.weight
    spentKeyImages := removed.2
    cookie := if removed.1 then pool.cookie + 1 else pool.cookie }

/-- The loop of `prune`, from the last transaction up, with whether anything was removed. The weight
of a pruned transaction is the largest number there is, so that the total wraps. -/
def pruneFrom (bytes : ℕ) : Bool → List PoolTx → TxPool → Bool × TxPool
  | changed, [], pool => (changed, pool)
  | changed, e :: rest, pool =>
    if pool.txpoolWeight.toNat ≤ bytes then (changed, pool)
    else if e.info.keptByBlock then pruneFrom bytes changed rest pool
    else pruneFrom bytes true rest (pool.removeTx e)

/-- `prune`. The first transaction is never removed. -/
def prune (bytes : ℕ) : TxPool :=
  let (changed, left) := pruneFrom bytes false pool.txs.tail.reverse pool
  { left with cookie := if changed then left.cookie + 1 else left.cookie }

def takeTx (id : Hash) : Option (PoolTx × TxPool) :=
  (pool.find? id).map fun e =>
    let left := pool.removeTx e
    (e, { left with cookie := left.cookie + 1 })

end TxPool

/-- `Blockchain::check_tx_inputs` with the block of the last ring member: its height and id. -/
def checkTxInputsFor (env : Env) (bc : Blockchain) (tx : Transaction) : Option (ℕ × Hash) :=
  match checkTxInputs env bc tx with
  | .error _ => none
  | .ok maxUsedBlockHeight =>
    (bc.db.getBlockHashFromHeight env maxUsedBlockHeight).map fun id => (maxUsedBlockHeight, id)

/-- The checks of `add_tx`; `spent` is whether the pool has a key image of the transaction. -/
def addTxChecks (env : Env) (bc : Blockchain) (timedOutTransactions : List Hash) (spent : Bool)
    (tx : Transaction) (id : Hash) (txWeight : ℕ) (keptByBlock : Bool) (version : ℕ) :
    Verdict Unit := do
  require (tx.version ≠ 0) (some .verifivationFailed)
  require (keptByBlock ∨ id ∉ timedOutTransactions) (some .verifivationFailed)
  require (checkInputsTypesSupported tx) (some .invalidInput)
  require (keptByBlock ∨ bc.checkFee txWeight tx.rctSignatures.txnFee) (some .feeTooLow)
  require (keptByBlock ∨ txWeight ≤ getTransactionWeightLimit version) (some .tooBig)
  require (keptByBlock ∨ tx.extra.length ≤ maxTxExtraSize) (some .txExtraTooBig)
  require (keptByBlock ∨ ¬spent) (some .doubleSpend)
  if keptByBlock then return () else checkTxOutputs env bc tx

namespace TxPool

/-- The transaction is stored and the pool pruned. The database refuses an id it has, and
`insert_key_images` a key image met twice. -/
def store (pool : TxPool) (e : PoolTx) : Verdict Unit × TxPool :=
  if h : e.id ∉ pool.ids ∧ e.tx.keyImages.Nodup then
    let pool := pool.insert e h.1
    (.ok (), pool.prune pool.maxWeight)
  else (.error none, pool)

/-- `add_tx`. A transaction of a block is stored even when its inputs fail, since it may become
valid again. -/
def addTx (ce : ChainEnv) (bc : Blockchain) (pool : TxPool) (tx : Transaction) (id : Hash)
    (txWeight : ℕ) (keptByBlock relayed doNotRelay : Bool) (version : ℕ) : Verdict Unit × TxPool :=
  let info : TxpoolTxMeta :=
    { weight := txWeight, fee := tx.rctSignatures.txnFee, receiveTime := ce.now,
      lastRelayedTime := ce.now, keptByBlock, relayed, doNotRelay, pruned := tx.pruned }
  let rate := ce.feeRate info.fee (if txWeight = 0 then 1 else txWeight)
  match addTxChecks ce.toEnv bc pool.timedOutTransactions (pool.haveTxKeyimgesAsSpent tx) tx id
      txWeight keptByBlock version with
  | .error flag =>
    (.error flag, if flag = some .doubleSpend then pool.markDoubleSpend tx else pool)
  | .ok () =>
    match checkTxInputsFor ce.toEnv bc tx with
    | none =>
      if keptByBlock then
        pool.store
          ⟨id, tx, { info with doubleSpendSeen := pool.haveTxKeyimgesAsSpent tx }, rate, ce.now⟩
      else (.error (some .invalidInput), pool)
    | some (height, blockId) =>
      pool.store
        ⟨id, tx, { info with maxUsedBlockHeight := height, maxUsedBlockId := blockId },
          rate, ce.now⟩

def addBlockTx (ce : ChainEnv) (bc : Blockchain) (version : ℕ) (pool : TxPool) (id : Hash)
    (tx : Transaction) : TxPool :=
  (pool.addTx ce bc tx id (ce.txWeight tx) true true false version).2

/-- One turn of the loop of `validate`: the transaction is taken out and added again as if it had
just been received. It counts as removed also when `prune` took it out again. -/
def revalidate (ce : ChainEnv) (bc : Blockchain) (version : ℕ) (pool : TxPool) (e : PoolTx) :
    Bool × TxPool :=
  match pool.takeTx e.id with
  | none => (false, pool)
  | some (taken, pool) =>
    match pool.addTx ce bc taken.tx e.id e.info.weight false taken.info.relayed
        taken.info.doNotRelay version with
    | (.error _, pool) => (true, pool)
    | (.ok (), pool) => ((pool.find? e.id).isNone, pool.updateTxpoolTx e.id e.info)

def inKeyOrder (rank : Hash → ℕ) (pool : TxPool) : List PoolTx :=
  pool.txs.insertionSort fun a b => rank a.id ≤ rank b.id

def validate (ce : ChainEnv) (bc : Blockchain) (version : ℕ) (pool : TxPool) : TxPool :=
  let txes := (pool.inKeyOrder ce.keyRank).filter fun e => !e.info.pruned
  let (removed, left) := txes.foldl (fun s e =>
    let turn := revalidate ce bc version s.2 e
    (s.1 || turn.1, turn.2)) (false, pool)
  { left with cookie := if removed then left.cookie + 1 else left.cookie }

end TxPool

end Nerva
