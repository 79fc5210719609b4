import Nerva.MainChain

/-!
# Block templates

`create_block_template` on the main chain: the header, the transactions that
`fill_block_template` picks from the pool, and a coinbase whose reward depends on the weight of the
block it is itself a part of. The block is tried with a guessed weight until the guess fits.
-/

namespace Nerva

/-- What making a coinbase takes from outside. The one-time key is drawn anew at each attempt,
which the first argument counts. -/
structure MinerEnv extends ChainEnv where
  /-- The sorted extra field with the public key and the extra nonce; none when it cannot be
  made. -/
  coinbaseExtra : ℕ → Blob → Option Blob
  coinbaseKey : ℕ → AccountPublicAddress → Option PublicKey
  /-- `template_accept_threshold`, a product in single precision. -/
  templateAcceptThreshold : UInt64 → UInt64

def Blockchain.getBlockIdByHeight (env : Env) (bc : Blockchain) (height : ℕ) : Hash :=
  (bc.db.getBlockHashFromHeight env height).getD nullHash

/-- Whether the inputs are known to fail on this chain, so that they are not checked again. -/
def TxpoolTxMeta.knownToFail (env : Env) (bc : Blockchain) (info : TxpoolTxMeta) : Bool :=
  if info.maxUsedBlockId = nullHash then
    info.lastFailedId ≠ nullHash && decide (info.lastFailedHeight < bc.db.height) &&
      info.lastFailedId = bc.getBlockIdByHeight env info.lastFailedHeight
  else
    decide (bc.db.height ≤ info.maxUsedBlockHeight) ||
      info.lastFailedId = bc.getBlockIdByHeight env info.lastFailedHeight

/-- `is_transaction_ready_to_go`, with the metadata as it leaves them. -/
def isTransactionReadyToGo (env : Env) (bc : Blockchain) (e : PoolTx) : Bool × TxpoolTxMeta :=
  if e.info.knownToFail env bc then (false, e.info)
  else
    match checkTxInputsFor env bc e.tx with
    | none =>
      let height := bc.db.height - 1
      (false, { e.info with
        lastFailedHeight := height, lastFailedId := bc.getBlockIdByHeight env height })
    | some (height, id) =>
      let info := { e.info with maxUsedBlockHeight := height, maxUsedBlockId := id }
      match checkTxOutputsExceptSubgroup env bc e.tx with
      | .error _ => (false, info)
      | .ok () =>
        if bc.haveTxKeyimgesAsSpent e.tx then (false, { info with doubleSpendSeen := true })
        else (true, info)

structure Fill where
  txHashes : List Hash := []
  totalWeight : ℕ := 0
  fee : UInt64 := 0
  bestCoinbase : UInt64
  kImages : List KeyImage := []
  pool : TxPool

/-- `have_key_images`: the loop ends at an input of another type. -/
def haveKeyImages (kImages : List KeyImage) : List TxIn → Bool
  | .toKey _ _ k :: rest => kImages.contains k || haveKeyImages kImages rest
  | _ => false

/-- The coinbase with a transaction added; none when it would make the block too heavy or is not
worth its weight. Version 0 has no such test. -/
def coinbaseWith (me : MinerEnv) (medianWeight : ℕ) (coins : UInt64) (version : ℕ) (f : Fill)
    (info : TxpoolTxMeta) : Option UInt64 :=
  if 1 ≤ version then
    match getBlockReward medianWeight (f.totalWeight + info.weight) coins version with
    | none => none
    | some blockReward =>
      let coinbase := blockReward + f.fee + info.fee
      if coinbase < me.templateAcceptThreshold f.bestCoinbase then none else some coinbase
  else some 0

/-- The part of a turn after the tests on weight: the transaction is taken if it is ready and none
of its key images is. -/
def fillReady (me : MinerEnv) (bc : Blockchain) (f : Fill) (e : PoolTx) (coinbase : UInt64) :
    Fill :=
  let (ready, info) := isTransactionReadyToGo me.toEnv bc e
  let f := { f with pool := f.pool.updateTxpoolTx e.id info }
  if ready && !haveKeyImages f.kImages e.tx.vin then
    { f with
      txHashes := f.txHashes ++ [e.id]
      totalWeight := f.totalWeight + e.info.weight
      fee := f.fee + e.info.fee
      bestCoinbase := coinbase
      kImages := f.kImages ++ e.tx.keyImages }
  else f

def Fill.skips (medianWeight : ℕ) (f : Fill) (info : TxpoolTxMeta) : Bool :=
  info.pruned ||
    decide (2 * medianWeight - coinbaseBlobReservedSize < f.totalWeight + info.weight)

/-- The loop of `fill_block_template`. Version 0 stops past the median weight. -/
def fillFrom (me : MinerEnv) (bc : Blockchain) (medianWeight : ℕ) (coins : UInt64) (version : ℕ) :
    List PoolTx → Fill → Fill
  | [], f => f
  | e :: rest, f =>
    if f.skips medianWeight e.info then fillFrom me bc medianWeight coins version rest f
    else if version < 1 ∧ medianWeight < f.totalWeight then f
    else
      match coinbaseWith me medianWeight coins version f e.info with
      | none => fillFrom me bc medianWeight coins version rest f
      | some coinbase =>
        fillFrom me bc medianWeight coins version rest (fillReady me bc f e coinbase)

def fillBlockTemplate (me : MinerEnv) (bc : Blockchain) (pool : TxPool) (medianWeight : ℕ)
    (coins : UInt64) (version : ℕ) : Fill :=
  fillFrom me bc medianWeight coins version pool.txs
    { bestCoinbase := (getBlockReward medianWeight 0 coins version).getD 0, pool }

def v2TxForkHeight : ℕ := 12

def constructMinerTx (me : MinerEnv) (attempt height medianWeight : ℕ) (coins : UInt64)
    (currentBlockWeight : ℕ) (fee : UInt64) (address : AccountPublicAddress) (exNonce : Blob)
    (version : ℕ) : Option Transaction := do
  let extra ← me.coinbaseExtra attempt exNonce
  let blockReward ← getBlockReward medianWeight currentBlockWeight coins version
  let key ← me.coinbaseKey attempt address
  return {
    version := if v2TxForkHeight ≤ version then 2 else 1
    unlockTime := UInt64.ofNat (height + coinbaseUnlockWindow version)
    vin := [.gen height]
    vout := [⟨blockReward + fee, .toKey key⟩]
    extra := extra
    rctSignatures := ⟨.null, 0, [], [], [], []⟩
    pruned := false }

inductive TryResult
  | fits (minerTx : Transaction)
  | again (cumulativeWeight : ℕ)
  | failed
  deriving DecidableEq, Repr

/-- A coinbase made for the guess is fitted to it: a heavier one raises the guess, a lighter one is
padded with zeros. -/
def fitCoinbase (env : Env) (txsWeight cumulativeWeight : ℕ) (minerTx : Transaction) : TryResult :=
  let coinbaseWeight := env.txWeight minerTx
  if cumulativeWeight - txsWeight < coinbaseWeight then .again (txsWeight + coinbaseWeight)
  else
    let delta := cumulativeWeight - txsWeight - coinbaseWeight
    let padded := { minerTx with extra := minerTx.extra ++ List.replicate delta 0 }
    if cumulativeWeight = txsWeight + env.txWeight padded then .fits padded
    else if coinbaseWeight < cumulativeWeight - txsWeight ∧
        cumulativeWeight + 1 = txsWeight + env.txWeight padded then
      -- the length of the extra field may have grown by a byte itself
      let shorter := { padded with extra := padded.extra.dropLast }
      if cumulativeWeight = txsWeight + env.txWeight shorter then .fits shorter
      else .again (cumulativeWeight + delta - 1)
    else .failed

def tryCoinbase (env : Env) (txsWeight : ℕ) (construct : ℕ → ℕ → Option Transaction) :
    ℕ → ℕ → ℕ → Option Transaction
  | 0, _, _ => none
  | fuel + 1, attempt, cumulativeWeight =>
    match construct attempt cumulativeWeight with
    | none => none
    | some minerTx =>
      match fitCoinbase env txsWeight cumulativeWeight minerTx with
      | .fits minerTx => some minerTx
      | .again cumulativeWeight =>
        tryCoinbase env txsWeight construct fuel (attempt + 1) cumulativeWeight
      | .failed => none

def Blockchain.windowTimestamps (bc : Blockchain) : List UInt64 :=
  let window := timestampCheckWindow bc.getCurrentHardForkVersion
  (bc.db.range (bc.db.height - window) bc.db.height).map (·.bl.timestamp)

def Blockchain.templateHeader (env : Env) (bc : Blockchain) (timestamp : UInt64) : Block where
  majorVersion := bc.hardfork.getCurrentVersion
  minorVersion := bc.hardfork.getIdealVersion
  timestamp := timestamp
  prevId := bc.db.topBlockHash env
  nonce := 0
  minerTx := ⟨0, 0, [], [], [], ⟨.null, 0, [], [], [], []⟩, false⟩
  txHashes := []

/-- The time on the clock, or the median of the last blocks when the clock is refused. -/
def Blockchain.templateTimestamp (env : Env) (bc : Blockchain) : UInt64 :=
  if bc.checkBlockTimestamp env (bc.templateHeader env env.now) then env.now
  else median bc.windowTimestamps

/-- A cached template at a later time: its timestamp does not go back. -/
def TemplateCache.refreshed (now : UInt64) (c : TemplateCache) : BlockTemplate :=
  let b := c.template.block
  { c.template with
    block := { b with timestamp := if b.timestamp < now then now else b.timestamp } }

namespace Node

/-- The template of an earlier call, when it was made for this address, nonce, pool and tip. -/
def cachedTemplate (me : MinerEnv) (node : Node) (address : AccountPublicAddress) (exNonce : Blob) :
    Option TemplateCache :=
  node.templateCache.filter fun c =>
    c.address = address && c.nonce = exNonce && c.poolCookie = node.pool.cookie &&
      c.template.block.prevId = node.bc.db.topBlockHash me.toEnv

def buildTemplate (me : MinerEnv) (node : Node) (address : AccountPublicAddress) (exNonce : Blob) :
    Option BlockTemplate × Node :=
  let height := node.bc.db.height
  let version := node.bc.hardfork.getCurrentVersion
  let medianWeight := node.bc.currentBlockCumulWeightLimit / 2
  let (diffic, bc) := getDifficultyForNextBlock me.toEnv me.fns node.bc
  let coins := bc.db.generatedCoins
  let header := bc.templateHeader me.toEnv (bc.templateTimestamp me.toEnv)
  if diffic = 0 then (none, { node with bc })
  else
    let f := fillBlockTemplate me bc node.pool medianWeight coins version
    let node := { node with bc, pool := f.pool }
    let construct := fun attempt weight =>
      constructMinerTx me attempt height medianWeight coins weight f.fee address exNonce version
    let minerTx := do
      let first ← construct 0 f.totalWeight
      tryCoinbase me.toEnv f.totalWeight construct 10 1 (f.totalWeight + me.txWeight first)
    (minerTx.map fun minerTx =>
      { block := { header with minerTx, txHashes := f.txHashes }
        diffic := diffic, height, expectedReward := f.bestCoinbase }, node)

/-- `create_block_template` without `from_block`. -/
def createBlockTemplate (me : MinerEnv) (node : Node) (address : AccountPublicAddress)
    (exNonce : Blob) : Option BlockTemplate × Node :=
  match node.cachedTemplate me address exNonce with
  | some c =>
    let template := c.refreshed me.now
    (some template, { node with templateCache := some { c with template } })
  | none =>
    let (template, node) := { node with templateCache := none }.buildTemplate me address exNonce
    (template, { node with
      templateCache := template.map fun template =>
        ⟨template, address, exNonce, node.pool.cookie⟩ })

end Node

end Nerva
