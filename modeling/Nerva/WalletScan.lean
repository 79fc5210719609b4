import Nerva.Wallet

/-!
# Scanning

`process_new_transaction` with the functions it calls, and `process_parsed_blocks`, which first
finds out for a whole batch of blocks which outputs are the wallet's and then takes the blocks one
after the other.
-/

namespace Nerva

open Checks

structure IsOutData where
  pkey : PublicKey
  derivation : Derivation
  received : List (Option SubaddressReceiveInfo)
  deriving DecidableEq, Repr

structure TxCacheData where
  txExtraFields : List TxExtraField
  primary : List IsOutData
  additional : List IsOutData
  deriving DecidableEq, Repr

def TxCacheData.empty : TxCacheData := ⟨[], [], []⟩

/-- The public keys of a transaction, in the order `find_tx_extra_field_by_type` finds them. -/
def txPubKeys (fields : List TxExtraField) : List PublicKey :=
  fields.filterMap fun
    | .pubKey key => some key
    | _ => none

def additionalTxPubKeys (fields : List TxExtraField) : List PublicKey :=
  (fields.findSome? fun
    | .additionalPubKeys keys => some keys
    | _ => none).getD []

structure TxScanInfo where
  /-- the key of `in_ephemeral` -/
  pub : PublicKey
  ki : KeyImage
  mask : Hash
  amount : UInt64
  moneyTransfered : UInt64
  error : Bool
  received : Option SubaddressReceiveInfo
  deriving DecidableEq, Repr

def TxScanInfo.initial : TxScanInfo where
  pub := 0
  ki := 0
  mask := 0
  amount := 0
  moneyTransfered := 0
  error := true
  received := none

/-- `std::unordered_map<subaddress_index, uint64_t>`, with what `operator[]` does. -/
abbrev Money := List (SubaddressIndex × UInt64)

namespace Money

def get : Money → SubaddressIndex → UInt64
  | [], _ => 0
  | (index, amount) :: money, i => if index = i then amount else get money i

def set : Money → SubaddressIndex → UInt64 → Money
  | [], i, v => [(i, v)]
  | (index, amount) :: money, i, v =>
    if index = i then (index, v) :: money else (index, amount) :: set money i v

end Money

structure NewTransaction where
  txid : Hash
  tx : Transaction
  oIndices : List UInt64
  height : ℕ
  ts : UInt64
  minerTx : Bool
  pool : Bool
  txCacheData : TxCacheData

section Scan

variable (acct : Account)

/-- With the account's view key; the identity where there is no derivation. -/
def keyDerivation (key : PublicKey) : Derivation :=
  (acct.generateKeyDerivation key).getD rctIdentity

def checkAccOutPrecomp (subaddresses : PublicKey → Option SubaddressIndex) (o : TxOut)
    (derivation : Derivation) (additionalDerivations : List Derivation) (i : ℕ)
    (info : TxScanInfo) : TxScanInfo :=
  match o.target with
  | .toKey key =>
    let received := isOutToAccPrecomp acct subaddresses key derivation additionalDerivations i
    { info with
      received
      moneyTransfered := if received.isSome then o.amount else 0
      error := false }
  | _ => { info with error := true }

/-- `check_acc_out_precomp` with what has been found out before, as far as that goes. -/
def checkAccOutCached (subaddresses : PublicKey → Option SubaddressIndex) (o : TxOut)
    (derivation : Derivation) (additionalDerivations : List Derivation) (i : ℕ)
    (isOutData : Option IsOutData) (info : TxScanInfo) : TxScanInfo :=
  match isOutData.bind fun data => data.received[i]? with
  | none => checkAccOutPrecomp acct subaddresses o derivation additionalDerivations i info
  | some received =>
    { info with
      received
      moneyTransfered := if received.isSome then o.amount else 0
      error := false }

/-- What `process_new_transaction` knows of the outputs: the scan data, which have been found, the
money received by subaddress, and the outputs found with the current public key. -/
structure OutputScan where
  infos : List TxScanInfo
  found : List Bool
  got : Money
  outs : List ℕ
  deriving DecidableEq, Repr

structure Round where
  derivation : Derivation
  additionalDerivations : List Derivation
  isOutData : Option IsOutData

def checkAccOutPrecompOnce (subaddresses : PublicKey → Option SubaddressIndex) (tx : Transaction)
    (r : Round) (scan : OutputScan) (i : ℕ) : OutputScan :=
  match tx.vout[i]?, scan.infos[i]?, scan.found[i]? with
  | some o, some info, some alreadySeen =>
    let info := { info with received := none }
    if alreadySeen then { scan with infos := scan.infos.set i info }
    else
      let info := checkAccOutCached acct subaddresses o r.derivation r.additionalDerivations i
        r.isOutData info
      { scan with
        infos := scan.infos.set i info
        found := scan.found.set i info.received.isSome }
  | _, _, _ => scan

variable (w : Wallet)

def outputKeyImage (key : PublicKey) (i : ℕ) (received : SubaddressReceiveInfo) :
    Except WalletError (PublicKey × KeyImage) :=
  if w.multisig then .ok (key, 0)
  else do
    let (pub, ki) ← demand (acct.generateKeyImage key received.derivation i received.index)
      (.internal "Failed to generate key image")
    require (pub = key)
      (.internal "key_image generated ephemeral public key not matched with output_key")
    return (pub, ki)

def decodeMoney (tx : Transaction) (minerTx : Bool) (i : ℕ) (info : TxScanInfo)
    (received : SubaddressReceiveInfo) : UInt64 × Hash :=
  if info.moneyTransfered = 0 ∧ ¬minerTx then
    acct.decodeRct tx.rctSignatures received.derivation i
  else (info.moneyTransfered, info.mask)

def scanOutput (tx : Transaction) (minerTx : Bool) (scan : OutputScan) (i : ℕ) (info : TxScanInfo)
    (received : SubaddressReceiveInfo) : Except WalletError OutputScan := do
  require (¬w.passwordRefused) .passwordNeeded
  let key ← demand (tx.vout[i]?.bind TxOut.key?) .badGet
  let (pub, ki) ← outputKeyImage acct w key i received
  require (i ∉ scan.outs) (.internal "Same output cannot be added twice")
  let (money, mask) := decodeMoney acct tx minerTx i info received
  let info := { info with pub, ki, mask, moneyTransfered := money }
  if money = 0 then
    return { scan with infos := scan.infos.set i { info with error := true } }
  let got := scan.got.get received.index
  require (got < uint64Max - money) (.internal "Overflow in received amounts")
  return { scan with
    infos := scan.infos.set i { info with amount := money }
    got := scan.got.set received.index (got + money)
    outs := scan.outs ++ [i] }

def takeOutput (tx : Transaction) (minerTx : Bool) (scan : OutputScan) (i : ℕ) :
    Except WalletError OutputScan := do
  let info ← demand scan.infos[i]? .outOfRange
  require (¬info.error) .accOutsLookup
  match info.received with
  | none => return scan
  | some received => scanOutput acct w tx minerTx scan i info received

variable (t : NewTransaction)

/-- The outputs of a transaction for one of its public keys. The code also has a loop that checks
all outputs in the thread pool before it takes the first; the outcome is that of the last loop. -/
def scanOutputs (r : Round) (scan : OutputScan) :
    Except WalletError OutputScan := do
  let check := checkAccOutPrecompOnce acct w.subaddresses t.tx r
  let all := List.range t.tx.vout.length
  if t.minerTx ∧ w.refreshType = .noCoinbase then
    return scan
  else if t.minerTx ∧ w.refreshType = .optimizeCoinbase then
    let scan := check scan 0
    let first ← demand scan.infos[0]? .outOfRange
    require (¬first.error) .accOutsLookup
    if first.received.isNone then
      return scan
    all.foldlM (takeOutput acct w t.tx t.minerTx) (all.tail.foldl check scan)
  else
    all.foldlM (fun scan i => takeOutput acct w t.tx t.minerTx (check scan i) i) scan

structure Processing where
  wallet : Wallet
  infos : List TxScanInfo
  found : List Bool
  got : Money
  totalReceived1 : UInt64

/-- `tx.vout[o].amount ? tx.vout[o].amount : tx_scan_info[o].amount` -/
def receivedAmount (out : TxOut) (info : TxScanInfo) : UInt64 :=
  if out.amount ≠ 0 then out.amount else info.amount

/-- The fields of a transfer that come from the output received, for a new transfer as for one that
is replaced. -/
def TransferDetails.receive (td : TransferDetails) (t : NewTransaction) (pkIndex o : ℕ)
    (globalOutputIndex : UInt64) (out : TxOut) (info : TxScanInfo)
    (received : SubaddressReceiveInfo) : TransferDetails :=
  { td with
    blockHeight := t.height
    internalOutputIndex := o
    globalOutputIndex
    tx := t.tx.toTransactionPrefix
    txid := t.txid
    amount := receivedAmount out info
    pkIndex
    subaddrIndex := received.index
    mask := if out.amount = 0 then info.mask else rctIdentity
    rct := out.amount = 0 || (t.minerTx && t.tx.version = 2) }

def newKeyImage (info : TxScanInfo) : KeyImage × Bool :=
  if !w.watchOnly && !w.multisig then (info.ki, true)
  else
    match w.coldKeyImages info.pub with
    | some ki => (ki, true)
    | none => (info.ki, false)

def Wallet.track (amount globalOutputIndex : UInt64) (idx : ℕ) : Wallet :=
  { w with outputTrackerCache :=
      w.outputTrackerCache.map fun cache =>
        Function.update cache (amount, globalOutputIndex) (some idx) }

def newTransfer (pkIndex o : ℕ) (globalOutputIndex : UInt64) (out : TxOut) (info : TxScanInfo)
    (received : SubaddressReceiveInfo) : TransferDetails :=
  { TransferDetails.blank.receive t pkIndex o globalOutputIndex out info received with
    keyImage := (newKeyImage w info).1
    keyImageKnown := (newKeyImage w info).2
    keyImageRequest := w.watchOnly
    keyImagePartial := w.multisig }

def addTransfer (pkIndex o : ℕ) (globalOutputIndex : UInt64) (out : TxOut) (info : TxScanInfo)
    (received : SubaddressReceiveInfo) : Wallet :=
  let td := newTransfer w t pkIndex o globalOutputIndex out info received
  let idx := w.transfers.length
  let w := { w with transfers := w.transfers ++ [td] }.expandSubaddresses acct received.index
  let w := { w with
    keyImages := if td.keyImageKnown then Function.update w.keyImages td.keyImage (some idx)
      else w.keyImages
    pubKeys := Function.update w.pubKeys info.pub (some idx) }
  w.track out.amount globalOutputIndex idx

def replaceTransfer (pkIndex o : ℕ) (globalOutputIndex : UInt64) (out : TxOut) (info : TxScanInfo)
    (received : SubaddressReceiveInfo) (idx : ℕ) : Wallet :=
  let w := (w.modifyTransfer idx (·.receive t pkIndex o globalOutputIndex out info received)
    ).expandSubaddresses acct received.index
  w.track out.amount globalOutputIndex idx

def receiveOutput (pkIndex : ℕ) (p : Processing) (o : ℕ) :
    Except Thrown Processing := do
  let w := p.wallet
  let out ← demand t.tx.vout[o]? (w, .internal "wrong out in transaction")
  let info ← demand p.infos[o]? (w, .outOfRange)
  let received ← demand info.received (w, .outOfRange)
  match w.pubKeys info.pub with
  | none =>
    let amount := receivedAmount out info
    let p := { p with totalReceived1 := p.totalReceived1 + amount }
    if t.pool then
      return p
    let globalOutputIndex ← demand t.oIndices[o]? (w, .outOfRange)
    return { p with wallet := addTransfer acct w t pkIndex o globalOutputIndex out info received }
  | some idx =>
    let td ← demand w.transfers[idx]?
      (w, .internal "Unexpected transfer index from public key")
    let got := p.got.get received.index
    require (¬got < info.amount) (w, .internal "Unexpected values of new and old outputs")
    if td.spent ∨ info.amount ≤ td.amount then
      return { p with got := p.got.set received.index (got - info.amount) }
    let extraAmount := receivedAmount out info - td.amount
    let p := { p with
      got := p.got.set received.index (got - td.amount)
      totalReceived1 := p.totalReceived1 + extraAmount }
    if t.pool then
      return p
    let globalOutputIndex ← demand t.oIndices[o]? (w, .outOfRange)
    return { p with
      wallet := replaceTransfer acct w t pkIndex o globalOutputIndex out info received idx }

/-- The derivations for one public key of the transaction; the additional ones go with the first. -/
def round (fields : List TxExtraField) (pkIndex : ℕ) (key : PublicKey) : Except WalletError Round :=
  if t.txCacheData.primary = [] then
    .ok {
      derivation := keyDerivation acct key
      additionalDerivations := if pkIndex = 0
        then (additionalTxPubKeys fields).map (keyDerivation acct) else []
      isOutData := none }
  else do
    let data ← demand t.txCacheData.primary[pkIndex]? (.internal "tx_cache_data is out of sync")
    require (key = data.pkey) (.internal "tx_cache_data is out of sync")
    return {
      derivation := data.derivation
      additionalDerivations := if pkIndex = 0
        then t.txCacheData.additional.map IsOutData.derivation else []
      isOutData := some data }

def processPubKey (fields : List TxExtraField) (p : Processing) (key : PublicKey × ℕ) :
    Except Thrown Processing := do
  let (key, pkIndex) := key
  let r ← (round acct t fields pkIndex key).mapError (p.wallet, ·)
  let scan ← (scanOutputs acct p.wallet t r ⟨p.infos, p.found, p.got, []⟩).mapError (p.wallet, ·)
  let p := { p with infos := scan.infos, found := scan.found, got := scan.got }
  if scan.outs = [] then
    return p
  require (t.pool ∨ t.tx.vout.length = t.oIndices.length)
    (p.wallet, .internal "transactions outputs size not match with daemon response size")
  scan.outs.foldlM (receiveOutput acct t pkIndex) p

structure Spending where
  wallet : Wallet
  /-- `tx_money_spent_in_ins` -/
  spent : UInt64
  subaddrAccount : Option ℕ

def Wallet.trackUse (amount : UInt64) (keyOffsets : List UInt64) : Except Thrown Wallet :=
  let offsets := relativeOutputOffsetsToAbsolute keyOffsets
  let use (td : TransferDetails) := { td with uses := td.uses ++ [(t.height, t.txid)] }
  match w.outputTrackerCache with
  | some cache =>
    offsets.foldlM (fun w offset =>
      match cache (amount, offset) with
      | none => .ok w
      | some idx => do
        require (idx < w.transfers.length) (w, .internal "Output tracker cache index out of range")
        return w.modifyTransfer idx use) w
  | none =>
    .ok { w with
      transfers := w.transfers.map fun td =>
        (offsets.filter (· = td.globalOutputIndex)).foldl (fun td _ => use td) td }

/-- An input that spends one of the wallet's outputs. An amount other than the one held is taken
over. -/
def Wallet.spend (idx : ℕ) (height : ℕ) (amount : UInt64) : Wallet :=
  (w.modifyTransfer idx fun td =>
    if 0 < amount then { td with amount } else td).setSpent idx height

def spendKeyImage (s : Spending) (amount : UInt64) (kImage : KeyImage) : Except Thrown Spending :=
  match s.wallet.keyImages kImage with
  | none => .ok s
  | some idx => do
    let td ← demand s.wallet.transfers[idx]? (s.wallet, .outOfRange)
    return {
      wallet := s.wallet.spend idx t.height amount
      spent := s.spent + if 0 < amount then amount else td.amount
      subaddrAccount := some td.subaddrIndex.major }

def spendInput (s : Spending) (input : TxIn) : Except Thrown Spending :=
  match input with
  | .toKey amount keyOffsets kImage => do
    let s ← spendKeyImage t s amount kImage
    if t.pool ∨ ¬s.wallet.trackUses then
      return s
    return { s with wallet := ← s.wallet.trackUse t amount keyOffsets }
  | _ => .ok s

def sumAmounts (l : List UInt64) : UInt64 := l.foldl (· + ·) 0

/-- What was received outside the account that has spent, as payments. -/
def Wallet.addPayments (paymentId : Hash) (money : Money) : Wallet :=
  { w with
    payments := w.payments ++ money.map fun (subaddrIndex, amount) =>
      { paymentId, subaddrIndex, amount
        txHash := t.txid
        fee := if t.minerTx then 0 else t.tx.rctSignatures.txnFee
        blockHeight := t.height
        unlockTime := t.tx.unlockTime
        timestamp := t.ts
        coinbase := t.minerTx } }

/-- The end of `process_new_transaction`: change goes out of what has been received, the totals are
compared, and the payments are noted. -/
def settle (fields : List TxExtraField) (p : Processing) (s : Spending) :
    Except Thrown Processing := do
  let p := { p with wallet := s.wallet }
  let isChange (money : SubaddressIndex × UInt64) := s.subaddrAccount = some money.1.major
  let change := p.got.filter fun money => isChange money
  let rest := p.got.filter fun money => ¬isChange money
  if rest = [] then
    return p
  let subChange := sumAmounts (change.map (·.2))
  let totalReceived2 := (rest.map (·.2)).foldl (· + ·) subChange
  require (p.totalReceived1 = totalReceived2) (p.wallet, .exit)
  if t.pool then
    return p
  let txPubKey := ((txPubKeys fields).getLast?).getD 0
  return { p with wallet := p.wallet.addPayments t (acct.getPaymentId fields txPubKey) rest }

def NewTransaction.txExtraFields (t : NewTransaction) : List TxExtraField :=
  if t.txCacheData.txExtraFields = [] then acct.parseTxExtra t.tx.extra
  else t.txCacheData.txExtraFields

def receiveOutputs : Except Thrown Processing :=
  let fields := t.txExtraFields acct
  let n := t.tx.vout.length
  let keys := if n = 0 then [] else (txPubKeys fields).zipIdx
  keys.foldlM (processPubKey acct t fields) {
    wallet := w
    infos := List.replicate n .initial
    found := List.replicate n false
    got := []
    totalReceived1 := 0 }

def processNewTransaction : Except Thrown Processing := do
  let p ← receiveOutputs acct w t
  let s ← t.tx.vin.foldlM (spendInput t) ⟨p.wallet, 0, none⟩
  settle acct t (t.txExtraFields acct) p s

/-- A `parsed_block`, with the number of transactions of the entry it was parsed from. -/
structure ParsedBlock where
  hash : Hash
  block : Block
  txes : List Transaction
  oIndices : List (List UInt64)
  entryTxs : ℕ

/-- A day, for a clock that was set wrong when the wallet was made. -/
@[irreducible] def createtimeMargin : UInt64 := 60 * 60 * 24

def shouldSkipBlock (b : Block) (height : ℕ) : Prop :=
  ¬(w.createtime < b.timestamp + createtimeMargin ∧ w.refreshFromBlockHeight ≤ height)

instance (w : Wallet) (b : Block) (height : ℕ) : Decidable (shouldSkipBlock w b height) :=
  inferInstanceAs (Decidable (¬_))

/-- `cache_tx_data`, with the derivations that are filled in after it. -/
def cacheTxData (refreshType : RefreshType) (tx : Transaction) : TxCacheData :=
  let fields := acct.parseTxExtra tx.extra
  if (tx.isCoinbase ∧ refreshType = .noCoinbase) ∨ tx.vout = [] then ⟨fields, [], []⟩
  else
    let recSize := if tx.isCoinbase ∧ refreshType = .optimizeCoinbase then 1 else tx.vout.length
    { txExtraFields := fields
      primary := (txPubKeys fields).map fun key =>
        ⟨key, keyDerivation acct key, List.replicate recSize none⟩
      additional := (additionalTxPubKeys fields).map fun key => ⟨key, keyDerivation acct key, []⟩ }

/-- `geniod`: which of the first outputs are the wallet's, for each public key. The additional
derivations go with the first one. -/
def geniod (subaddresses : PublicKey → Option SubaddressIndex) (tx : Transaction) (nVouts : ℕ)
    (data : TxCacheData) : Except WalletError TxCacheData := do
  let key? (k : ℕ) := (tx.vout.take nVouts)[k]?.bind TxOut.key?
  require ((∀ k < nVouts, key? k = none) ∨ ∀ iod ∈ data.primary, iod.received.length = nVouts)
    (.internal "Unexpected received array size")
  return { data with
    primary := data.primary.zipIdx.map fun (iod, l) => { iod with
      received := iod.received.zipIdx.map fun (old, k) =>
        match key? k with
        | none => old
        | some key => isOutToAccPrecomp acct subaddresses key iod.derivation
            (if l = 0 then data.additional.map IsOutData.derivation else []) k } }

def cacheMinerTx (tx : Transaction) : Except WalletError TxCacheData :=
  if w.refreshType = .noCoinbase then .ok .empty
  else geniod acct w.subaddresses tx
    (if w.refreshType = .optimizeCoinbase then 1 else tx.vout.length)
    (cacheTxData acct w.refreshType tx)

def cacheBlock (b : ParsedBlock) (height : ℕ) : Except WalletError (List TxCacheData) :=
  if shouldSkipBlock w b.block height then .ok (List.replicate (1 + b.txes.length) .empty)
  else do
    let miner ← cacheMinerTx acct w b.block.minerTx
    let others ← b.txes.mapM fun tx =>
      geniod acct w.subaddresses tx tx.vout.length (cacheTxData acct w.refreshType tx)
    return miner :: others

def processBlockTransaction (b : ParsedBlock) (height : ℕ) (txCacheData : List TxCacheData)
    (minerTx : Bool) (w : Wallet) (entry : (Hash × Transaction) × ℕ) : Except Thrown Wallet := do
  let ((txid, tx), i) := entry
  let oIndices ← demand b.oIndices[i]? (w, .outOfRange)
  let txCacheData ← demand txCacheData[i]? (w, .outOfRange)
  let p ← processNewTransaction acct w {
    txid, tx, oIndices, height, minerTx, txCacheData
    ts := b.block.timestamp
    pool := false }
  return p.wallet

def processBlockTransactions (b : ParsedBlock) (height : ℕ) (txCacheData : List TxCacheData) :
    Except Thrown Wallet := do
  let miner := ((acct.getTransactionHash b.block.minerTx, b.block.minerTx), 0)
  let w ← (if w.refreshType = .noCoinbase then .ok w
    else processBlockTransaction acct b height txCacheData true w miner)
  require (b.entryTxs = b.block.txHashes.length ∧ b.entryTxs = b.txes.length)
    (w, .internal "Wrong amount of transactions for block")
  ((b.block.txHashes.zip b.txes).zipIdx 1).foldlM
    (processBlockTransaction acct b height txCacheData false) w

def processNewBlockchainEntry (b : ParsedBlock) (height : ℕ) (txCacheData : List TxCacheData) :
    Except Thrown Wallet := do
  require (b.entryTxs + 1 = b.oIndices.length)
    (w, .internal "block transactions not match with daemon response size")
  let w ← (if shouldSkipBlock w b.block height then .ok w
    else processBlockTransactions acct w b height txCacheData)
  return { w with blockchain := w.blockchain.pushBack b.hash }

def processParsedBlock (startHeight : ℕ) (w : Wallet)
    (entry : (ParsedBlock × List TxCacheData) × ℕ) :
    Except Thrown Wallet := do
  let ((b, data), i) := entry
  let currentIndex := startHeight + i
  match w.blockchain.get currentIndex with
  | none => processNewBlockchainEntry acct w b currentIndex data
  | some hash =>
    if b.hash = hash then
      return w
    require (currentIndex ≠ startHeight)
      (w, .internal "wrong daemon response: split starts from the first block in response")
    let w ← w.detachBlockchain currentIndex
    processNewBlockchainEntry acct w b currentIndex data

def processParsedBlocks (startHeight : ℕ) (blocks : List ParsedBlock) :
    Except Thrown Wallet := do
  require (w.blockchain.isInBounds startHeight) (w, .outOfHashchainBounds)
  require (∀ b ∈ blocks, b.txes.length = b.block.txHashes.length)
    (w, .internal "Mismatched parsed_blocks[i].txes.size() and tx_hashes.size()")
  let data ←
    (blocks.zipIdx.mapM fun (b, i) => cacheBlock acct w b (startHeight + i)).mapError (w, ·)
  (blocks.zip data).zipIdx.foldlM (processParsedBlock acct startHeight) w

inductive ScanCall
  | blocks (startHeight : ℕ) (blocks : List ParsedBlock)
  | transaction (t : NewTransaction)

def Wallet.scan : ScanCall → Wallet
  | .blocks startHeight blocks => Wallet.after (processParsedBlocks acct w startHeight blocks)
  | .transaction t => Wallet.after ((processNewTransaction acct w t).map (·.wallet))

end Scan

end Nerva
