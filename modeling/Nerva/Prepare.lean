import Nerva.Difficulty
import Nerva.TxChecks

/-!
# Preparing a batch of blocks

`prepare_handle_incoming_blocks` and `cleanup_handle_incoming_blocks` of `core` and `Blockchain`.
Preparing takes two locks and a database batch that cleaning up gives back, and looks ring members
up ahead. `cancel` gives the answers to the polls of `m_cancel`, in order.
-/

namespace Nerva

abbrev ScanTable := List (Hash × List (KeyImage × List OutputData))

inductive ScanExit
  | cancelled (table : ScanTable)
  | quit
  /-- `boost::get<txin_to_key>` throws on an input of another type. -/
  | badGet (table : ScanTable)

structure Scan where
  txes : List (Transaction × Hash) := []
  table : ScanTable := []

/-- The loop over a transaction's inputs; `known` is what the scan table has for it. -/
def scanInputs (table : ScanTable) (known : List (KeyImage × List OutputData)) :
    List TxIn → Except ScanExit Unit
  | [] => .ok ()
  | .toKey _ _ kImage :: rest =>
    if (known.lookup kImage).isSome then .error .quit else scanInputs table known rest
  | _ :: _ => .error (.badGet table)

def scanTx (env : Env) (scan : Scan) (entry : TxBlobEntry) : Except ScanExit Scan :=
  match env.parseTxBase entry.blob with
  | none => .error .quit
  | some tx =>
    let txPrefixHash := env.txPrefixHash tx
    if (scan.table.lookup txPrefixHash).isSome then .error .quit
    else do
      -- the entry is emplaced empty, so that no key image is ever found in it
      let table := scan.table ++ [(txPrefixHash, [])]
      scanInputs table [] tx.vin
      return { txes := scan.txes ++ [(tx, txPrefixHash)], table }

def scanEntries (env : Env) (cancel : ℕ → Bool) :
    ℕ → List BlockCompleteEntry → Scan → Except ScanExit Scan
  | _, [], scan => .ok scan
  | poll, entry :: entries, scan =>
    if cancel poll then .error (.cancelled scan.table)
    else do
      let scan ← entry.txs.foldlM (scanTx env) scan
      scanEntries env cancel (poll + 1) entries scan

def TxIn.offsetsAt (amount : UInt64) : TxIn → List UInt64
  | .toKey a keyOffsets _ => if a = amount then relativeOutputOffsetsToAbsolute keyOffsets else []
  | _ => []

/-- `offset_map[amount]` after the first pass, sorted and without duplicates. -/
def offsetMap (txes : List (Transaction × Hash)) (amount : UInt64) : List UInt64 :=
  ((txes.flatMap fun x => x.1.vin.flatMap (TxIn.offsetsAt amount)).insertionSort (· ≤ ·)).dedup

/-- `tx_map[amount]`, as `output_scan_worker` fills it. -/
def txMap (env : Env) (bc : Blockchain) (txes : List (Transaction × Hash)) (amount : UInt64) :
    List OutputData :=
  bc.db.getOutputKeys env amount (bulletproofFullForkHeight ≤ bc.getCurrentHardForkVersion)
    (offsetMap txes amount)

def foundOutputs (offsets : List UInt64) (found : List OutputData) : List UInt64 → List OutputData
  | [] => []
  | offset :: rest =>
    match found[offsets.idxOf offset]? with
    | some output => output :: foundOutputs offsets found rest
    | none => []

def fillInputs (env : Env) (bc : Blockchain) (txes : List (Transaction × Hash))
    (table : ScanTable) :
    List TxIn → List (KeyImage × List OutputData) →
      Except ScanExit (List (KeyImage × List OutputData))
  | [], known => .ok known
  | .toKey amount keyOffsets kImage :: rest, known =>
    let outputs := foundOutputs (offsetMap txes amount) (txMap env bc txes amount)
      (relativeOutputOffsetsToAbsolute keyOffsets)
    fillInputs env bc txes table rest
      (if (known.lookup kImage).isSome then known else known ++ [(kImage, outputs)])
  | _ :: _, _ => .error (.badGet table)

def ScanTable.set (table : ScanTable) (hash : Hash) (known : List (KeyImage × List OutputData)) :
    ScanTable :=
  table.map fun x => if x.1 = hash then (hash, known) else x

/-- The second pass over one block's transactions; `rest` are those of `txes` still to come. -/
def fillTxs (env : Env) (bc : Blockchain) (txes : List (Transaction × Hash)) :
    List TxBlobEntry → List (Transaction × Hash) → ScanTable →
      Except ScanExit (List (Transaction × Hash) × ScanTable)
  | [], rest, table => .ok (rest, table)
  | _ :: _, [], _ => .error .quit
  | _ :: entries, (tx, hash) :: rest, table =>
    match table.lookup hash with
    | none => .error .quit
    | some known => do
      let known ← fillInputs env bc txes table tx.vin known
      fillTxs env bc txes entries rest (table.set hash known)

def fillEntries (env : Env) (bc : Blockchain) (txes : List (Transaction × Hash))
    (cancel : ℕ → Bool) :
    ℕ → List BlockCompleteEntry → List (Transaction × Hash) → ScanTable → Except ScanExit ScanTable
  | _, [], _, table => .ok table
  | poll, entry :: entries, rest, table =>
    if cancel poll then .error (.cancelled table)
    else do
      let (rest, table) ← fillTxs env bc txes entry.txs rest table
      fillEntries env bc txes cancel (poll + 1) entries rest table

def buildScanTable (env : Env) (cancel : ℕ → Bool) (entries : List BlockCompleteEntry)
    (bc : Blockchain) : Except ScanExit ScanTable := do
  let scan ← scanEntries env cancel 1 entries {}
  fillEntries env bc scan.txes cancel (1 + entries.length) entries scan.txes scan.table

inductive PrepareExit
  | returned (ok : Bool) (blocks : List Block)
  | threw
  deriving DecidableEq, Repr

def ScanExit.table : ScanExit → ScanTable
  | .cancelled table => table
  | .quit => []
  | .badGet table => table

/-- An early end of a pass returns false, or lets the exception out. -/
def ScanExit.prepareExit : ScanExit → PrepareExit
  | .badGet _ => .threw
  | _ => .returned false []

def prepareBatch (env : Env) (cancel : ℕ → Bool) (blocksHashCheckSize : ℕ)
    (entries : List BlockCompleteEntry) (bc : Blockchain) : PrepareExit × Blockchain :=
  if bc.db.height + entries.length < blocksHashCheckSize then (.returned true [], bc)
  else
    match (entries.head?.bind fun e => env.parseBlock e.block) with
    | none => (.returned false [], bc)
    | some first =>
      if first.prevId ≠ bc.db.topBlockHash env then (.returned true [], bc)
      else
        match entries.mapM fun e => env.parseBlock e.block with
        | none => (.returned false [], bc)
        | some blocks =>
          if cancel 0 then (.returned false [], bc)
          else if blocks.any fun b => bc.haveBlock env (env.blockHash b) then
            (.returned true blocks, bc)
          else
            match buildScanTable env cancel entries bc with
            | .ok table => (.returned true blocks, { bc with scanTable := table })
            | .error exit => (exit.prepareExit, { bc with scanTable := exit.table })

/-- The locks this thread holds, by depth, with the state they protect. -/
structure SyncState where
  bc : Blockchain
  incomingTxLock : ℕ := 0
  txPoolLock : ℕ := 0
  blockchainLock : ℕ := 0
  batch : Option BlockchainDB := none
  batchSuccess : Bool := true
  blocksHashCheckSize : ℕ := 0

namespace SyncState

variable (s : SyncState)

def lockIncomingTx : SyncState := { s with incomingTxLock := s.incomingTxLock + 1 }
def unlockIncomingTx : SyncState := { s with incomingTxLock := s.incomingTxLock - 1 }
def lockTxPool : SyncState := { s with txPoolLock := s.txPoolLock + 1 }
def unlockTxPool : SyncState := { s with txPoolLock := s.txPoolLock - 1 }
def lockBlockchain : SyncState := { s with blockchainLock := s.blockchainLock + 1 }
def unlockBlockchain : SyncState := { s with blockchainLock := s.blockchainLock - 1 }

/-- The loop around `batch_start`, which fails `busy` times while another thread has a batch. -/
def startBatch : ℕ → SyncState → SyncState
  | 0, s => { s with batch := some s.bc.db, batchSuccess := true }
  | busy + 1, s =>
    startBatch busy s.unlockBlockchain.unlockTxPool.lockTxPool.lockBlockchain

/-- `Blockchain::prepare_handle_incoming_blocks`. The blockchain lock is released on every exit. -/
def prepareHandleIncomingBlocks (env : Env) (cancel : ℕ → Bool) (busy : ℕ)
    (entries : List BlockCompleteEntry) (s : SyncState) : PrepareExit × SyncState :=
  let s := s.lockTxPool.lockBlockchain
  if entries = [] then (.returned false [], s.unlockBlockchain)
  else
    let s := startBatch busy s
    let r := prepareBatch env cancel s.blocksHashCheckSize entries s.bc
    (r.1, { s with bc := r.2 }.unlockBlockchain)

def endBatch : Bool × SyncState :=
  match s.batch with
  | none => (false, s)
  | some db =>
    (true, { s with
      batch := none
      bc := { s.bc with db := if s.batchSuccess then s.bc.db else db } })

def cleanupHandleIncomingBlocks : Bool × SyncState :=
  let (success, s) := s.lockBlockchain.endBatch
  let s := { s with
    bc := { s.bc with scanTable := [] }
    blocksHashCheckSize :=
      if s.blocksHashCheckSize + 4096 < s.bc.db.height then 0 else s.blocksHashCheckSize }
  (success, s.unlockBlockchain.unlockTxPool)

end SyncState

def SyncState.coreCleanup (s : SyncState) : Bool × SyncState :=
  let (success, s) := s.cleanupHandleIncomingBlocks
  (success, s.unlockIncomingTx)

def SyncState.corePrepare (env : Env) (cancel : ℕ → Bool) (busy : ℕ)
    (entries : List BlockCompleteEntry) (s : SyncState) : PrepareExit × SyncState :=
  match s.lockIncomingTx.prepareHandleIncomingBlocks env cancel busy entries with
  | (.returned false _, s) => (.returned false [], s.coreCleanup.2)
  | r => r

end Nerva
