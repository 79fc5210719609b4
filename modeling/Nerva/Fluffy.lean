import Mathlib.Data.Finset.Card
import Nerva.PeerSync

/-!
# Fluffy blocks

A new block is announced with some of its transactions. The node asks for those it lacks by their
places in the block, and the peer answers with the block again and these. The set of requested
objects, which downloading shares, is looked at when such a message comes.
-/

namespace Nerva

inductive ConnectionState
  | beforeHandshake
  | synchronizing
  | standby
  | idle
  | normal
  deriving DecidableEq, Repr

structure FluffyBlock where
  block : Blob
  txs : List Blob
  currentBlockchainHeight : UInt64
  deriving DecidableEq

structure MissingTxRequest where
  blockHash : Hash
  currentBlockchainHeight : UInt64
  missingTxIndices : List ℕ
  deriving DecidableEq, Repr

structure FluffyParsed where
  id : Hash
  txHashes : List Hash
  deriving DecidableEq, Repr

structure BlockReport where
  verifivationFailed : Bool := false
  addedToMainChain : Bool := false
  markedAsOrphaned : Bool := false
  deriving DecidableEq, Repr

structure FluffyCore (σ : Type) where
  parseBlock : Blob → Option FluffyParsed
  /-- `parse_and_validate_tx_from_blob` and `get_transaction_hash`, either of which may fail. -/
  parseTx : Blob → Option (Option Hash)
  /-- `is_synchronized() && !m_no_sync`. -/
  synchronized : σ → Bool
  poolHasTx : σ → Hash → Bool
  /-- `handle_incoming_tx`, false also when the verification failed. -/
  handleIncomingTx : σ → Blob → Bool × σ
  getPoolTransaction : σ → Hash → Option Blob
  /-- `get_transactions` for one id; none when it is missing. -/
  getTransactions : σ → Hash → Option (List Blob)
  /-- None when it throws, as it does for a transaction with an input of another kind than
  `txin_to_key`. -/
  prepareHandleIncomingBlocks : σ → Blob → List Blob → Option Bool × σ
  handleIncomingBlock : σ → Blob → BlockReport × σ
  cleanupHandleIncomingBlocks : σ → Bool × σ
  updateCheckpoints : σ → σ
  shortChainHistory : σ → List Hash
  getBlockByHash : σ → Hash → Option (Blob × FluffyParsed)

structure FluffyState (σ : Type) where
  core : σ
  ctx : PeerContext
  state : ConnectionState
  pausers : ℕ

inductive FluffyOutcome
  | ignored
  | dropped
  | failed
  | threw
  | asked (r : MissingTxRequest)
  | relayed
  | requestedChain (blockIds : List Hash)
  | accepted
  deriving DecidableEq, Repr

namespace FluffyState

variable {σ : Type}

def pauseMine (s : FluffyState σ) : FluffyState σ := { s with pausers := s.pausers + 1 }

def resumeMine (s : FluffyState σ) : FluffyState σ := { s with pausers := s.pausers - 1 }

def takeTxs (c : FluffyCore σ) : FluffyState σ → List Blob → Bool × FluffyState σ
  | s, [] => (true, s)
  | s, blob :: blobs =>
    match c.parseTx blob with
    | none => (false, s)
    | some none => (false, s)
    | some (some txHash) =>
      if s.ctx.requestedObjects ≠ ∅ ∧ txHash ∉ s.ctx.requestedObjects then (false, s)
      else
        let s := { s with
          ctx := { s.ctx with requestedObjects := s.ctx.requestedObjects.erase txHash } }
        if c.poolHasTx s.core txHash then takeTxs c s blobs
        else
          let (ok, core) := c.handleIncomingTx s.core blob
          let s := { s with core }
          if ok then takeTxs c s blobs else (false, s)

/-- The loop over the transactions of the block: what the node has and the places of what it has
not. None when the chain answers one id with several transactions. -/
def lookupTxs (c : FluffyCore σ) (core : σ) : ℕ → List Hash → Option (List Blob × List ℕ)
  | _, [] => some ([], [])
  | txIdx, txHash :: rest =>
    match c.getPoolTransaction core txHash with
    | some blob => (lookupTxs c core (txIdx + 1) rest).map fun r => (blob :: r.1, r.2)
    | none =>
      match c.getTransactions core txHash with
      | some [blob] => (lookupTxs c core (txIdx + 1) rest).map fun r => (blob :: r.1, r.2)
      | some _ => none
      | none => (lookupTxs c core (txIdx + 1) rest).map fun r => (r.1, txIdx :: r.2)

def handleComplete (c : FluffyCore σ) (s : FluffyState σ) (block : Blob) (haveTx : List Blob) :
    FluffyOutcome × FluffyState σ :=
  match c.prepareHandleIncomingBlocks s.core block haveTx with
  -- nothing catches the exception before the connection does, and mining stays paused
  | (none, core) => (.threw, { s with core })
  | (some false, core) => (.failed, { s with core }.resumeMine)
  | (some true, core) =>
    let (bvc, core) := c.handleIncomingBlock core block
    let (cleaned, core) := c.cleanupHandleIncomingBlocks core
    let s := { s with core }.resumeMine
    if !cleaned then (.failed, s)
    else if bvc.verifivationFailed then (.dropped, s)
    else if bvc.addedToMainChain then (.relayed, { s with core := c.updateCheckpoints s.core })
    else if bvc.markedAsOrphaned then
      (.requestedChain (c.shortChainHistory s.core),
        { s with
          core := c.updateCheckpoints s.core
          ctx := { s.ctx with neededObjects := [] }
          state := .synchronizing })
    else (.accepted, { s with core := c.updateCheckpoints s.core })

def handleNotifyNewFluffyBlock (c : FluffyCore σ) (s : FluffyState σ) (arg : FluffyBlock) :
    FluffyOutcome × FluffyState σ :=
  if s.state ≠ .normal ∨ c.synchronized s.core = false then (.ignored, s)
  else
    let s := s.pauseMine
    match c.parseBlock arg.block with
    | none => (.dropped, s.resumeMine)
    | some newBlock =>
      -- a second notification: something was asked for
      if s.ctx.requestedObjects ≠ ∅ ∧ s.ctx.requestedObjects.card ≠ arg.txs.length then
        (.dropped, s.resumeMine)
      else
        let (ok, s) := takeTxs c s arg.txs
        if !ok || decide (s.ctx.requestedObjects ≠ ∅) then (.dropped, s.resumeMine)
        else
          match lookupTxs c s.core 0 newBlock.txHashes with
          | none => (.failed, s.resumeMine)
          | some (haveTx, []) => handleComplete c s arg.block haveTx
          | some (_, txIdx :: rest) =>
            (.asked ⟨newBlock.id, arg.currentBlockchainHeight, txIdx :: rest⟩, s.resumeMine)

/-- The places asked for, none of them twice and all of them in the block. -/
def collectTxids (txHashes : List Hash) : List ℕ → List ℕ → Option (List Hash)
  | _, [] => some []
  | seen, txIdx :: rest =>
    match txHashes[txIdx]? with
    | none => none
    | some txid =>
      if txIdx ∈ seen then none
      else (collectTxids txHashes (txIdx :: seen) rest).map (txid :: ·)

/-- `handle_request_fluffy_missing_tx`; none is a dropped connection. -/
def handleRequestFluffyMissingTx (c : FluffyCore σ) (core : σ) (arg : MissingTxRequest) :
    Option FluffyBlock :=
  match c.getBlockByHash core arg.blockHash with
  | none => none
  | some (blob, b) =>
    match collectTxids b.txHashes [] arg.missingTxIndices with
    | none => none
    | some txids =>
      let missed := txids.filter fun txid => (c.getTransactions core txid).isNone
      let txs := txids.flatMap fun txid => (c.getTransactions core txid).getD []
      if missed ≠ [] ∨ txs.length ≠ txids.length then none
      else some ⟨blob, txs, arg.currentBlockchainHeight⟩

end FluffyState

end Nerva
