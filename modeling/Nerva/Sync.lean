import Nerva.BlockQueue
import Nerva.Prepare

/-!
# Adding queued blocks

`try_add_next_blocks`: spans are taken from the block queue one after the other and handed to the
core block by block. What the core does with a transaction or a block is a parameter; preparing and
cleaning up the batch is not.
-/

namespace Nerva

structure BlockVerificationContext where
  verifivationFailed : Bool
  markedAsOrphaned : Bool
  deriving DecidableEq, Repr

/-- The core's handlers for transactions and blocks. Neither ends the batch, and every transaction
has a verdict. -/
structure CoreHandlers where
  /-- `handle_incoming_txs`: for each transaction, whether its verification failed. -/
  handleIncomingTxs : SyncState → List TxBlobEntry → List Bool × SyncState
  handleIncomingBlock : SyncState → Blob → Option Block → BlockVerificationContext × SyncState
  length_txs : ∀ s txs, (handleIncomingTxs s txs).1.length = txs.length
  batch_txs : ∀ s txs, (handleIncomingTxs s txs).2.batch.isSome = s.batch.isSome
  batch_block : ∀ s blob b, (handleIncomingBlock s blob b).2.batch.isSome = s.batch.isSome

structure SyncEnv where
  env : Env
  handlers : CoreHandlers
  connected : ConnectionId → Bool
  /-- `should_drop_connection` for the calling connection. -/
  shouldDrop : Bool
  context : ConnectionId
  /-- `m_stopping`, as polled before each block of a span. -/
  stopping : ℕ → Bool
  /-- `m_cancel`, as polled while a span is prepared. -/
  cancel : ℕ → Bool
  busy : ℕ
  /-- Whether `get_pruned_transaction_hash` throws for what is read of an unparsable blob. -/
  unparsedThrows : Blob → Bool

structure Syncing where
  core : SyncState
  queue : BlockQueue

inductive SpanFailure
  | prepareThrew
  | prepare
  | internal
  | stopping
  | transaction (entry : TxBlobEntry)
  | reportThrew (entry : TxBlobEntry)
  | block
  | orphaned
  | cleanup
  deriving DecidableEq, Repr

inductive SyncExit
  | download
  | dropped
  | failed (span : Span) (why : SpanFailure)
  deriving DecidableEq, Repr

section

variable (e : SyncEnv)

/-- The loop over the blocks of a span. `pblocks` are the blocks parsed ahead, if any. -/
def processBlocks (pblocks : List Block) :
    ℕ → List BlockCompleteEntry → SyncState → Option SpanFailure × SyncState
  | _, [], s => (none, s)
  | i, entry :: rest, s =>
    if e.stopping i then (some .stopping, s)
    else
      let (tvc, s) := e.handlers.handleIncomingTxs s entry.txs
      if tvc.length ≠ entry.txs.length then (some .internal, s)
      else
        match (tvc.zip entry.txs).find? (·.1) with
        | some (_, tx) => (some (.transaction tx), s)
        | none =>
          let (bvc, s) := e.handlers.handleIncomingBlock s entry.block pblocks[i]?
          if bvc.verifivationFailed then (some .block, s)
          else if bvc.markedAsOrphaned then (some .orphaned, s)
          else processBlocks pblocks (i + 1) rest s

/-- Whether a refused transaction cannot be reported: its id is computed from the hash of its
prunable data, which throws for version 1. -/
def reportThrows (entry : TxBlobEntry) : Bool :=
  decide (entry.prunableHash ≠ nullHash) &&
    match e.env.parseTxBase entry.blob with
    | some tx => decide (tx.version ≤ 1)
    | none => e.unparsedThrows entry.blob

def finishSpan (span : Span) (why : Option SpanFailure) (s : Syncing) :
    Option SpanFailure × Syncing :=
  let (ok, core) := s.core.coreCleanup
  if ok then
    (why, ⟨core, s.queue.removeSpans span.connectionId span.startBlockHeight⟩)
  else (some (why.getD .cleanup), ⟨core, s.queue⟩)

def dropSpanConnection (span : Span) (q : BlockQueue) : BlockQueue :=
  if e.connected span.connectionId then q.flushSpans span.connectionId true else q

/-- A span that is taken up, from `prepare_handle_incoming_blocks` on. A refused transaction is
reported only while the span's connection is there. -/
def addSpan (span : Span) (s : Syncing) : Option SpanFailure × Syncing :=
  match s.core.corePrepare e.env e.cancel e.busy span.blocks with
  | (.threw, core) => (some .prepareThrew, ⟨core, s.queue⟩)
  | (.returned false _, core) => (some .prepare, ⟨core, s.queue⟩)
  | (.returned true pblocks, core) =>
    if pblocks ≠ [] ∧ pblocks.length ≠ span.blocks.length then
      (some .internal, ⟨core.coreCleanup.2, s.queue⟩)
    else
      match processBlocks e pblocks 0 span.blocks core with
      | (some .stopping, core) => (some .stopping, ⟨core.coreCleanup.2, s.queue⟩)
      | (some .internal, core) => (some .internal, ⟨core.coreCleanup.2, s.queue⟩)
      | (some (.transaction tx), core) =>
        if e.connected span.connectionId && reportThrows e tx then
          (some (.reportThrew tx), ⟨core, s.queue⟩)
        else finishSpan span (some (.transaction tx)) ⟨core, dropSpanConnection e span s.queue⟩
      | (some why, core) => finishSpan span (some why) ⟨core, dropSpanConnection e span s.queue⟩
      | (none, core) => finishSpan span none ⟨core, s.queue⟩

inductive SpanTriage
  | takeUp
  | discard
  | unrequested
  /-- The loop ends, and the calling connection may be dropped. -/
  | ahead
  | wait
  deriving DecidableEq, Repr

def triage (span : Span) (s : Syncing) : SpanTriage :=
  match span.blocks.getLast?.bind fun b => e.env.parseBlock b.block with
  | none => .discard
  | some last =>
    if s.core.bc.haveBlock e.env (e.env.blockHash last) then .discard
    else
      match span.blocks.head?.bind fun b => e.env.parseBlock b.block with
      | none => .discard
      | some first =>
        if s.core.bc.haveBlock e.env first.prevId then .takeUp
        else if s.queue.requested first.prevId then .wait
        else if s.core.bc.db.height < span.startBlockHeight then .ahead
        else .unrequested

def Syncing.remove (s : Syncing) (span : Span) : Syncing :=
  { s with queue := s.queue.removeSpans span.connectionId span.startBlockHeight }

/-- One turn of the loop over the spans: the loop ends, or goes on. -/
def addNextSpan (s : Syncing) : Option SyncExit × Syncing :=
  match s.queue.getNextSpan with
  | none => (some .download, s)
  | some span =>
    match triage e span s with
    | .discard => (none, s.remove span)
    | .unrequested => (some .download, s.remove span)
    | .wait => (some .download, s)
    | .ahead =>
      if e.shouldDrop then (some .dropped, { s with queue := s.queue.flushSpans e.context true })
      else (some .download, s)
    | .takeUp =>
      let (why, s) := addSpan e span s
      (why.map (.failed span), s)

/-- The loop over the spans. A turn after which it goes on has removed a span, so that their number
bounds the loop. -/
def addSpans : ℕ → Syncing → SyncExit × Syncing
  | 0, s => (.download, s)
  | fuel + 1, s =>
    match addNextSpan e s with
    | (some exit, s) => (exit, s)
    | (none, s) => addSpans fuel s

/-- `try_add_next_blocks`, up to the request for missing objects. `owned` is whether the thread got
`m_sync_lock`. -/
def tryAddNextBlocks (owned : Bool) (s : Syncing) : SyncExit × Syncing :=
  if owned then addSpans e s.queue.spans.length s else (.download, s)

end

end Nerva
