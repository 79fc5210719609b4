import Mathlib.Data.Finset.Basic
import Nerva.BlockQueue

/-!
# Downloading from one peer

A peer answers a chain request with ids of consecutive blocks. They are kept in a list of needed
objects, without their heights: the context has the height of the last one only. Spans of them are
reserved in the block queue and asked for.
-/

namespace Nerva

namespace BlockQueue

def getNextSpanIfScheduled (q : BlockQueue) : Option Span :=
  match q.spans with
  | [] => none
  | s :: _ => if s.blocks.isEmpty then some s else none

def nextNeededHeight (blockchainHeight : ℕ) : Bool → ℕ → List Span → ℕ
  | _, lastNeeded, [] => lastNeeded
  | first, lastNeeded, s :: spans =>
    if 0 < s.startBlockHeight + s.nblocks ∧ s.startBlockHeight + s.nblocks ≤ blockchainHeight then
      nextNeededHeight blockchainHeight first lastNeeded spans
    else if s.startBlockHeight ≠ lastNeeded ∨ first ∧ s.blocks.isEmpty then lastNeeded
    else nextNeededHeight blockchainHeight false (s.startBlockHeight + s.nblocks) spans

def getNextNeededHeight (q : BlockQueue) (blockchainHeight : ℕ) : ℕ :=
  nextNeededHeight blockchainHeight true blockchainHeight q.spans

def getNumFilledSpans (q : BlockQueue) : ℕ := q.spans.countP (·.filled)

def nextSpanReady (q : BlockQueue) (height : ℕ) : Bool :=
  match q.spans with
  | [] => false
  | s :: _ => decide (s.startBlockHeight ≤ height) && s.filled

end BlockQueue

def blockQueueNspansThreshold : ℕ := 10
def blockQueueForceDownloadNearBlocks : ℕ := 1000
def hashOfHashesStep : ℕ := 256

structure PeerEnv where
  haveBlock : Hash → Bool
  currentBlockchainHeight : ℕ
  blockchainPruningSeed : UInt32
  syncPrunedBlocks : Bool
  blockSyncSize : ℕ
  hasBlockWeights : ℕ → ℕ → Bool
  shortChainHistory : List Hash
  emptyBlockHash : Hash
  liveConnections : List ConnectionId
  queueSmall : Bool
  shouldDropConnection : ℕ → Bool
  shouldDownloadNextSpan : Bool
  nextNeededPruningStripe : ℕ
  syncLockFree : Bool
  wedged : Bool

structure PeerContext where
  connectionId : ConnectionId
  isIncome : Bool
  pruningSeed : UInt32
  remoteBlockchainHeight : UInt64 := 0
  lastResponseHeight : UInt64 := 0
  lastKnownHash : Hash := nullHash
  neededObjects : List (Hash × UInt64) := []
  requestedObjects : Finset Hash := ∅
  numRequested : ℕ := 0
  deriving DecidableEq

/-- What `request_missing_objects` comes to. After `refused` the caller drops the connection.
`scheduled` tells that the objects were asked for because everything else is reserved and the next
span is still to come. -/
inductive Requested
  | refused
  | standby
  | idle
  | objects (blocks : List Hash) (prune scheduled : Bool)
  | chain (blockIds : List Hash) (prune : Bool)
  deriving DecidableEq, Repr

namespace PeerContext

variable (env : PeerEnv) (q : BlockQueue) (ctx : PeerContext)

def firstBlockHeight : UInt64 :=
  ctx.lastResponseHeight - ctx.neededObjects.length.toUInt64 + 1

def stripeAt (height : ℕ) : ℕ :=
  getBlockPruningStripe height ctx.remoteBlockchainHeight.toNat cryptonotePruningLogStripes

def hasUnpruned (height : ℕ) : Bool :=
  hasUnprunedBlock height ctx.remoteBlockchainHeight.toNat ctx.pruningSeed

def isUnneeded (checkBlockQueue : Bool) (o : Hash × UInt64) : Bool :=
  env.haveBlock o.1 || checkBlockQueue && q.haveHash o.1

def skipUnneededHashes (checkBlockQueue : Bool) (ctx : PeerContext) : ℕ × PeerContext :=
  let skip := (ctx.neededObjects.takeWhile (isUnneeded env q checkBlockQueue)).length
  (skip, { ctx with
    lastKnownHash :=
      if skip = ctx.neededObjects.length then (ctx.neededObjects.getLast?.map (·.1)).getD
        ctx.lastKnownHash
      else ctx.lastKnownHash
    neededObjects := ctx.neededObjects.drop skip })

def nothingToRequest (skipped : ℕ) (ctx : PeerContext) : Bool :=
  decide (0 < skipped) && ctx.neededObjects.isEmpty && decide (ctx.numRequested = 0)

/-- `should_ask_for_pruned_data`, with the block weights checked. -/
def shouldAskForPrunedData (firstBlockHeight nblocks : ℕ) : Bool :=
  let localStripe := getPruningStripe env.blockchainPruningSeed
  env.syncPrunedBlocks && decide (localStripe ≠ 0) &&
    decide (ctx.stripeAt firstBlockHeight ≠ localStripe) &&
    decide (ctx.stripeAt (firstBlockHeight + nblocks - 1) ≠ localStripe) &&
    env.hasBlockWeights firstBlockHeight nblocks

inductive Going
  | refused
  | standby
  | go (forceNextSpan : Bool)
  deriving DecidableEq, Repr

def stripeProceedMain (ctx : PeerContext) (nextBlockHeight : ℕ) : Bool :=
  let height := env.currentBlockchainHeight
  let addStripe := ctx.stripeAt height
  let peerStripe := getPruningStripe ctx.pruningSeed
  let localStripe := getPruningStripe env.blockchainPruningSeed
  (env.syncPrunedBlocks && decide (localStripe ≠ 0 ∧ addStripe ≠ localStripe) ||
      decide (addStripe = 0 ∨ peerStripe = 0 ∨ addStripe = peerStripe)) &&
    decide (nextBlockHeight < height + blockQueueForceDownloadNearBlocks ∨
      q.getNextNeededHeight height < height + blockQueueForceDownloadNearBlocks)

/-- The checks of a request that was not told to get the next span: the queue may be full, or the
peer of the wrong stripe. -/
def going (ctx : PeerContext) : Going :=
  let nextBlockHeight :=
    if ctx.neededObjects.isEmpty then q.getNextNeededHeight env.currentBlockchainHeight
    else ctx.firstBlockHeight.toNat
  let main := stripeProceedMain env q ctx nextBlockHeight
  let secondary := ctx.hasUnpruned nextBlockHeight
  let queueProceed :=
    decide (q.getNumFilledSpans < blockQueueNspansThreshold) || env.queueSmall
  if !main && !secondary && env.shouldDropConnection (ctx.stripeAt nextBlockHeight) then .refused
  else if main && env.shouldDownloadNextSpan then .go true
  else if main || queueProceed && secondary then .go false
  else if env.syncLockFree && !q.nextSpanReady env.currentBlockchainHeight && !ctx.isIncome &&
      env.wedged then .refused
  else .standby

def spanRequest : BlockQueue.SpanRequest where
  firstBlockHeight := ctx.firstBlockHeight.toNat
  lastBlockHeight := ctx.lastResponseHeight.toNat
  maxBlocks := env.blockSyncSize
  connectionId := ctx.connectionId
  syncPrunedBlocks := env.syncPrunedBlocks && decide (env.blockchainPruningSeed ≠ 0)
  localPruningSeed := env.blockchainPruningSeed
  pruningSeed := ctx.pruningSeed
  blockchainHeight := ctx.remoteBlockchainHeight.toNat
  blockHashes := ctx.neededObjects

/-- The first object with each of the hashes is erased from the list, wherever it stands. -/
def eraseHashes : List Hash → List (Hash × UInt64) → List (Hash × UInt64)
  | [], l => l
  | hash :: hashes, l => eraseHashes hashes (l.eraseP fun o => o.1 = hash)

def request (blocks : List Hash) : PeerContext :=
  { ctx with requestedObjects := ctx.requestedObjects ∪ blocks.toFinset }

/-- Whether full data is needed that the peer does not have, by the stripes of the first and the
last block. -/
def lacksFullData (first n : ℕ) : Bool :=
  let peerStripe := getPruningStripe ctx.pruningSeed
  let lacks := fun stripe : ℕ => decide (stripe ≠ 0 ∧ peerStripe ≠ stripe)
  !shouldAskForPrunedData env ctx first n && decide (ctx.pruningSeed ≠ 0) &&
    !env.syncPrunedBlocks &&
    (lacks (ctx.stripeAt first) || lacks (ctx.stripeAt (first + n - 1)))

/-- The end of a request for a span. -/
def sendRequest (first n : ℕ) (blocks : List Hash) (scheduled : Bool) : Requested × PeerContext :=
  if lacksFullData env ctx first n then (.refused, ctx)
  else (.objects blocks (shouldAskForPrunedData env ctx first n) scheduled,
    { ctx with numRequested := ctx.numRequested + blocks.length })

def requestReserved (first n : ℕ) : Requested × PeerContext :=
  let skip := (first.toUInt64 - ctx.firstBlockHeight).toNat
  if ctx.neededObjects.length < skip then (.refused, ctx)
  else
    let ctx := { ctx with neededObjects := ctx.neededObjects.drop skip }
    if ctx.neededObjects.length < n then (.refused, ctx)
    else
      let blocks := (ctx.neededObjects.take n).map (·.1)
      sendRequest env
        ({ ctx with neededObjects := ctx.neededObjects.drop n }.request blocks) first n blocks false

def requestScheduled (s : Span) : Requested × PeerContext :=
  sendRequest env
    ({ ctx with neededObjects := eraseHashes s.hashes ctx.neededObjects }.request s.hashes)
    s.startBlockHeight s.nblocks s.hashes true

/-- From `skip` on: the list is given up, and more ids are asked for if the peer has more. The
branch that would resume adding blocks is never taken: `filled` is passed by value, as false. -/
def requestChain : Requested × PeerContext :=
  let ctx := { ctx with neededObjects := [] }
  if ctx.lastResponseHeight < ctx.remoteBlockchainHeight - 1 then
    match env.shortChainHistory with
    | [] => (.refused, ctx)
    | id :: ids =>
      let blockIds :=
        if ctx.lastKnownHash ≠ nullHash ∧ id ≠ ctx.lastKnownHash then ctx.lastKnownHash :: id :: ids
        else id :: ids
      (.chain blockIds env.syncPrunedBlocks, ctx)
  else if ctx.lastResponseHeight = ctx.remoteBlockchainHeight - 1 ∧ ctx.requestedObjects = ∅ then
    (.idle, ctx)
  else (.refused, ctx)

/-- No span can be had: a peer pruned at another stripe may be dropped or left idle. -/
def requestNothing : Requested × PeerContext :=
  let nextStripe := env.nextNeededPruningStripe
  let peerStripe := getPruningStripe ctx.pruningSeed
  let localStripe := getPruningStripe env.blockchainPruningSeed
  if !(env.syncPrunedBlocks && decide (peerStripe = localStripe)) &&
      decide (nextStripe ≠ 0 ∧ peerStripe ≠ 0 ∧ nextStripe ≠ peerStripe) then
    if !ctx.isIncome && env.shouldDropConnection nextStripe then (.refused, ctx) else (.idle, ctx)
  else requestChain env ctx

def scheduledSpan : Option Span :=
  q.getNextSpanIfScheduled.filter fun s => s.nblocks ≠ 0

/-- A span is reserved and asked for; if there is none, the next one that is still to come, unless
it was tried before. -/
def requestSpan (forceNextSpan : Bool) (ctx : PeerContext) :
    (Requested × PeerContext) × BlockQueue :=
  match q.reserveSpan (ctx.spanRequest env) with
  | ((first, n), q) =>
    if n ≠ 0 then (requestReserved env ctx first n, q)
    else if forceNextSpan then (requestNothing env ctx, q)
    else
      match (scheduledSpan q).filter fun s => ctx.hasUnpruned s.startBlockHeight with
      | some s => (requestScheduled env ctx s, q)
      | none => (requestNothing env ctx, q)

def requestObjects (forceNextSpan : Bool) (ctx : PeerContext) :
    (Requested × PeerContext) × BlockQueue :=
  if ctx.neededObjects.isEmpty && !forceNextSpan then (requestChain env ctx, q)
  else
    match (scheduledSpan q).filter fun _ => forceNextSpan with
    | some s =>
      (sendRequest env (ctx.request s.hashes) s.startBlockHeight s.nblocks s.hashes false, q)
    | none =>
      if ctx.lastResponseHeight + 1 < ctx.neededObjects.length.toUInt64 then
        (requestChain env { ctx with lastResponseHeight := 0 }, q)
      else
        let (skipped, ctx) := ctx.skipUnneededHashes env q false
        if nothingToRequest skipped ctx then ((.refused, ctx), q)
        else requestSpan env q forceNextSpan ctx

def requestMissingObjects (forceNextSpan : Bool) (ctx : PeerContext) :
    (Requested × PeerContext) × BlockQueue :=
  let q := q.flushStaleSpans env.liveConnections
  if forceNextSpan then requestObjects env q true ctx
  else
    let (skipped, ctx) := ctx.skipUnneededHashes env q true
    if nothingToRequest skipped ctx then ((.refused, ctx), q)
    else
      match going env q ctx with
      | .refused => ((.refused, ctx), q)
      | .standby => ((.standby, ctx), q)
      | .go forceNextSpan => requestObjects env q forceNextSpan ctx

end PeerContext

structure ChainEntry where
  startHeight : UInt64
  totalHeight : UInt64
  blockIds : List Hash
  blockWeights : List UInt64 := []
  deriving DecidableEq, Repr

namespace ChainEntry

def wellFormed (arg : ChainEntry) : Bool :=
  decide (arg.blockIds ≠ []) && decide (arg.blockIds.length ≤ arg.totalHeight.toNat) &&
    decide (arg.startHeight ≤ arg.totalHeight - arg.blockIds.length.toUInt64) &&
    decide (arg.blockWeights = [] ∨ arg.blockWeights.length = arg.blockIds.length) &&
    decide (arg.totalHeight.toNat < cryptonoteMaxBlockNumber) &&
    decide (arg.blockIds.length < cryptonoteMaxBlockNumber)

def objects (arg : ChainEntry) : List (Hash × UInt64) :=
  arg.blockIds.zipIdx.map fun (id, i) => (id, arg.blockWeights.getD i 0)

end ChainEntry

namespace PeerContext

/-- `handle_response_chain_entry` up to its request, or `none` if the connection is dropped.
`nUseBlocks` is the answer of `prevalidate_block_hashes`. The list is filled until its length is
that number, which it never is for 0. -/
def takeChainEntry (arg : ChainEntry) (nUseBlocks : UInt64) (ctx : PeerContext) :
    Option PeerContext :=
  let size := arg.blockIds.length.toUInt64
  let lastResponseHeight := arg.startHeight + size - 1
  if !arg.wellFormed || decide (arg.totalHeight < lastResponseHeight) ||
      decide ((nUseBlocks + hashOfHashesStep.toUInt64).toNat ≤ arg.blockIds.length) then none
  else some { ctx with
    remoteBlockchainHeight := arg.totalHeight
    neededObjects :=
      if nUseBlocks = 0 then arg.objects else arg.objects.take nUseBlocks.toNat
    lastResponseHeight := lastResponseHeight - (size - nUseBlocks) }

/-- `handle_response_chain_entry`, or `none` if the connection is dropped. -/
def handleResponseChainEntry (env : PeerEnv) (q : BlockQueue) (arg : ChainEntry)
    (nUseBlocks : UInt64) (ctx : PeerContext) : Option (Requested × PeerContext) × BlockQueue :=
  match ctx.takeChainEntry arg nUseBlocks with
  | none => (none, q)
  | some ctx =>
    match ctx.requestMissingObjects env q false with
    | ((requested, ctx), q) =>
      if requested = .refused then (none, q)
      else (some (requested, { ctx with numRequested := 0 }), q)

end PeerContext

structure Peer where
  ctx : PeerContext
  announcedFrom : ℕ := 0
  announced : List Hash := []
  deriving DecidableEq

namespace Peer

def connect (connectionId : ConnectionId) (isIncome : Bool) (pruningSeed : UInt32) : Peer where
  ctx := { connectionId, isIncome, pruningSeed }

/-- The steps that change the needed objects, each with the queue and the chain it finds.
`chainEntry` is `handle_response_chain_entry` up to its request, and `requested` what it does after
it. -/
inductive Op
  | chainEntry (arg : ChainEntry) (nUseBlocks : UInt64)
  | skipUnneededHashes (env : PeerEnv) (q : BlockQueue) (checkBlockQueue : Bool)
  | requestMissingObjects (env : PeerEnv) (q : BlockQueue) (forceNextSpan : Bool)
  | requested

def afterRequest (p : Peer) (x : Requested × PeerContext) : Option Peer :=
  if x.1 = .refused then none else some { p with ctx := x.2 }

def step (p : Peer) : Op → Option Peer
  | .chainEntry arg nUseBlocks =>
    (p.ctx.takeChainEntry arg nUseBlocks).map fun ctx =>
      { ctx, announcedFrom := arg.startHeight.toNat, announced := arg.blockIds }
  | .skipUnneededHashes env q checkBlockQueue =>
    some { p with ctx := (p.ctx.skipUnneededHashes env q checkBlockQueue).2 }
  | .requestMissingObjects env q forceNextSpan =>
    p.afterRequest (p.ctx.requestMissingObjects env q forceNextSpan).1
  | .requested => some { p with ctx := { p.ctx with numRequested := 0 } }

def run (p : Peer) : List Op → Option Peer
  | [] => some p
  | op :: ops => (p.step op).bind (run · ops)

end Peer

end Nerva
