import Nerva.Pruning
import Nerva.State

/-!
# The block queue

Spans of consecutive blocks that were asked for or have arrived, in order of their first height.
The set holds one span for each height, so that the list is strictly increasing. Two sets of hashes
say which blocks were asked for and which have arrived.
-/

namespace Nerva

abbrev ConnectionId := ℕ

/-- `block_queue::span`. It is filled once it has blocks. -/
structure Span where
  startBlockHeight : ℕ
  hashes : List Hash
  blocks : List BlockCompleteEntry
  connectionId : ConnectionId
  nblocks : ℕ := blocks.length
  deriving DecidableEq, Repr

def Span.filled (s : Span) : Bool := !s.blocks.isEmpty

structure BlockQueue where
  spans : List Span
  requestedHashes : List Hash
  haveBlocks : List Hash
  increasing : spans.Pairwise fun a b => a.startBlockHeight < b.startBlockHeight

namespace BlockQueue

def eraseBlocks (q : BlockQueue) (p : Span → Bool) : BlockQueue :=
  let erased := (q.spans.filter p).flatMap (·.hashes)
  { spans := q.spans.filter fun s => !p s
    requestedHashes := q.requestedHashes.filter fun h => !erased.contains h
    haveBlocks := q.haveBlocks.filter fun h => !erased.contains h
    increasing := q.increasing.filter _ }

def flushSpans (q : BlockQueue) (connectionId : ConnectionId) (all : Bool) : BlockQueue :=
  q.eraseBlocks fun s => s.connectionId = connectionId && (all || s.blocks.isEmpty)

def removeSpans (q : BlockQueue) (connectionId : ConnectionId) (startBlockHeight : ℕ) :
    BlockQueue :=
  q.eraseBlocks fun s =>
    s.connectionId = connectionId && decide (s.startBlockHeight ≤ startBlockHeight)

def getNextSpan (q : BlockQueue) : Option Span := q.spans.find? fun s => !s.blocks.isEmpty

def requested (q : BlockQueue) (hash : Hash) : Bool := q.requestedHashes.contains hash

def haveHash (q : BlockQueue) (hash : Hash) : Bool := q.haveBlocks.contains hash

def empty : BlockQueue := ⟨[], [], [], .nil⟩

def flushStaleSpans (q : BlockQueue) (liveConnections : List ConnectionId) : BlockQueue :=
  q.eraseBlocks fun s => s.blocks.isEmpty && !liveConnections.contains s.connectionId

def removeSpan (q : BlockQueue) (startBlockHeight : ℕ) : Option (List Hash) × BlockQueue :=
  ((q.spans.find? fun s => s.startBlockHeight = startBlockHeight).map (·.hashes),
    q.eraseBlocks fun s => s.startBlockHeight = startBlockHeight)

/-- `std::set::insert`: a span at the same height stays. -/
def insertSorted (span : Span) : List Span → List Span
  | [] => [span]
  | s :: spans =>
    if span.startBlockHeight < s.startBlockHeight then span :: s :: spans
    else if span.startBlockHeight = s.startBlockHeight then s :: spans
    else s :: insertSorted span spans

variable {s : Span} {q : BlockQueue} {span : Span} {spans : List Span}

theorem mem_insertSorted_subset (h : s ∈ insertSorted span spans) : s = span ∨ s ∈ spans := by
  induction spans with
  | nil => simpa [insertSorted] using h
  | cons t spans ih =>
    unfold insertSorted at h
    split_ifs at h
    · simpa using h
    · exact .inr h
    · rcases List.mem_cons.1 h with rfl | h
      · simp
      · rcases ih h with rfl | h
        · exact .inl rfl
        · exact .inr (List.mem_cons_of_mem _ h)

theorem pairwise_insertSorted
    (h : spans.Pairwise fun a b => a.startBlockHeight < b.startBlockHeight) :
    (insertSorted span spans).Pairwise fun a b => a.startBlockHeight < b.startBlockHeight := by
  induction h with
  | nil => simp [insertSorted]
  | @cons t spans ht hspans ih =>
    unfold insertSorted
    split_ifs with hlt heq
    · refine .cons (fun s hs => ?_) (.cons ht hspans)
      rcases List.mem_cons.1 hs with rfl | hs
      · exact hlt
      · exact Nat.lt_trans hlt (ht s hs)
    · exact .cons ht hspans
    · refine .cons (fun s hs => ?_) ih
      rcases mem_insertSorted_subset hs with rfl | hs
      · omega
      · exact ht s hs

def insert (q : BlockQueue) (span : Span) : BlockQueue :=
  { q with
    spans := insertSorted span q.spans
    increasing := pairwise_insertSorted q.increasing }

/-- `set_span_hashes`. Nothing is put back into `have_blocks`. -/
def setSpanHashes (q : BlockQueue) (startHeight : ℕ) (connectionId : ConnectionId)
    (hashes : List Hash) : BlockQueue :=
  let isSpan := fun s : Span => s.startBlockHeight = startHeight && s.connectionId = connectionId
  match q.spans.find? isSpan with
  | none => q
  | some s =>
    let q := q.eraseBlocks isSpan
    { q with requestedHashes := q.requestedHashes ++ hashes }.insert { s with hashes }

def addBlocks (q : BlockQueue) (height : ℕ) (bcel : List BlockCompleteEntry)
    (connectionId : ConnectionId) : BlockQueue :=
  let (hashes, q) := q.removeSpan height
  let q := q.insert { startBlockHeight := height, hashes := [], blocks := bcel, connectionId }
  match hashes with
  | none => q
  | some hashes => { q with
      requestedHashes := q.requestedHashes ++ hashes
      haveBlocks := q.haveBlocks ++ hashes }.setSpanHashes height connectionId hashes

/-- `add_blocks` for blocks that are still to come. An empty span throws. -/
def addBlocksScheduled (q : BlockQueue) (height nblocks : ℕ) (connectionId : ConnectionId) :
    BlockQueue :=
  if nblocks = 0 then q
  else q.insert { startBlockHeight := height, hashes := [], blocks := [], connectionId, nblocks }

/-- The arguments of `reserve_span`. The hashes are those of the blocks up to `last_block_height`,
each with the weight its peer announced. -/
structure SpanRequest where
  firstBlockHeight : ℕ
  lastBlockHeight : ℕ
  maxBlocks : ℕ
  connectionId : ConnectionId
  syncPrunedBlocks : Bool
  localPruningSeed : UInt32
  pruningSeed : UInt32
  blockchainHeight : ℕ
  blockHashes : List (Hash × UInt64)
  deriving DecidableEq, Repr

namespace SpanRequest

def startHeight (r : SpanRequest) : ℕ := r.lastBlockHeight - r.blockHashes.length + 1

/-- If the peer is pruned for this block and its stripe comes next, the height where it starts. The
code keeps it in 32 bits. -/
def nextUnpruned (r : SpanRequest) (height : ℕ) : ℕ :=
  let next := getNextUnprunedBlockHeight height r.blockchainHeight r.pruningSeed % UInt32.size
  if !r.syncPrunedBlocks && decide (height < next) &&
      decide (next < height + cryptonotePruningStripeSize) then next
  else height

/-- Whether the block at `height` goes into a span of which `firstIsPruned` says if we need full
data for its first block. -/
def canTake (r : SpanRequest) (firstIsPruned : Bool) (height : ℕ) : Bool :=
  if r.syncPrunedBlocks then
    firstIsPruned != hasUnprunedBlock height r.blockchainHeight r.localPruningSeed
  else hasUnprunedBlock height r.blockchainHeight r.pruningSeed

def takeHashes (r : SpanRequest) (firstIsPruned : Bool) :
    ℕ → ℕ → List (Hash × UInt64) → List Hash
  | _, 0, _ => []
  | _, _, [] => []
  | height, n + 1, (hash, _) :: rest =>
    if r.canTake firstIsPruned height then
      hash :: r.takeHashes firstIsPruned (height + 1) n rest
    else []

end SpanRequest

def countRequested (q : BlockQueue) (blockHashes : List (Hash × UInt64)) : ℕ :=
  (blockHashes.takeWhile fun h => q.requested h.1).length

def reservation (q : BlockQueue) (r : SpanRequest) : Option (ℕ × List Hash) :=
  if r.lastBlockHeight < r.firstBlockHeight ∨ r.maxBlocks = 0 ∨
      r.lastBlockHeight < r.blockHashes.length then none
  else
    let start := r.nextUnpruned (r.startHeight + q.countRequested r.blockHashes)
    if r.blockHashes.length + r.startHeight ≤ start then none
    else
      let rest := r.blockHashes.drop (start - r.startHeight)
      let skipped := q.countRequested rest
      let start := start + skipped
      let firstIsPruned :=
        r.syncPrunedBlocks && !hasUnprunedBlock start r.blockchainHeight r.localPruningSeed
      match r.takeHashes firstIsPruned start r.maxBlocks (rest.drop skipped) with
      | [] => none
      | hashes => some (start, hashes)

/-- `reserve_span`, with the height and the length of the span, or zeros. -/
def reserveSpan (q : BlockQueue) (r : SpanRequest) : (ℕ × ℕ) × BlockQueue :=
  match q.reservation r with
  | none => ((0, 0), q)
  | some (start, hashes) =>
    ((start, hashes.length),
      (q.addBlocksScheduled start hashes.length r.connectionId).setSpanHashes start r.connectionId
        hashes)

inductive Op
  | addBlocks (height : ℕ) (bcel : List BlockCompleteEntry) (connectionId : ConnectionId)
  | addBlocksScheduled (height nblocks : ℕ) (connectionId : ConnectionId)
  | reserveSpan (r : SpanRequest)
  | setSpanHashes (startHeight : ℕ) (connectionId : ConnectionId) (hashes : List Hash)
  | removeSpan (startBlockHeight : ℕ)
  | removeSpans (connectionId : ConnectionId) (startBlockHeight : ℕ)
  | flushSpans (connectionId : ConnectionId) (all : Bool)
  | flushStaleSpans (liveConnections : List ConnectionId)
  deriving DecidableEq, Repr

def step (q : BlockQueue) : Op → BlockQueue
  | .addBlocks height bcel connectionId => q.addBlocks height bcel connectionId
  | .addBlocksScheduled height nblocks connectionId =>
    q.addBlocksScheduled height nblocks connectionId
  | .reserveSpan r => (q.reserveSpan r).2
  | .setSpanHashes startHeight connectionId hashes =>
    q.setSpanHashes startHeight connectionId hashes
  | .removeSpan startBlockHeight => (q.removeSpan startBlockHeight).2
  | .removeSpans connectionId startBlockHeight => q.removeSpans connectionId startBlockHeight
  | .flushSpans connectionId all => q.flushSpans connectionId all
  | .flushStaleSpans liveConnections => q.flushStaleSpans liveConnections

def run (q : BlockQueue) (ops : List Op) : BlockQueue := ops.foldl step q

theorem mem_eraseBlocks {p : Span → Bool} :
    s ∈ (q.eraseBlocks p).spans ↔ s ∈ q.spans ∧ p s = false := by
  simp [eraseBlocks]

theorem eraseBlocks_sublist (q : BlockQueue) (p : Span → Bool) :
    (q.eraseBlocks p).spans.Sublist q.spans := List.filter_sublist

theorem mem_of_getNextSpan (h : q.getNextSpan = some s) : s ∈ q.spans :=
  List.mem_of_find?_eq_some h

end BlockQueue

end Nerva
