import Nerva.Basic

/-!
# The block cache of the proof of work

From version 7 on the proof of work reads data of earlier blocks, which `BlockchainLMDB` keeps in
memory. `build_block_cache` extends the cache from the `block_info` table; `remove_block` and
`batch_abort` lower its height and leave the arrays alone.
-/

namespace Nerva

structure BlockRow where
  biHash : Hash
  biTimestamp : UInt64
  biDiffLo : UInt64
  biCoins : UInt64
  deriving DecidableEq, Repr, Inhabited

/-- `m_block_hashes` and `m_block_fields`, and `m_block_cache_height`. -/
structure BlockCache where
  rows : ℕ → BlockRow
  height : ℕ

namespace BlockCache

/-- The loop of `build_block_cache` from `index` on, over that many rows. False is the exception for
a row that is not there; what was copied before it stays. -/
def fill (blockInfo : ℕ → Option BlockRow) : ℕ → ℕ → (ℕ → BlockRow) → Bool × (ℕ → BlockRow)
  | 0, _, rows => (true, rows)
  | n + 1, index, rows =>
    match blockInfo index with
    | none => (false, rows)
    | some row => fill blockInfo n (index + 1) fun i => if i = index then row else rows i

def build (blockInfo : ℕ → Option BlockRow) (cache : BlockCache) (height : ℕ) : Bool × BlockCache :=
  if height ≤ cache.height then (true, cache)
  else
    match fill blockInfo (height - cache.height) cache.height cache.rows with
    | (false, rows) => (false, { cache with rows })
    | (true, rows) => (true, ⟨rows, height⟩)

def lower (cache : BlockCache) (height : ℕ) : BlockCache :=
  if height < cache.height then { cache with height } else cache

def Agrees (cache : BlockCache) (chain : List BlockRow) : Prop :=
  ∀ i < cache.height, chain[i]? = some (cache.rows i)

instance (cache : BlockCache) (chain : List BlockRow) : Decidable (cache.Agrees chain) :=
  inferInstanceAs (Decidable (∀ i < cache.height, _))

end BlockCache

/-- `BlockchainLMDB` as far as the cache reads it: the committed rows, those of the write
transaction while a batch is open, and the cache. -/
structure CacheDb where
  committed : List BlockRow
  batch : Option (List BlockRow) := none
  cache : BlockCache

/-- The calls of the writer's thread and of the readers. A call of `build_block_cache` holds the
cache lock from before it opens its transaction to its end, so it is one step, taken where the
transaction is opened; `remove_block` and `batch_abort` end with the lowering. -/
inductive CacheOp
  | batchStart
  | addBlock (row : BlockRow)
  | removeBlock
  /-- False when the commit fails: the transaction is gone, and `cleanup_batch` is all that is
  run. -/
  | batchStop (committed : Bool)
  | batchAbort
  | writerBuild (height : ℕ)
  | readerBuild (height : ℕ)
  deriving DecidableEq, Repr

namespace CacheDb

def opened (committed : List BlockRow) (rows : ℕ → BlockRow) : CacheDb where
  committed := committed
  cache := ⟨rows, 0⟩

def chain (db : CacheDb) : List BlockRow :=
  db.batch.getD db.committed

/-- One call. A call that throws before it writes, and one that needs an open batch when none is,
changes nothing. -/
def step (db : CacheDb) : CacheOp → CacheDb
  | .batchStart =>
    match db.batch with
    | none => { db with batch := some db.committed }
    | some _ => db
  | .addBlock row => { db with batch := db.batch.map (· ++ [row]) }
  | .removeBlock =>
    match db.batch with
    | some (row :: rows) => { db with
        batch := some (row :: rows).dropLast
        cache := db.cache.lower ((row :: rows).length - 1) }
    | _ => db
  | .batchStop committed =>
    match db.batch with
    | some chain => { db with
        committed := if committed then chain else db.committed
        batch := none }
    | none => db
  | .batchAbort =>
    match db.batch with
    | some _ => { db with batch := none, cache := db.cache.lower db.committed.length }
    | none => db
  | .writerBuild height => { db with cache := (db.cache.build (db.chain[·]?) height).2 }
  | .readerBuild height => { db with cache := (db.cache.build (db.committed[·]?) height).2 }

def run (db : CacheDb) (ops : List CacheOp) : CacheDb :=
  ops.foldl step db

end CacheDb

end Nerva
