import Nerva.Difficulty

/-!
# Chain locators

A node that syncs sends ids of its chain, denser near the top, and the other node answers from the
first of them that it has. It then asks for blocks by their ids.
-/

namespace Nerva

def backHeights (sz : ℕ) : ℕ → ℕ → ℕ → ℕ → List ℕ
  | 0, _, _, _ => []
  | fuel + 1, i, currentMultiplier, currentBackOffset =>
    if currentBackOffset < sz then
      (sz - currentBackOffset) ::
        if i < 10 then backHeights sz fuel (i + 1) currentMultiplier (currentBackOffset + 1)
        else backHeights sz fuel (i + 1) (currentMultiplier * 2)
          (currentBackOffset + currentMultiplier * 2)
    else []

/-- The heights of the ids, with genesis if the loop has not come to it. -/
def shortChainHeights (sz : ℕ) : List ℕ :=
  let heights := backHeights sz sz 0 1 1
  if sz = 0 then [] else if heights.contains 0 then heights else heights ++ [0]

namespace BlockchainDB

def getShortChainHistory (env : Env) (db : BlockchainDB) : Option (List Hash) :=
  (shortChainHeights db.height).mapM (db.getBlockHashFromHeight env)

def findBlockchainSupplement (env : Env) (db : BlockchainDB) (qblockIds : List Hash) : Option ℕ :=
  match qblockIds.getLast? with
  | none => none
  | some last =>
    if db.getBlockHashFromHeight env 0 = some last then qblockIds.findSome? (db.getBlockHeight env)
    else none

def getBlock (env : Env) (db : BlockchainDB) (id : Hash) : Option BlockInfo :=
  (db.getBlockHeight env id).bind (db.blocks[·]?)

/-- `get_blocks` by id: the blocks that the chain has, and the ids of the others. -/
def getBlocks (env : Env) (db : BlockchainDB) : List Hash → List BlockInfo × List Hash
  | [] => ([], [])
  | id :: ids =>
    match db.getBlock env id with
    | some b => (b :: (db.getBlocks env ids).1, (db.getBlocks env ids).2)
    | none => ((db.getBlocks env ids).1, id :: (db.getBlocks env ids).2)

/-- `get_block_weight` if there is such a block, and otherwise 0. -/
def weightOf (env : Env) (db : BlockchainDB) (id : Hash) : ℕ :=
  ((db.getBlock env id).map (·.blockWeight)).getD 0

end BlockchainDB

structure GetObjectsResponse where
  blocks : List BlockCompleteEntry
  missedIds : List Hash
  currentBlockchainHeight : ℕ

section Serving

variable (env : Env) (db : BlockchainDB) (blockToBlob : Block → Blob)
  (fill : Hash → Option TxBlobEntry) (prune : Bool)

/-- A turn of the loop of `handle_get_objects`, for `blocks[i]` and `arg.blocks[i]`; none when a
transaction is missed. -/
def completeEntry (id : Hash) (b : BlockInfo) : Option BlockCompleteEntry := do
  let txs ← b.bl.txHashes.mapM fill
  return { block := blockToBlob b.bl, txs, pruned := prune
           blockWeight := if prune then db.weightOf env id else 0 }

/-- `handle_get_objects`; none for a response that is not sent. `fill` is for the blobs of the
transactions, as they are stored or pruned. -/
def handleGetObjects (ids : List Hash) : Option GetObjectsResponse := do
  let found := db.getBlocks env ids
  let blocks ← (ids.zip found.1).mapM fun x => completeEntry env db blockToBlob fill prune x.1 x.2
  return ⟨blocks, found.2, db.height⟩

end Serving

end Nerva
