import Nerva.Difficulty

/-!
# Adding and popping blocks

The part of adding and popping a block that every caller shares: the database, the hard fork state
and the difficulty cache. Difficulty queries may come at any point between them.
-/

namespace Nerva

namespace Blockchain

/-- `BlockchainDB::add_block`, which hands the block on to `HardFork::add`. -/
def addBlock (bc : Blockchain) (info : BlockInfo) : Blockchain :=
  let added := bc.hardfork.add { bc.db with blocks := bc.db.blocks ++ [info] } info.bl bc.db.height
  { bc with db := added.2, hardfork := added.1 }

def forgetWindow (bc : Blockchain) : Blockchain :=
  { bc with difficultyCache := { bc.difficultyCache with timestampsAndDifficultiesHeight := 0 } }

/-- The start of `pop_block_from_blockchain`: the window cache is dropped, the block removed and
the hard fork state told. Genesis is not popped. -/
def popBlock (bc : Blockchain) : Blockchain :=
  if 1 < bc.db.height then
    let db := { bc.db with blocks := bc.db.blocks.dropLast }
    { bc.forgetWindow with db, hardfork := bc.hardfork.onBlockPopped db }
  else bc.forgetWindow

end Blockchain

inductive ChainOp
  | add (info : BlockInfo)
  | pop
  | query

def applyOp (env : Env) (fns : DifficultyFns) (bc : Blockchain) : ChainOp → Blockchain
  | .add info => bc.addBlock info
  | .pop => bc.popBlock
  | .query => (getDifficultyForNextBlock env fns bc).2

def runOps (env : Env) (fns : DifficultyFns) : Blockchain → List ChainOp → Blockchain
  | bc, [] => bc
  | bc, op :: ops => runOps env fns (applyOp env fns bc op) ops

def scratchDifficulty (fns : DifficultyFns) (bc : Blockchain) : UInt64 :=
  if bc.fixedDifficulty ≠ 0 then (if bc.db.height ≠ 0 then bc.fixedDifficulty else 1)
  else
    let version := bc.getCurrentHardForkVersion
    let window := scratchWindow bc.db (blocksCountFor version)
    fns.next version (window.map (·.bl.timestamp)) (window.map (·.cumulativeDifficulty))

/-- A block that `handle_block_to_main_chain` adds: it extends the tip, carries the current fork
version, and its cumulative difficulty grows by what a query answers. -/
structure AddOk (env : Env) (fns : DifficultyFns) (bc : Blockchain) (info : BlockInfo) : Prop where
  prev : info.bl.prevId = bc.db.topBlockHash env
  version : bc.hardfork.check info.bl = true
  work : info.cumulativeDifficulty =
    ((bc.db.blocks.getLast?.map (·.cumulativeDifficulty)).getD 0) +
      (getDifficultyForNextBlock env fns bc).1.toNat

def RunOk (env : Env) (fns : DifficultyFns) : Blockchain → List ChainOp → Prop
  | _, [] => True
  | bc, .add info :: ops => AddOk env fns bc info ∧ RunOk env fns (bc.addBlock info) ops
  | bc, .pop :: ops => RunOk env fns bc.popBlock ops
  | bc, .query :: ops => RunOk env fns (getDifficultyForNextBlock env fns bc).2 ops

end Nerva
