import Nerva.Reorg

/-!
# Checkpoint enforcement

`check_against_checkpoints` goes through the checkpoints in the order of their heights. It looks up
each one below the height that the chain had at the start, and on a mismatch rolls the chain back to
two blocks before it.
-/

namespace Nerva

/-- `m_points`, a map in the order of its keys. -/
structure Checkpoints where
  points : List (UInt64 × Hash)
  sorted : points.Pairwise fun p q => p.1 < q.1

namespace Checkpoints

def checkBlock (points : Checkpoints) (height : UInt64) (id : Hash) : Bool :=
  (points.points.lookup height).all (· = id)

end Checkpoints

namespace Node

/-- The loop's body; none is an exception, of the lookup or of the rollback. The height is the one
before the loop, and the subtraction wraps. -/
def checkAgainstPoint (ce : ChainEnv) (points : Checkpoints) (enforce : Bool)
    (blockchainHeight : ℕ) (node : Node) (pt : UInt64 × Hash) : Option Node :=
  if blockchainHeight ≤ pt.1.toNat then some node
  else
    match node.bc.db.getBlockHashFromHeight ce.toEnv pt.1.toNat with
    | none => none
    | some id =>
      if points.checkBlock pt.1 id then some node
      else if enforce then
        (node.rollbackBlockchainSwitching ce [] (pt.1 - 2).toNat).map (·.2)
      else some node

def checkAgainstCheckpoints (ce : ChainEnv) (node : Node) (points : Checkpoints) (enforce : Bool) :
    Option Node :=
  points.points.foldlM (checkAgainstPoint ce points enforce node.bc.db.height) node

end Node

end Nerva
