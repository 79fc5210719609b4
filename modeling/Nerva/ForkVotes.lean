import Nerva.HardFork
import Nerva.Lib.Histogram

/-!
# The vote counters of a hard fork

`HardFork` as it is in memory: next to the deque of the last versions there are the counters
`last_versions`, which every function keeps up on its own, and from which the votes are read.
-/

namespace Nerva

namespace ForkTable

def addFork (forks : List Fork) (f : Fork) : List Fork :=
  if f.version = 0 then forks
  else if forks.getLast?.any fun last => f.version ≤ last.version || f.height ≤ last.height then
    forks
  else if 100 < f.threshold then forks
  else forks ++ [f]

def added (originalVersion : ℕ) (forks : List Fork) : List Fork :=
  match forks.foldl addFork [] with
  | [] => [⟨originalVersion, 0, 0⟩]
  | f :: fs => f :: fs

theorem addFork_ordered {forks : List Fork} {f : Fork}
    (h : forks.Pairwise fun a b => a.version < b.version ∧ a.height < b.height) :
    (addFork forks f).Pairwise fun a b => a.version < b.version ∧ a.height < b.height := by
  unfold addFork
  split_ifs with hzero hback hthreshold
  · exact h
  · exact h
  · exact h
  · refine List.pairwise_append.2 ⟨h, List.pairwise_singleton _ _, fun a ha b hb => ?_⟩
    obtain rfl := List.mem_singleton.1 hb
    rcases List.eq_nil_or_concat' forks with rfl | ⟨front, last, rfl⟩
    · exact absurd ha List.not_mem_nil
    · simp only [List.getLast?_append, List.getLast?_singleton, Option.some_or, Option.any_some,
        Bool.or_eq_true, decide_eq_true_eq, not_or, Nat.not_le] at hback
      rcases List.mem_append.1 ha with ha | ha
      · have hlast := (List.pairwise_append.1 h).2.2 a ha last List.mem_cons_self
        exact ⟨Nat.lt_trans hlast.1 hback.1, Nat.lt_trans hlast.2 hback.2⟩
      · obtain rfl := List.mem_singleton.1 ha
        exact hback

theorem foldl_addFork_ordered : ∀ (forks : List Fork) {table : List Fork},
    (table.Pairwise fun a b => a.version < b.version ∧ a.height < b.height) →
      (forks.foldl addFork table).Pairwise fun a b => a.version < b.version ∧ a.height < b.height
  | [], _, h => h
  | _ :: forks, _, h => foldl_addFork_ordered forks (addFork_ordered h)

def ofAdded (forks : List Fork) : ForkTable where
  forks := added 1 forks
  ne_nil := by
    unfold added
    split <;> simp
  increasing := by
    have h := foldl_addFork_ordered forks (List.Pairwise.nil (R := fun a b : Fork =>
      a.version < b.version ∧ a.height < b.height))
    unfold added
    split
    · exact List.pairwise_singleton _ _
    · rename_i heq
      rwa [heq] at h

end ForkTable

/-- `HardFork` with the counters. The code's are unsigned, and are not decreased at zero. -/
structure VotingFork extends HardFork where
  lastVersions : ℕ → ℕ

namespace VotingFork

def votedFrom (s : VotingFork) (height : ℕ) :
    (n : ℕ) → n ≤ s.heights.forks.length → ℕ → Fin s.heights.forks.length
  | 0, _, _ => s.currentForkIndex
  | n + 1, h, accumulatedVotes =>
    let fork := s.heights.forks.get ⟨n, h⟩
    let votes := accumulatedVotes + s.lastVersions fork.version
    if fork.height ≤ height ∧ (s.windowSize * fork.threshold + 99) / 100 ≤ votes then ⟨n, h⟩
    else s.votedFrom height n (by omega) votes

variable (s : VotingFork)

def getVotedForkIndex (height : ℕ) : Fin s.heights.forks.length :=
  s.votedFrom height s.heights.forks.length (Nat.le_refl _) 0

def advance (height : ℕ) : VotingFork :=
  let voted := s.getVotedForkIndex height
  { s with currentForkIndex := if s.currentForkIndex < voted then voted else s.currentForkIndex }

def pushBack (version : ℕ) : VotingFork :=
  { s with
    versions := s.versions ++ [version]
    lastVersions := Histogram.bump s.lastVersions version }

def popFront : VotingFork :=
  let trimmed := Histogram.trim s.windowSize s.versions s.lastVersions
  { s with versions := trimmed.1, lastVersions := trimmed.2 }

variable (db : BlockchainDB)

def add (b : Block) (height : ℕ) : VotingFork × BlockchainDB :=
  if s.check b then
    ((s.popFront.pushBack (s.getEffectiveVersion b.vote)).advance (height + 1),
      db.setHardForkVersion height s.getCurrentVersion)
  else (s, db)

def addAll : ℕ → List BlockInfo → VotingFork × BlockchainDB → VotingFork × BlockchainDB
  | _, [], s => s
  | height, b :: bs, s => addAll (height + 1) bs (s.1.add s.2 b.bl height)

def clear : VotingFork := { s with versions := [], lastVersions := fun _ => 0 }

def scan (infos : List BlockInfo) : VotingFork :=
  infos.foldl (fun s info => s.pushBack (s.getEffectiveVersion info.bl.vote)) s

def lowerTo (startVersion : ℕ) : VotingFork :=
  { s with
    currentForkIndex := HardFork.lowerFrom s.heights startVersion s.currentForkIndex.val
      s.currentForkIndex.isLt }

def seek (version : ℕ) : VotingFork :=
  { s with currentForkIndex := HardFork.seekVersion s.heights version }

def reorganizeFromBlockHeight (height : ℕ) : VotingFork × BlockchainDB :=
  if db.height ≤ height then (s, db)
  else
    let startVersion := if height = 0 then s.originalVersion else db.getHardForkVersion height
    let rescanHeight := height - (s.windowSize - 1)
    let s := (s.clear.lowerTo startVersion).scan ((db.blocks.take (height + 1)).drop rescanHeight)
    addAll (height + 1) (db.blocks.drop (height + 1)) (s.advance (height + 1), db)

def reorganizeFromChainHeight (height : ℕ) : VotingFork × BlockchainDB :=
  if height = 0 then (s, db) else s.reorganizeFromBlockHeight db (height - 1)

def rescanFromBlockHeight (height : ℕ) : VotingFork :=
  if db.height ≤ height then s
  else
    let lastv := db.getHardForkVersion (db.height - 1)
    ((s.clear.scan (db.blocks.drop height)).seek lastv).advance db.height

def rescanFromChainHeight (height : ℕ) : VotingFork :=
  if height = 0 then s else s.rescanFromBlockHeight db (height - 1)

def init : VotingFork :=
  { s.clear with currentForkIndex := ⟨0, s.heights.length_pos⟩ }.rescanFromChainHeight db
    (if s.windowSize < db.height then db.height - (s.windowSize - 1) else 1)

/-- A turn of the loop of `on_block_popped`: the newest version goes, an older one comes. -/
def popVersion (version : ℕ) : VotingFork :=
  { s with
    versions := version :: s.versions.dropLast
    lastVersions :=
      Histogram.bump (Histogram.unbump s.lastVersions (s.versions.getLastD 0)) version }

/-- The loop of `on_block_popped` for `n` blocks from `newChainHeight` on, the highest first. -/
def popVersions (db : BlockchainDB) (newChainHeight : ℕ) : ℕ → VotingFork → VotingFork
  | 0, s => s
  | n + 1, s =>
    popVersions db newChainHeight n (s.popVersion (db.getHardForkVersion (newChainHeight + n)))

/-- `on_block_popped`, with the database the blocks are gone from. Without a block it throws: the
counter of its loop wraps around, and there is no version for that height. -/
def onBlockPopped (nblocks : ℕ) : Option VotingFork :=
  if nblocks = 0 ∨ db.height = 0 then none
  else
    let s' := popVersions db db.height nblocks s
    some { s' with currentForkIndex := s'.heights.indexAt db.height }

end VotingFork

structure ForkNode where
  fork : VotingFork
  db : BlockchainDB

inductive ForkOp
  | init
  | reset
  | add (info : BlockInfo)
  | onBlockPopped (nblocks : ℕ)
  | reorganizeFromBlockHeight (height : ℕ)
  | reorganizeFromChainHeight (height : ℕ)
  | rescanFromChainHeight (height : ℕ)

namespace ForkNode

/-- An object with these forks on an empty database, after `init`. -/
def start (forks : List Fork) (windowSize : ℕ) : ForkNode :=
  let fork : VotingFork :=
    { heights := .ofAdded forks, windowSize,
      currentForkIndex := ⟨0, (ForkTable.ofAdded forks).length_pos⟩, lastVersions := fun _ => 0 }
  let db : BlockchainDB := { blocks := [] }
  ⟨fork.init db, db⟩

/-- A block that `check` refuses does not get into the database, and genesis does not get out of
it. -/
def step (n : ForkNode) : ForkOp → ForkNode
  | .init => { n with fork := n.fork.init n.db }
  | .reset =>
    let db := { n.db with blocks := [], hfVersions := [] }
    ⟨n.fork.init db, db⟩
  | .add info =>
    if n.fork.check info.bl then
      let added := n.fork.add { n.db with blocks := n.db.blocks ++ [info] } info.bl n.db.height
      ⟨added.1, added.2⟩
    else n
  | .onBlockPopped nblocks =>
    if nblocks < n.db.height then
      let db := { n.db with blocks := n.db.blocks.take (n.db.height - nblocks) }
      match n.fork.onBlockPopped db nblocks with
      | some fork => ⟨fork, db⟩
      | none => n
    else n
  | .reorganizeFromBlockHeight height =>
    let reorganized := n.fork.reorganizeFromBlockHeight n.db height
    ⟨reorganized.1, reorganized.2⟩
  | .reorganizeFromChainHeight height =>
    let reorganized := n.fork.reorganizeFromChainHeight n.db height
    ⟨reorganized.1, reorganized.2⟩
  | .rescanFromChainHeight height => { n with fork := n.fork.rescanFromChainHeight n.db height }

def run (n : ForkNode) (ops : List ForkOp) : ForkNode := ops.foldl step n

/-- The blocks that a rescan reads are no more than the window takes. -/
def Within (n : ForkNode) : ForkOp → Prop
  | .rescanFromChainHeight height =>
    height = 0 ∨ n.db.height < height ∨ n.db.height + 1 - height ≤ n.fork.windowSize
  | _ => True

def WithinRun : ForkNode → List ForkOp → Prop
  | _, [] => True
  | n, op :: ops => n.Within op ∧ WithinRun (n.step op) ops

instance (n : ForkNode) : (op : ForkOp) → Decidable (n.Within op)
  | .rescanFromChainHeight _ => inferInstanceAs (Decidable (_ ∨ _ ∨ _))
  | .init => .isTrue trivial
  | .reset => .isTrue trivial
  | .add _ => .isTrue trivial
  | .onBlockPopped _ => .isTrue trivial
  | .reorganizeFromBlockHeight _ => .isTrue trivial
  | .reorganizeFromChainHeight _ => .isTrue trivial

instance decidableWithinRun : (n : ForkNode) → (ops : List ForkOp) → Decidable (n.WithinRun ops)
  | _, [] => .isTrue trivial
  | n, op :: ops =>
    have := decidableWithinRun (n.step op) ops
    inferInstanceAs (Decidable (_ ∧ _))

end ForkNode

end Nerva
