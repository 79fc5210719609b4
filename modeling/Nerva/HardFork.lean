import Nerva.State

/-!
# Hard forks

`HardFork`: which fork version a block must carry, and how the current version moves as blocks are
added, popped and rescanned. The fork tables of the code all have threshold zero, so that a fork
activates at its height whatever the votes.
-/

namespace Nerva

namespace ForkTable

def back (t : ForkTable) : Fork := t.forks.getLast t.ne_nil

theorem length_pos (t : ForkTable) : 0 < t.forks.length := List.length_pos_iff.mpr t.ne_nil

def indexFrom (t : ForkTable) (height : ℕ) : (n : ℕ) → n < t.forks.length → Fin t.forks.length
  | 0, h => ⟨0, h⟩
  | n + 1, h =>
    if (t.forks.get ⟨n + 1, h⟩).height ≤ height then ⟨n + 1, h⟩
    else t.indexFrom height n (by omega)

def indexAt (t : ForkTable) (height : ℕ) : Fin t.forks.length :=
  t.indexFrom height (t.forks.length - 1) (by have := t.length_pos; omega)

def versionAt (t : ForkTable) (height : ℕ) : ℕ := (t.forks.get (t.indexAt height)).version

/-- `config::hard_forks`. -/
def mainnet : ForkTable where
  forks := [⟨1, 1, 0⟩, ⟨2, 2, 0⟩, ⟨3, 3, 0⟩, ⟨4, 4, 0⟩, ⟨5, 5, 0⟩, ⟨6, 44500, 0⟩, ⟨7, 173500, 0⟩,
    ⟨8, 180000, 0⟩, ⟨9, 240500, 0⟩, ⟨10, 341000, 0⟩, ⟨11, 500000, 0⟩, ⟨12, 930000, 0⟩,
    ⟨13, 4320000, 0⟩, ⟨14, 4480000, 0⟩]
  ne_nil := by simp
  increasing := by decide

/-- `config::testnet::hard_forks`, and the same table for stagenet. -/
def testnet : ForkTable where
  forks := [⟨1, 1, 0⟩, ⟨2, 2, 0⟩, ⟨3, 3, 0⟩, ⟨4, 4, 0⟩, ⟨5, 5, 0⟩, ⟨6, 6, 0⟩, ⟨7, 550, 0⟩,
    ⟨8, 560, 0⟩, ⟨9, 570, 0⟩, ⟨10, 580, 0⟩, ⟨11, 590, 0⟩, ⟨12, 700, 0⟩, ⟨13, 800, 0⟩,
    ⟨14, 1000, 0⟩]
  ne_nil := by simp
  increasing := by decide

def NoVoting (t : ForkTable) : Prop := ∀ f ∈ t.forks, f.threshold = 0

end ForkTable

namespace BlockchainDB

def getHardForkVersion (db : BlockchainDB) (height : ℕ) : ℕ := (db.hfVersions.lookup height).getD 0

def setHardForkVersion (db : BlockchainDB) (height version : ℕ) : BlockchainDB :=
  { db with hfVersions := (height, version) :: db.hfVersions }

end BlockchainDB

/-- `get_block_vote`: a minor version of 0 votes for version 1. -/
def Block.vote (b : Block) : ℕ := if b.minorVersion = 0 then 1 else b.minorVersion

namespace HardFork

variable (hf : HardFork)

def getIdealVersionAt (height : ℕ) : ℕ :=
  if (hf.heights.indexAt height).val = 0 then hf.originalVersion else hf.heights.versionAt height

def getIdealVersion : ℕ := hf.heights.back.version

def getEffectiveVersion (votingVersion : ℕ) : ℕ :=
  if hf.heights.back.version < votingVersion then hf.heights.back.version else votingVersion

def doCheck (blockVersion votingVersion : ℕ) : Bool :=
  blockVersion = hf.getCurrentVersion && hf.getCurrentVersion ≤ votingVersion

def check (b : Block) : Bool := hf.doCheck b.majorVersion b.vote

/-- The loop of `get_voted_fork_index` over the first `n` forks, from the last of them down. -/
def votedFrom (hf : HardFork) (height : ℕ) :
    (n : ℕ) → n ≤ hf.heights.forks.length → ℕ → Fin hf.heights.forks.length
  | 0, _, _ => hf.currentForkIndex
  | n + 1, h, accumulatedVotes =>
    let fork := hf.heights.forks.get ⟨n, h⟩
    let votes := accumulatedVotes + hf.lastVersions fork.version
    if fork.height ≤ height ∧ (hf.windowSize * fork.threshold + 99) / 100 ≤ votes then ⟨n, h⟩
    else hf.votedFrom height n (by omega) votes

def getVotedForkIndex (height : ℕ) : Fin hf.heights.forks.length :=
  hf.votedFrom height hf.heights.forks.length (Nat.le_refl _) 0

def checkForHeight (b : Block) (height : ℕ) : Bool :=
  let version := (hf.heights.forks.get (hf.getVotedForkIndex height)).version
  b.majorVersion = version && version ≤ b.vote

def advance (height : ℕ) : HardFork :=
  let voted := hf.getVotedForkIndex height
  { hf with currentForkIndex := if hf.currentForkIndex < voted then voted else hf.currentForkIndex }

def pushVote (b : Block) : HardFork :=
  { hf with versions := hf.versions.drop (hf.versions.length + 1 - hf.windowSize) ++
      [hf.getEffectiveVersion b.vote] }

variable (db : BlockchainDB)

/-- `add`: the version the block had to carry is recorded. Nothing happens to a block of the wrong
version. -/
def add (b : Block) (height : ℕ) : HardFork × BlockchainDB :=
  if hf.check b then
    ((hf.pushVote b).advance (height + 1), db.setHardForkVersion height hf.getCurrentVersion)
  else (hf, db)

/-- `on_block_popped(1)`, with the database the block is already gone from. -/
def onBlockPopped : HardFork :=
  { hf with
    versions := db.getHardForkVersion db.height :: hf.versions.dropLast
    currentForkIndex := hf.heights.indexAt db.height }

/-- The loop that lowers the current index to a fork of version at most `startVersion`. -/
def lowerFrom (t : ForkTable) (startVersion : ℕ) :
    (n : ℕ) → n < t.forks.length → Fin t.forks.length
  | 0, h => ⟨0, h⟩
  | n + 1, h =>
    if startVersion < (t.forks.get ⟨n + 1, h⟩).version then lowerFrom t startVersion n (by omega)
    else ⟨n + 1, h⟩

def addAll : ℕ → List BlockInfo → HardFork × BlockchainDB → HardFork × BlockchainDB
  | _, [], (hf, db) => (hf, db)
  | height, b :: bs, (hf, db) => addAll (height + 1) bs (hf.add db b.bl height)

def reorganizeFromBlockHeight (height : ℕ) : HardFork × BlockchainDB :=
  if db.height ≤ height then (hf, db)
  else
    let startVersion := if height = 0 then hf.originalVersion else db.getHardForkVersion height
    let rescanHeight := height - (hf.windowSize - 1)
    let rescanned := (db.blocks.take (height + 1)).drop rescanHeight
    let hf' : HardFork :=
      { hf with
        versions := rescanned.map fun b => hf.getEffectiveVersion b.bl.vote
        currentForkIndex := lowerFrom hf.heights startVersion hf.currentForkIndex.val
          hf.currentForkIndex.isLt }
    addAll (height + 1) (db.blocks.drop (height + 1)) (hf'.advance (height + 1), db)

/-- The state from which `reorganize_from_block_height` adds the blocks above `height` again. -/
def lowered (height : ℕ) : HardFork :=
  { hf with
    versions := ((db.blocks.take (height + 1)).drop (height - (hf.windowSize - 1))).map
      fun b => hf.getEffectiveVersion b.bl.vote
    currentForkIndex := lowerFrom hf.heights
      (if height = 0 then hf.originalVersion else db.getHardForkVersion height)
      hf.currentForkIndex.val hf.currentForkIndex.isLt }

def reorganizeFromChainHeight (height : ℕ) : HardFork × BlockchainDB :=
  if height = 0 then (hf, db) else hf.reorganizeFromBlockHeight db (height - 1)

/-- The loop that looks for a version from the first fork on, and stops at the last one. -/
def seekVersion (t : ForkTable) (version : ℕ) : Fin t.forks.length :=
  ⟨min (t.forks.findIdx fun f => f.version = version) (t.forks.length - 1), by
    have := t.length_pos
    omega⟩

def rescanFromBlockHeight (height : ℕ) : HardFork :=
  if db.height ≤ height then hf
  else
    let hf' : HardFork :=
      { hf with
        versions := (db.blocks.drop height).map fun b => hf.getEffectiveVersion b.bl.vote
        currentForkIndex := seekVersion hf.heights (db.getHardForkVersion (db.height - 1)) }
    hf'.advance db.height

def rescanFromChainHeight (height : ℕ) : HardFork :=
  if height = 0 then hf else hf.rescanFromBlockHeight db (height - 1)

/-- `init`: the state is restored from the database. -/
def init : HardFork :=
  { hf with versions := [], currentForkIndex := ⟨0, hf.heights.length_pos⟩ }
    |>.rescanFromChainHeight db
    (if hf.windowSize < db.height then db.height - (hf.windowSize - 1) else 1)

end HardFork

end Nerva
