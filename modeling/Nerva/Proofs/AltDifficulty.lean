import Nerva.Difficulty
import Nerva.Proofs.HardFork
import Nerva.Proofs.Accepting

/-!
# The difficulty of an alternative chain

`get_next_difficulty_for_alternative_chain` assembles the window that
`get_difficulty_for_next_block` would read if the alternative chain were the main one, but takes
the algorithm and the window length of the main chain's current fork version.
-/

namespace Nerva

open List

/-- The algorithms that the versions choose from. -/
inductive DifficultyAlgorithm
  | v1
  | v2
  | v3
  | v4
  | v6
  deriving DecidableEq, Repr

/-- The algorithm of a version. -/
def algorithmFor (version : ℕ) : DifficultyAlgorithm :=
  if version = 1 then .v1
  else if version = 2 then .v2
  else if version = 3 then .v3
  else if version < 6 then .v4
  else .v6

namespace DifficultyAlgorithm

def blocksCount : DifficultyAlgorithm → ℕ
  | .v1 => difficultyBlocksCount
  | .v2 => difficultyBlocksCountV2
  | .v3 => difficultyBlocksCountV3
  | .v4 => difficultyBlocksCountV3
  | .v6 => difficultyBlocksCountV6

def run (fns : DifficultyFns) (timestamps : List UInt64) (difficulties : List ℕ) :
    DifficultyAlgorithm → UInt64
  | .v1 => fns.v1 timestamps difficulties difficultyTarget
  | .v2 => fns.v2 timestamps difficulties difficultyTarget
  | .v3 => fns.v3 timestamps difficulties difficultyTarget false
  | .v4 => fns.v3 timestamps difficulties difficultyTarget true
  | .v6 => fns.v6 timestamps difficulties difficultyTarget

end DifficultyAlgorithm

theorem blocksCountFor_eq (version : ℕ) :
    blocksCountFor version = (algorithmFor version).blocksCount := by
  unfold blocksCountFor algorithmFor
  split_ifs <;> first | rfl | omega

theorem next_eq_run (fns : DifficultyFns) (version : ℕ) (ts : List UInt64) (ds : List ℕ) :
    fns.next version ts ds = (algorithmFor version).run fns ts ds := by
  unfold DifficultyFns.next algorithmFor
  split_ifs <;> rfl

/-- Algorithms that return different values. -/
def tellingFns : DifficultyFns where
  v1 _ _ _ := 1
  v2 _ _ _ := 2
  v3 _ _ _ v4 := if v4 then 4 else 3
  v6 _ _ _ := 6

/-- Their values tell the algorithms apart. -/
theorem algorithm_eq_of_run_eq {a b : DifficultyAlgorithm} {ts ts' : List UInt64}
    {ds ds' : List ℕ} (h : a.run tellingFns ts ds = b.run tellingFns ts' ds') : a = b := by
  cases a <;> cases b <;>
    first | rfl | exact absurd h (by simp [DifficultyAlgorithm.run, tellingFns])

def BlockInfo.work (b : BlockInfo) : UInt64 × ℕ := (b.bl.timestamp, b.cumulativeDifficulty)

def AltBlock.work (b : AltBlock) : UInt64 × ℕ := (b.bl.timestamp, b.cumulativeDifficulty)

/-- `bc'` is the chain that follows `bc` below height `split` and then has the blocks of `alt`, as
a main chain whose difficulty cache is cold. -/
structure FollowsAlt (env : Env) (bc bc' : Blockchain) (split : ℕ) (alt : List AltBlock) :
    Prop where
  split_pos : 1 ≤ split
  split_le : split ≤ bc.db.height
  alt_height : ∀ b ∈ alt.head?, b.height = split
  blocks : ∃ suffix, bc'.db.blocks = bc.db.blocks.take split ++ suffix ∧
    suffix.map BlockInfo.work = alt.map AltBlock.work
  heights : bc'.hardfork.heights = bc.hardfork.heights
  sync : bc.hardfork.InSync bc.db.height
  sync' : bc'.hardfork.InSync bc'.db.height
  free : bc.fixedDifficulty = 0 ∧ bc'.fixedDifficulty = 0
  cold : bc'.difficultyCache = {}
  topHash_ne : bc'.db.topBlockHash env ≠ nullHash

theorem refreshWindow_of_zero (env : Env) (db : BlockchainDB) (count : ℕ)
    {cache : DifficultyCache} (h : cache.timestampsAndDifficultiesHeight = 0) :
    (refreshWindow env db count cache).timestamps =
        (scratchWindow db count).map (·.bl.timestamp) ∧
      (refreshWindow env db count cache).difficulties =
        (scratchWindow db count).map (·.cumulativeDifficulty) := by
  unfold refreshWindow
  rw [if_neg (fun hc => hc.1 h)]
  exact ⟨rfl, rfl⟩

section Window

variable {env : Env} {bc bc' : Blockchain} {split : ℕ} {alt : List AltBlock}

theorem FollowsAlt.height (h : FollowsAlt env bc bc' split alt) :
    bc'.db.height = split + alt.length := by
  obtain ⟨suffix, hb, hw⟩ := h.blocks
  have hlen := congrArg List.length hw
  have hle := h.split_le
  simp only [length_map] at hlen
  simp only [BlockchainDB.height] at hle ⊢
  rw [hb, length_append, length_take]
  omega

theorem windowStart_eq (count height : ℕ) : windowStart count height = max 1 (height - count) := by
  unfold windowStart
  simp only []
  split_ifs <;> omega

theorem windowStart_of_lt {count split m : ℕ} (hm : m < count) :
    windowStart count (split + m) =
      if split - min (count - min count m) split = 0 then 1
      else split - min (count - min count m) split := by
  rw [windowStart_eq]
  split_ifs <;> omega

variable (h : FollowsAlt env bc bc' split alt)

include h

/-- The window gathered over a branch is that of the chain it makes. -/
theorem FollowsAlt.window (count : ℕ) :
    altWindow bc.db count alt (split + alt.length) =
      (scratchWindow bc'.db count).map BlockInfo.work := by
  obtain ⟨suffix, hb, hw⟩ := h.blocks
  have hpos := h.split_pos
  have hsplit : (bc.db.blocks.take split).length = split := by
    have := h.split_le
    simp only [BlockchainDB.height] at this
    rw [length_take]
    omega
  have hscratch : ∀ start, (bc'.db.range start bc'.db.height).map BlockInfo.work =
      ((bc.db.blocks.take split).drop start).map BlockInfo.work ++
        (alt.drop (start - split)).map AltBlock.work := by
    intro start
    rw [BlockchainDB.range, BlockchainDB.height, take_length, hb, drop_append, hsplit,
      map_append]
    congr 1
    rw [map_drop, hw, map_drop]
  rw [scratchWindow, hscratch, h.height, altWindow]
  by_cases hm : alt.length < count
  · have hstop : (alt.head?.map (·.height)).getD (split + alt.length) = split := by
      cases alt with
      | nil => rfl
      | cons b rest => exact h.alt_height b rfl
    rw [if_pos hm, windowStart_of_lt hm]
    simp only [hstop]
    have hdrop : ∀ n ≤ split, n - split = 0 := by omega
    rw [hdrop _ (by split_ifs <;> omega)]
    rfl
  · have hstart : windowStart count (split + alt.length) = split + (alt.length - count) := by
      rw [windowStart_eq]
      omega
    have hnil : (bc.db.blocks.take split).drop (split + (alt.length - count)) = [] :=
      drop_eq_nil_of_le (by omega)
    rw [if_neg hm, hstart, hnil, Nat.add_sub_cancel_left]
    rfl

/-- The difficulty for a branch, by the version of the main chain's height. -/
theorem FollowsAlt.altDifficulty (fns : DifficultyFns) :
    getNextDifficultyForAlternativeChain fns bc alt (split + alt.length) =
      fns.next (bc.hardfork.heights.versionAt bc.db.height)
        ((scratchWindow bc'.db
          (blocksCountFor (bc.hardfork.heights.versionAt bc.db.height))).map (·.bl.timestamp))
        ((scratchWindow bc'.db
          (blocksCountFor (bc.hardfork.heights.versionAt bc.db.height))).map
            (·.cumulativeDifficulty)) := by
  rw [getNextDifficultyForAlternativeChain, if_neg (fun hc => hc h.free.1)]
  simp only [h.window, Blockchain.getCurrentHardForkVersion, h.sync.version, map_map]
  rfl

/-- The difficulty for the chain it makes, by the version of its own height. -/
theorem FollowsAlt.mainDifficulty (fns : DifficultyFns) :
    (getDifficultyForNextBlock env fns bc').1 =
      fns.next (bc.hardfork.heights.versionAt (split + alt.length))
        ((scratchWindow bc'.db (blocksCountFor
          (bc.hardfork.heights.versionAt (split + alt.length)))).map (·.bl.timestamp))
        ((scratchWindow bc'.db (blocksCountFor
          (bc.hardfork.heights.versionAt (split + alt.length)))).map
            (·.cumulativeDifficulty)) := by
  have hv : bc'.getCurrentHardForkVersion =
      bc.hardfork.heights.versionAt (split + alt.length) := by
    rw [Blockchain.getCurrentHardForkVersion, h.sync'.version, h.height, h.heights]
  have hcold : ¬bc'.db.topBlockHash env = bc'.difficultyCache.difficultyForNextBlockTopHash := by
    rw [h.cold]
    exact h.topHash_ne
  obtain ⟨hts, hds⟩ := refreshWindow_of_zero env bc'.db
    (blocksCountFor (bc.hardfork.heights.versionAt (split + alt.length)))
    (by rw [h.cold] : bc'.difficultyCache.timestampsAndDifficultiesHeight = 0)
  rw [getDifficultyForNextBlock, if_neg (fun hc => hc h.free.2)]
  simp only [if_neg hcold, hv, hts, hds]

end Window

/-- The difficulty an alternative chain is asked for is the one it would be asked for as main chain
exactly when the main chain's version and the version at its next height use the same algorithm. -/
theorem altDifficulty_eq_iff_algorithm (env : Env) (bc bc' : Blockchain) (split : ℕ)
    (alt : List AltBlock) (h : FollowsAlt env bc bc' split alt) :
    (∀ fns, getNextDifficultyForAlternativeChain fns bc alt (split + alt.length) =
      (getDifficultyForNextBlock env fns bc').1) ↔
    algorithmFor (bc.hardfork.heights.versionAt bc.db.height) =
      algorithmFor (bc.hardfork.heights.versionAt (split + alt.length)) := by
  simp only [h.altDifficulty, h.mainDifficulty, next_eq_run, blocksCountFor_eq]
  constructor
  · intro heq
    exact algorithm_eq_of_run_eq (heq tellingFns)
  · intro heq fns
    rw [heq]

def timedBlock (timestamp : UInt64) (cumulativeDifficulty : ℕ) : BlockInfo where
  bl := ⟨1, 1, timestamp, 0, 0, ⟨1, 0, [], [], [], ⟨.null, 0, [], [], [], []⟩, false⟩, []⟩
  txs := []
  blockWeight := 0
  longTermBlockWeight := 0
  cumulativeDifficulty := cumulativeDifficulty
  alreadyGeneratedCoins := 0

/-- The first blocks of a mainnet chain, with the difficulty 1 the functions ask of each. -/
def firstBlocks (n : ℕ) : Blockchain where
  db :=
    { blocks :=
        [timedBlock 0 1, timedBlock 1000 2, timedBlock 1030 3, timedBlock 1060 4].take n }
  hardfork := { heights := ForkTable.mainnet, currentForkIndex := ForkTable.mainnet.indexAt n }

def hashOneEnv : Env := { Env.accepting (timedBlock 0 0).bl.minerTx with blockHash := fun _ => 1 }

theorem firstBlocks_followsAlt : FollowsAlt hashOneEnv (firstBlocks 4) (firstBlocks 3) 3 [] where
  split_pos := by decide
  split_le := by decide
  alt_height := by simp
  blocks := ⟨[], by decide, rfl⟩
  heights := rfl
  sync := rfl
  sync' := rfl
  free := ⟨rfl, rfl⟩
  cold := rfl
  topHash_ne := by decide

theorem altDifficulty_eq_iff_algorithm_firstBlocks :
    FollowsAlt hashOneEnv (firstBlocks 4) (firstBlocks 3) 3 [] ∧
    ((∀ fns, getNextDifficultyForAlternativeChain fns (firstBlocks 4) [] 3 =
      (getDifficultyForNextBlock hashOneEnv fns (firstBlocks 3)).1) ↔
    algorithmFor (ForkTable.mainnet.versionAt 4) = algorithmFor (ForkTable.mainnet.versionAt 3)) :=
  ⟨firstBlocks_followsAlt, altDifficulty_eq_iff_algorithm _ _ _ 3 [] firstBlocks_followsAlt⟩

/-- Once the main chain has four blocks, a second block at height 3 is asked for difficulty 0, which
is refused as an overflow. -/
theorem altDifficulty_zero_at_height_three :
    FollowsAlt hashOneEnv (firstBlocks 4) (firstBlocks 3) 3 [] ∧
    getNextDifficultyForAlternativeChain (sourceFns fun _ _ _ => 1) (firstBlocks 4) [] 3 = 0 ∧
    (getDifficultyForNextBlock hashOneEnv (sourceFns fun _ _ _ => 1) (firstBlocks 3)).1 = 1 :=
  ⟨firstBlocks_followsAlt, by decide, by decide⟩

end Nerva
