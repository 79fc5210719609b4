import Nerva.Lib.Runs
import Nerva.Proofs.Reorg
import Nerva.Proofs.RollingMedian

/-!
# The long-term median, however it is reached

Whatever the cache holds for a height below the chain's is the stored weights up to that height, so
cached, incremental and recomputed answers agree. The exception is the block that takes the chain to
version 12: it is stored with its own weight, and the cache gets the weight it would have had by the
new rule.
-/

namespace Nerva

open RollingMedian List BlockchainDB Option

namespace BlockchainDB

variable {db db' : BlockchainDB} {start count : ℕ}

/-- The median of a range of long term weights, from the database. -/
def longTermMedian (db : BlockchainDB) (start count : ℕ) : ℕ :=
  medianWeight (db.longTermBlockWeights start count)

theorem longTermBlockWeights_eq (db : BlockchainDB) (start count : ℕ) :
    db.longTermBlockWeights start count =
      ((db.blocks.drop start).take count).map (·.longTermBlockWeight) := by
  rw [longTermBlockWeights, range, ← take_drop]

theorem length_longTermBlockWeights (h : start + count ≤ db.height) :
    (db.longTermBlockWeights start count).length = count := by
  rw [longTermBlockWeights_eq, length_map, length_take, length_drop]
  unfold height at h
  omega

theorem longTermBlockWeights_succ (db : BlockchainDB) (start count : ℕ)
    (h : start + count < db.height) :
    db.longTermBlockWeights start (count + 1) =
      db.longTermBlockWeights start count ++ [db.blockLongTermWeight (start + count)] := by
  have hget : db.blocks[start + count]? = some (db.blocks.get ⟨start + count, h⟩) :=
    getElem?_eq_getElem h
  rw [longTermBlockWeights_eq, longTermBlockWeights_eq, take_add_one, map_append,
    getElem?_drop, blockLongTermWeight, hget]
  rfl

theorem longTermBlockWeights_drop (db : BlockchainDB) (start count : ℕ) :
    (db.longTermBlockWeights start (count + 1)).drop 1 =
      db.longTermBlockWeights (start + 1) count := by
  rw [longTermBlockWeights_eq, longTermBlockWeights_eq, ← map_drop, drop_take,
    drop_drop, Nat.add_sub_cancel]

theorem longTermBlockWeights_congr
    (h : db'.blocks.take (start + count) = db.blocks.take (start + count)) :
    db'.longTermBlockWeights start count = db.longTermBlockWeights start count := by
  rw [longTermBlockWeights, longTermBlockWeights, range, range, h]

end BlockchainDB

namespace LongTermCache

variable {c : LongTermCache} {bc : Blockchain} {start count : ℕ}

theorem windowSize_pos : 0 < longTermBlockWeightWindowSize := by decide

/-- The cache holds the weights of a range of blocks. -/
structure HoldsRange (c : LongTermCache) (db : BlockchainDB) (start count : ℕ) : Prop where
  tip : c.tipHeight = start + count - 1
  size : c.rollingMedian.nItems = longTermBlockWeightWindowSize
  holds : c.rollingMedian.Holds (db.longTermBlockWeights start count)

/-- What the cache holds is right for whoever asks for heights below `bound`: a window with entries
was last touched at version 12 or later, and if it ends below `bound` it is the stored weights. -/
structure Fits (c : LongTermCache) (bc : Blockchain) (bound : ℕ) : Prop where
  size : c.rollingMedian.nItems = longTermBlockWeightWindowSize
  holds : ∃ w, c.rollingMedian.Holds w ∧ (w ≠ [] →
    hfVersionLongTermBlockWeight ≤ bc.hardfork.heights.versionAt (c.tipHeight + 1) ∧
    w.length ≤ c.tipHeight + 1 ∧
    (c.tipHeight < bound →
      w = bc.db.longTermBlockWeights (c.tipHeight + 1 - w.length) w.length))

theorem fits_create (data : ℕ → ℕ) (bc : Blockchain) (bound : ℕ) : (create data).Fits bc bound :=
  ⟨rfl, [], holds_create windowSize_pos data, fun h => absurd rfl h⟩

/-- The ranges that are asked for: a full window, or one that starts at the first block. -/
structure Asked (db : BlockchainDB) (start count : ℕ) : Prop where
  pos : 0 < count
  le : count ≤ longTermBlockWeightWindowSize
  stored : start + count ≤ db.height
  full : count = longTermBlockWeightWindowSize ∨ start = 0

/-- A cache that fits answers as the database does, and then holds the range. -/
theorem Fits.getMedian {bound : ℕ} (h : c.Fits bc bound) (hasked : Asked bc.db start count)
    (hbound : start + count ≤ bound) :
    ∃ c', c.getLongTermBlockWeightMedian bc.db start count =
        some (bc.db.longTermMedian start count, c') ∧ c'.HoldsRange bc.db start count := by
  obtain ⟨w, hholds, hright⟩ := h.holds
  obtain ⟨hpos, hle, hstored, hfull⟩ := hasked
  have hlen := length_longTermBlockWeights hstored
  have hne : bc.db.longTermBlockWeights start count ≠ [] := by
    rw [← length_pos_iff]
    omega
  have hsize := h.size
  unfold getLongTermBlockWeightMedian
  rw [if_neg (Nat.ne_of_gt hpos)]
  simp only [Bool.and_eq_true, decide_eq_true_eq, RollingMedian.size, ← hholds.length]
  by_cases hcached : (start + count - 1 < bc.db.height ∧ count = w.length) ∧
      start + count - 1 = c.tipHeight
  · rw [if_pos hcached]
    obtain ⟨⟨hlt, hcount⟩, htip⟩ := hcached
    have hwne : w ≠ [] := by
      rw [← length_pos_iff]
      omega
    have hw := (hright hwne).2.2 (by omega)
    rw [← hcount, show c.tipHeight + 1 - count = start by omega] at hw
    rw [hw] at hholds
    exact ⟨c, by rw [hholds.median_eq hne]; rfl, htip.symm, hsize, hholds⟩
  · rw [if_neg hcached]
    by_cases hincr : ((0 < start + count - 1 ∧ count = w.length) ∧
        start + count - 1 < bc.db.height) ∧ start + count - 1 - 1 = c.tipHeight
    · rw [if_pos hincr]
      obtain ⟨⟨⟨htip0, hcount⟩, hlt⟩, htip⟩ := hincr
      have hwne : w ≠ [] := by
        rw [← length_pos_iff]
        omega
      obtain ⟨-, hroom, hw⟩ := hright hwne
      have hw := hw (by omega)
      -- a window that is not full starts at genesis, and cannot end one block earlier
      obtain ⟨start, rfl⟩ : ∃ k, start = k + 1 := ⟨start - 1, by omega⟩
      have hinsert := hholds.insert (bc.db.blockLongTermWeight (start + 1 + count - 1))
      have hwin : w = bc.db.longTermBlockWeights start count := by
        rw [hw, ← hcount, show c.tipHeight + 1 - count = start by omega]
      rw [pushed_of_full (by omega), hwin, show start + 1 + count - 1 = start + count by omega,
        ← bc.db.longTermBlockWeights_succ start count (by omega),
        longTermBlockWeights_drop] at hinsert
      have htip' : start + 1 + count - 1 = start + count := by omega
      simp only [htip']
      refine ⟨_, by rw [hinsert.median_eq hne]; rfl, htip'.symm, ?_, hinsert⟩
      rw [← hsize]
      exact hholds.insert_nItems _
    · rw [if_neg hincr]
      have hclear := hholds.clear
      have hfold := Holds.foldl_insert (bc.db.longTermBlockWeights start count) hclear (by
        rw [hlen, length_nil, Nat.zero_add]
        exact hle.trans (Nat.le_of_eq hsize.symm))
      exact ⟨_, by rw [hfold.1.median_eq hne]; rfl, rfl, hfold.2.trans hsize, hfold.1⟩

theorem rangeBelowTop_succ (height : ℕ) :
    rangeBelowTop (height + 1) = (height - min longTermBlockWeightWindowSize height,
      min longTermBlockWeightWindowSize height) := by
  unfold rangeBelowTop
  simp only [Prod.mk.injEq]
  split_ifs <;> omega

theorem end_rangeBelowTop (height : ℕ) :
    (rangeBelowTop (height + 1)).1 + (rangeBelowTop (height + 1)).2 = height := by
  rw [rangeBelowTop_succ]
  omega

theorem asked_rangeBelowTop {db : BlockchainDB} {height : ℕ} (hpos : 1 ≤ height)
    (hle : height ≤ db.height) :
    Asked db (rangeBelowTop (height + 1)).1 (rangeBelowTop (height + 1)).2 := by
  have hW := windowSize_pos
  rw [rangeBelowTop_succ]
  refine ⟨?_, ?_, ?_, ?_⟩ <;> simp only <;> omega

abbrev HoldsBelow (c : LongTermCache) (db : BlockchainDB) (height : ℕ) : Prop :=
  c.HoldsRange db (rangeBelowTop (height + 1)).1 (rangeBelowTop (height + 1)).2

end LongTermCache

abbrev BlockchainDB.weightsBelow (db : BlockchainDB) (height : ℕ) : List ℕ :=
  db.longTermBlockWeights (LongTermCache.rangeBelowTop (height + 1)).1
    (LongTermCache.rangeBelowTop (height + 1)).2

abbrev Blockchain.Weighs (bc : Blockchain) : Prop :=
  hfVersionLongTermBlockWeight ≤ bc.getCurrentHardForkVersion

/-- The median over the window below a height. -/
def BlockchainDB.medianBelow (db : BlockchainDB) (height : ℕ) : ℕ :=
  db.longTermMedian (LongTermCache.rangeBelowTop (height + 1)).1
    (LongTermCache.rangeBelowTop (height + 1)).2

/-- The long term weight that a block is stored with. -/
def longTermRule (blockWeight longTermMedian : ℕ) : ℕ :=
  min blockWeight (shortTermConstraint (max blockGrantedFullRewardZone longTermMedian))

/-- The block at the height has the weight that the rule gives. -/
def BlockchainDB.StoredByRule (db : BlockchainDB) (height : ℕ) : Prop :=
  ∀ info, db.blocks[height]? = some info →
    info.longTermBlockWeight = longTermRule info.blockWeight (db.medianBelow height)

namespace Blockchain

def longTermWeightsBelowTop (bc : Blockchain) : List ℕ :=
  let height := bc.db.height
  let nblocks := min longTermBlockWeightWindowSize height
  let nblocks := if nblocks = height then nblocks - 1 else nblocks
  bc.db.longTermBlockWeights (height - nblocks - 1) nblocks

/-- `m_long_term_effective_median_block_weight` as the stored weights have it: the top block's
long-term weight follows from the median below it, and is then counted itself. -/
def longTermEffectiveMedian (bc : Blockchain) : ℕ :=
  let below := bc.longTermWeightsBelowTop
  let belowMedian := if bc.db.height = 1 then blockGrantedFullRewardZone else medianWeight below
  let blockWeight := (bc.db.blocks.getLast?.map (·.blockWeight)).getD 0
  let longTermBlockWeight :=
    min blockWeight (shortTermConstraint (max blockGrantedFullRewardZone belowMedian))
  let window := below ++ [longTermBlockWeight]
  let median :=
    if bc.db.height = 1 then longTermBlockWeight
    else medianWeight (window.drop (window.length - longTermBlockWeightWindowSize))
  max blockGrantedFullRewardZone median

end Blockchain

namespace LongTermCache

variable {c : LongTermCache} {bc bc' : Blockchain}

/-- The answer of `get_next_long_term_block_weight` is the one of the stored weights. -/
def NextExact (bc : Blockchain) (blockWeight : ℕ) (next : NextWeight) : Prop :=
  if bc.getCurrentHardForkVersion < hfVersionLongTermBlockWeight then
    next.longTermBlockWeight = blockWeight
  else
    next.longTermMedian = some (bc.db.medianBelow bc.db.height) ∧
      next.longTermBlockWeight = longTermRule blockWeight (bc.db.medianBelow bc.db.height)

/-- What `update_next_cumulative_weight_limit` has used and computed is that of the stored weights.
With genesis alone there are none below the top. -/
structure UpdateExact (bc : Blockchain) (u : Updated) : Prop where
  median : bc.db.height ≠ 1 → u.longTermMedian = bc.db.medianBelow (bc.db.height - 1)
  effective : u.longTermEffectiveMedian = bc.longTermEffectiveMedian

/-- What `get_next_long_term_block_weight` returns and leaves in the cache. -/
structure Answers (c : LongTermCache) (bc : Blockchain) (blockWeight : ℕ) (next : NextWeight) :
    Prop where
  exact : NextExact bc blockWeight next
  below : ¬bc.Weighs → next.longTermMedian = none ∧ next.cache = c
  range : bc.Weighs → next.cache.HoldsBelow bc.db bc.db.height

/-- A cache that fits gives the right weight for the next block. -/
theorem Fits.getNext (h : c.Fits bc bc.db.height) (hpos : 1 ≤ bc.db.height) (blockWeight : ℕ) :
    ∃ next, c.getNextLongTermBlockWeight bc blockWeight = some next ∧
      c.Answers bc blockWeight next := by
  unfold getNextLongTermBlockWeight
  by_cases hold : bc.getCurrentHardForkVersion < hfVersionLongTermBlockWeight
  · simp only [if_pos hold]
    exact ⟨_, rfl, (if_pos hold).mpr rfl, fun _ => ⟨rfl, rfl⟩, fun hnew => absurd hold (by omega)⟩
  · simp only [if_neg hold]
    obtain ⟨c', hget, hrange⟩ := h.getMedian (asked_rangeBelowTop hpos le_rfl)
      (Nat.le_of_eq (end_rangeBelowTop _))
    have hasked := rangeBelowTop_succ bc.db.height
    rw [hasked] at hget
    rw [hget]
    refine ⟨_, rfl, (if_neg hold).mpr ⟨?_, ?_⟩, fun hlt => absurd (not_lt.mp hold) hlt,
      fun _ => hrange⟩
    · rw [medianBelow, hasked]
    · rw [medianBelow, hasked]
      rfl

theorem pushed_rangeBelowTop {db : BlockchainDB} {height : ℕ} (hheight : db.height = height + 1)
    (hpos : 1 ≤ height) :
    pushed longTermBlockWeightWindowSize (db.weightsBelow height) (db.blockLongTermWeight height) =
      db.weightsBelow (height + 1) := by
  unfold weightsBelow
  have hasked : Asked db _ _ := asked_rangeBelowTop hpos (by omega)
  have hlen := length_longTermBlockWeights hasked.stored
  rw [rangeBelowTop_succ] at hlen ⊢
  rw [rangeBelowTop_succ]
  generalize longTermBlockWeightWindowSize = w at hlen ⊢
  by_cases hfull : w ≤ height
  · have hmin : min w height = w := by omega
    have hmin' : min w (height + 1) = w := by omega
    rw [hmin] at hlen ⊢
    rw [hmin', pushed_of_full hlen]
    have hsum : height - w + w = height := by omega
    have hsucc := db.longTermBlockWeights_succ (height - w) w (by omega)
    rw [hsum] at hsucc
    have hstart : height - w + 1 = height + 1 - w := by omega
    rw [← hsucc, longTermBlockWeights_drop, hstart]
  · have hmin : min w height = height := by omega
    have hmin' : min w (height + 1) = height + 1 := by omega
    rw [hmin] at hlen ⊢
    rw [hmin', Nat.sub_self, Nat.sub_self]
    rw [Nat.sub_self] at hlen
    rw [pushed_of_lt (by omega)]
    have hsucc := db.longTermBlockWeights_succ 0 height (by omega)
    rw [Nat.zero_add] at hsucc
    exact hsucc.symm

/-- The update after a block whose range the cache holds. -/
theorem update_of_range {c' : LongTermCache} {pre : Option ℕ} {height : ℕ}
    (hheight : bc.db.height = height + 1) (hpos : 1 ≤ height)
    (hget : c.medianBelowTop bc pre = some (bc.db.medianBelow height, c'))
    (hrange : c'.HoldsBelow bc.db height) :
    ∃ u, c.updateLongTerm bc pre = some u ∧ UpdateExact bc u ∧
      (bc.db.StoredByRule height → u.cache.HoldsBelow bc.db bc.db.height) := by
  obtain ⟨top, htop⟩ : ∃ top, bc.db.blocks.getLast? = some top := by
    refine ⟨_, getLast?_eq_some_getLast fun hnil => ?_⟩
    have : bc.db.height = 0 := by rw [BlockchainDB.height, hnil, length_nil]
    omega
  have htop' : bc.db.blocks[height]? = some top := by
    rw [← htop, getLast?_eq_getElem?]
    unfold BlockchainDB.height at hheight
    rw [hheight, Nat.add_sub_cancel]
  generalize hrule : longTermRule top.blockWeight (bc.db.medianBelow height) = weight
  have hinsert := hrange.holds.insert weight
  rw [hrange.size] at hinsert
  have hne : pushed longTermBlockWeightWindowSize (bc.db.weightsBelow height) weight ≠ [] := by
    have hW := windowSize_pos
    rw [← length_pos_iff, pushed, length_drop, length_append, length_singleton]
    omega
  have hupdate : c.updateLongTerm bc pre = some ⟨bc.db.medianBelow height,
      max blockGrantedFullRewardZone (c'.rollingMedian.insert weight).median,
      ⟨height, c'.rollingMedian.insert weight⟩⟩ := by
    have hone : ¬height + 1 = 1 := by omega
    unfold updateLongTerm
    rw [hget]
    simp only [hheight, if_neg hone, htop, ← hrule]
    rfl
  refine ⟨_, hupdate, ⟨fun _ => ?_, ?_⟩, fun hstored => ?_⟩
  · rw [hheight, Nat.add_sub_cancel]
  · rw [hinsert.median_eq hne]
    unfold Blockchain.longTermEffectiveMedian Blockchain.longTermWeightsBelowTop
    have hone : ¬height + 1 = 1 := by omega
    simp only [hheight, if_neg hone, htop, length_append, ← hrule]
    rfl
  · have hweight : weight = bc.db.blockLongTermWeight height := by
      rw [blockLongTermWeight, htop', ← hrule, ← hstored top htop']
      rfl
    rw [hheight]
    refine ⟨?_, ?_, ?_⟩
    · have hW := windowSize_pos
      rw [rangeBelowTop_succ]
      simp only []
      omega
    · rw [← hrange.size]
      exact hrange.holds.insert_nItems _
    · rw [hweight, pushed_rangeBelowTop hheight hpos] at hinsert
      rw [hweight]
      exact hinsert

theorem update_of_genesis (hheight : bc.db.height = 1) (pre : Option ℕ) :
    ∃ u, c.updateLongTerm bc pre = some u ∧ UpdateExact bc u ∧ u.cache = c := by
  refine ⟨_, by unfold updateLongTerm medianBelowTop; simp only [if_pos hheight]; rfl,
    ⟨fun h => absurd hheight h, ?_⟩, rfl⟩
  unfold Blockchain.longTermEffectiveMedian
  simp only [if_pos hheight]

/-- A cache that fits gives the right median for the limit, and holds the new range. -/
theorem Fits.update (h : c.Fits bc (bc.db.height - 1)) (hpos : 1 ≤ bc.db.height) :
    ∃ u, c.updateLongTerm bc none = some u ∧ UpdateExact bc u ∧
      (bc.db.height = 1 → u.cache = c) ∧
      (bc.db.height ≠ 1 → bc.db.StoredByRule (bc.db.height - 1) →
        u.cache.HoldsBelow bc.db bc.db.height) := by
  by_cases hone : bc.db.height = 1
  · obtain ⟨u, hu, hexact, hcache⟩ := update_of_genesis (c := c) hone none
    exact ⟨u, hu, hexact, fun _ => hcache, fun hne => absurd hone hne⟩
  · obtain ⟨height, hheight⟩ : ∃ k, bc.db.height = k + 1 := ⟨bc.db.height - 1, by omega⟩
    have hasked := asked_rangeBelowTop (by omega : 1 ≤ height) (by omega : height ≤ bc.db.height)
    obtain ⟨c', hget, hrange⟩ := h.getMedian hasked (by
      rw [end_rangeBelowTop, hheight, Nat.add_sub_cancel])
    have hbelow : c.medianBelowTop bc none = some (bc.db.medianBelow height, c') := by
      unfold medianBelowTop
      rw [if_neg hone]
      simp only [hheight]
      exact hget
    obtain ⟨u, hu, hexact, hholds⟩ := update_of_range hheight (by omega) hbelow hrange
    refine ⟨u, hu, hexact, fun h1 => absurd h1 hone, fun _ hstored => hholds ?_⟩
    rwa [hheight] at hstored

theorem HoldsRange.fits (h : c.HoldsBelow bc.db bc.db.height) (hpos : 1 ≤ bc.db.height)
    (hversion : hfVersionLongTermBlockWeight ≤ bc.hardfork.heights.versionAt bc.db.height) :
    c.Fits bc bc.db.height := by
  have hlen := length_longTermBlockWeights (asked_rangeBelowTop hpos le_rfl).stored
  have htip := h.tip
  have hholds := h.holds
  rw [rangeBelowTop_succ] at hlen htip hholds
  have htop : c.tipHeight + 1 = bc.db.height := by omega
  refine ⟨h.size, _, hholds, fun _ => ⟨by rw [htop]; exact hversion, by omega, fun _ => ?_⟩⟩
  rw [hlen, htop]

/-- A cache still fits when blocks above its range change. -/
theorem Fits.of_take {bound bound' : ℕ} (h : c.Fits bc bound)
    (hheights : bc'.hardfork.heights = bc.hardfork.heights) (hle : bound' ≤ bound)
    (htake : bc'.db.blocks.take bound' = bc.db.blocks.take bound') : c.Fits bc' bound' := by
  obtain ⟨w, hholds, hright⟩ := h.holds
  refine ⟨h.size, w, hholds, fun hne => ?_⟩
  obtain ⟨hversion, hlen, hw⟩ := hright hne
  rw [hheights]
  refine ⟨hversion, hlen, fun hlt => ?_⟩
  have hsame : bc'.db.longTermBlockWeights (c.tipHeight + 1 - w.length) w.length =
      bc.db.longTermBlockWeights (c.tipHeight + 1 - w.length) w.length := by
    refine longTermBlockWeights_congr ?_
    have := congrArg (List.take (c.tipHeight + 1 - w.length + w.length)) htake
    rwa [take_take, take_take, Nat.min_eq_left (by omega)] at this
  rw [hsame]
  exact hw (by omega)

theorem Fits.of_below {bound bound' : ℕ} (h : c.Fits bc bound)
    (hheights : bc'.hardfork.heights = bc.hardfork.heights)
    (hbelow : bc.hardfork.heights.versionAt bound' < hfVersionLongTermBlockWeight) :
    c.Fits bc' bound' := by
  obtain ⟨w, hholds, hright⟩ := h.holds
  refine ⟨h.size, w, hholds, fun hne => ?_⟩
  obtain ⟨hversion, hlen, -⟩ := hright hne
  rw [hheights]
  refine ⟨hversion, hlen, fun hlt => ?_⟩
  have hmono := bc.hardfork.heights.versionAt_mono (Nat.succ_le_of_lt hlt)
  exact absurd (Nat.le_trans hversion hmono) (Nat.not_le.mpr hbelow)

/-- The cache after `update_next_cumulative_weight_limit`. Below version 12 nothing happens to
it. -/
def updated (c : LongTermCache) (bc : Blockchain) (pre : Option ℕ) : LongTermCache :=
  if bc.getCurrentHardForkVersion < hfVersionLongTermBlockWeight then c
  else ((c.updateLongTerm bc pre).map (·.cache)).getD c

theorem updateLongTerm_congr (c : LongTermCache) (hdb : bc'.db = bc.db) (pre : Option ℕ) :
    c.updateLongTerm bc' pre = c.updateLongTerm bc pre := by
  unfold updateLongTerm medianBelowTop
  rw [hdb]

theorem updated_congr (c : LongTermCache) (hdb : bc'.db = bc.db)
    (hhf : bc'.hardfork = bc.hardfork) (pre : Option ℕ) : c.updated bc' pre = c.updated bc pre := by
  unfold updated Blockchain.getCurrentHardForkVersion
  rw [hhf, updateLongTerm_congr c hdb]

end LongTermCache

theorem updateNextCumulativeWeightLimit_cache (bc : Blockchain) (pre : Option ℕ) (midBatch : Bool) :
    (bc.updateNextCumulativeWeightLimit pre midBatch).longTermCache =
      bc.longTermCache.updated bc pre := by
  unfold Blockchain.updateNextCumulativeWeightLimit LongTermCache.updated
  split_ifs
  · rfl
  · split <;> rename_i hu <;> rw [hu] <;> rfl
  · split <;> rename_i hu <;> rw [hu] <;> rfl

theorem nextLongTermMedian_of_some {bc : Blockchain} {blockWeight : ℕ}
    {next : LongTermCache.NextWeight} (h : bc.getNextLongTermBlockWeight blockWeight = some next) :
    bc.nextLongTermMedian = (next.longTermMedian, next.cache) := by
  unfold Blockchain.nextLongTermMedian
  unfold Blockchain.getNextLongTermBlockWeight LongTermCache.getNextLongTermBlockWeight at *
  simp only [] at h ⊢
  split_ifs at h ⊢
  · cases h
    rfl
  · cases hmedian : bc.longTermCache.getLongTermBlockWeightMedian bc.db
        (bc.db.height - min longTermBlockWeightWindowSize bc.db.height)
        (min longTermBlockWeightWindowSize bc.db.height) with
    | none =>
      rw [hmedian] at h
      cases h
    | some r =>
      rw [hmedian] at h
      cases h
      rfl

namespace WeighedChain

open LongTermCache

variable {c : LongTermCache} {bc bc' : Blockchain} {info : BlockInfo} {midBatch : Bool}

/-- The added block has a version that the fork table allows. -/
def Valid (bc : Blockchain) : WeightOp → Prop
  | .add info _ => bc.hardfork.check info.bl = true
  | _ => True

/-- A block that takes the chain to version 12 is not heavier than the rule of version 12 allows to
count. -/
def Light (bc : Blockchain) : WeightOp → Prop
  | .add info _ =>
    bc.getCurrentHardForkVersion < hfVersionLongTermBlockWeight →
    hfVersionLongTermBlockWeight ≤ (bc.addBlock info).getCurrentHardForkVersion →
    info.blockWeight ≤
      shortTermConstraint (max blockGrantedFullRewardZone (bc.db.medianBelow bc.db.height))
  | _ => True

instance (bc : Blockchain) : ∀ op, Decidable (Valid bc op)
  | .add _ _ => inferInstanceAs (Decidable (_ = _))
  | .refuse _ | .pop | .restart _ => isTrue trivial

instance (bc : Blockchain) : ∀ op, Decidable (Light bc op)
  | .add _ _ => inferInstanceAs (Decidable (_ → _ → _))
  | .refuse _ | .pop | .restart _ => isTrue trivial

/-- Every median that is returned, passed on or used is that of the stored weights, and a block is
stored by the rule. -/
def Exact (bc : Blockchain) : WeightOp → Prop
  | .add info _ => ∃ next, bc.getNextLongTermBlockWeight info.blockWeight = some next ∧
      NextExact bc info.blockWeight next ∧
      ((bc.addBlock (storedBlock info next)).Weighs →
        ∃ u, next.cache.updateLongTerm (bc.addBlock (storedBlock info next))
            next.longTermMedian = some u ∧
          UpdateExact (bc.addBlock (storedBlock info next)) u)
  | .refuse blockWeight => ∃ next, bc.getNextLongTermBlockWeight blockWeight = some next ∧
      NextExact bc blockWeight next
  | .pop => 1 < bc.db.height → bc.popBlock.Weighs →
      ∃ u, bc.longTermCache.updateLongTerm bc.popBlock none = some u ∧ UpdateExact bc.popBlock u
  | .restart data => bc.Weighs →
      ∃ u, (LongTermCache.create data).updateLongTerm bc none = some u ∧ UpdateExact bc u

/-- The fork version is that of the height, the blocks since version 12 are stored by the rule, and
the cache fits them. -/
structure SoundWith (c : LongTermCache) (bc : Blockchain) : Prop where
  noVoting : bc.hardfork.heights.NoVoting
  inSync : bc.hardfork.InSync bc.db.height
  pos : 1 ≤ bc.db.height
  stored : ∀ height, 1 ≤ height → height < bc.db.height →
    hfVersionLongTermBlockWeight ≤ bc.hardfork.heights.versionAt (height + 1) →
    bc.db.StoredByRule height
  fits : c.Fits bc bc.db.height

/-- The cache of the chain answers as the database would. -/
abbrev Sound (bc : Blockchain) : Prop := SoundWith bc.longTermCache bc

theorem SoundWith.congr (h : SoundWith c bc) (hdb : bc'.db = bc.db)
    (hhf : bc'.hardfork = bc.hardfork) : SoundWith c bc' := by
  refine ⟨hhf ▸ h.noVoting, ?_, hdb ▸ h.pos, ?_, ?_⟩
  · rw [hdb, hhf]
    exact h.inSync
  · rw [hdb, hhf]
    exact h.stored
  · rw [hdb]
    exact h.fits.of_take (by rw [hhf]) le_rfl (by rw [hdb])

theorem SoundWith.version (h : SoundWith c bc) :
    bc.getCurrentHardForkVersion = bc.hardfork.heights.versionAt bc.db.height :=
  h.inSync.version

theorem SoundWith.updated {pre : Option ℕ} (h : SoundWith (c.updated bc pre) bc)
    (hcache : bc'.longTermCache = c) (hdb : bc'.db = bc.db) (hhf : bc'.hardfork = bc.hardfork)
    (midBatch : Bool) : Sound (bc'.updateNextCumulativeWeightLimit pre midBatch) := by
  rw [← updated_congr c hdb hhf, ← hcache,
    ← updateNextCumulativeWeightLimit_cache bc' pre midBatch] at h
  exact h.congr ((updateNextCumulativeWeightLimit_db bc' pre midBatch).trans hdb)
    ((updateNextCumulativeWeightLimit_hardfork bc' pre midBatch).trans hhf)

theorem medianBelow_congr {db db' : BlockchainDB} {height : ℕ}
    (h : db'.blocks.take height = db.blocks.take height) :
    db'.medianBelow height = db.medianBelow height := by
  unfold medianBelow longTermMedian
  rw [longTermBlockWeights_congr]
  rwa [end_rangeBelowTop]

theorem storedByRule_congr {db db' : BlockchainDB} {height : ℕ}
    (h : db'.blocks.take (height + 1) = db.blocks.take (height + 1))
    (hstored : db.StoredByRule height) : db'.StoredByRule height := by
  intro info hinfo
  have hget : db'.blocks[height]? = db.blocks[height]? := by
    rw [← getElem?_take_of_lt (Nat.lt_succ_self height), h,
      getElem?_take_of_lt (Nat.lt_succ_self height)]
  have htake : db'.blocks.take height = db.blocks.take height := by
    have := congrArg (List.take height) h
    rwa [take_take, take_take, Nat.min_eq_left (Nat.le_succ height)] at this
  rw [medianBelow_congr htake]
  exact hstored info (hget ▸ hinfo)

/-- An update without a precomputed median keeps the cache sound. -/
theorem update_sound (hpos : 1 ≤ bc.db.height)
    (hversion : bc.getCurrentHardForkVersion = bc.hardfork.heights.versionAt bc.db.height)
    (hfits : c.Fits bc bc.db.height)
    (hstored : bc.db.height ≠ 1 →
      hfVersionLongTermBlockWeight ≤ bc.hardfork.heights.versionAt bc.db.height →
      bc.db.StoredByRule (bc.db.height - 1)) :
    (bc.Weighs → ∃ u, c.updateLongTerm bc none = some u ∧ UpdateExact bc u) ∧
      (c.updated bc none).Fits bc bc.db.height := by
  unfold updated
  by_cases hold : bc.getCurrentHardForkVersion < hfVersionLongTermBlockWeight
  · rw [if_pos hold]
    exact ⟨fun h => absurd hold (by omega), hfits⟩
  · rw [if_neg hold]
    obtain ⟨u, hu, hexact, hgenesis, hrange⟩ :=
      (hfits.of_take rfl (Nat.sub_le _ 1) rfl).update hpos
    rw [hu]
    refine ⟨fun _ => ⟨u, rfl, hexact⟩, ?_⟩
    rw [map_some, getD_some]
    by_cases hone : bc.db.height = 1
    · rw [hgenesis hone]
      exact hfits
    · exact (hrange hone (hstored hone (by omega))).fits hpos (by omega)

/-- The chain after a block is added. -/
structure Extends (bc bc' : Blockchain) (info : BlockInfo) : Prop where
  blocks : bc'.db.blocks = bc.db.blocks ++ [info]
  heights : bc'.hardfork.heights = bc.hardfork.heights
  inSync : bc'.hardfork.InSync bc'.db.height

theorem Extends.height (h : Extends bc bc' info) : bc'.db.height = bc.db.height + 1 := by
  rw [BlockchainDB.height, h.blocks, length_append]
  rfl

theorem Extends.take (h : Extends bc bc' info) {n : ℕ} (hn : n ≤ bc.db.height) :
    bc'.db.blocks.take n = bc.db.blocks.take n := by
  rw [h.blocks, take_append_of_le_length hn]

theorem extends_addBlock (hz : bc.hardfork.heights.NoVoting)
    (hsync : bc.hardfork.InSync bc.db.height) (hcheck : bc.hardfork.check info.bl = true) :
    Extends bc (bc.addBlock info) info := by
  refine ⟨addBlock_blocks _ _, addBlock_heights _ _, ?_⟩
  have hheight : (bc.addBlock info).db.height = bc.db.height + 1 := by
    rw [BlockchainDB.height, addBlock_blocks, length_append]
    rfl
  rw [hheight]
  exact HardFork.add_inSync hz hsync hcheck

/-- A chain that has lost its newest block. -/
structure Cut (bc bc' : Blockchain) : Prop where
  blocks : bc'.db.blocks = bc.db.blocks.dropLast
  heights : bc'.hardfork.heights = bc.hardfork.heights
  inSync : bc'.hardfork.InSync bc'.db.height

theorem Cut.height (h : Cut bc bc') : bc'.db.height = bc.db.height - 1 := by
  rw [BlockchainDB.height, h.blocks, length_dropLast]
  rfl

theorem Cut.take (h : Cut bc bc') {n : ℕ} (hn : n ≤ bc'.db.height) :
    bc'.db.blocks.take n = bc.db.blocks.take n := by
  rw [h.blocks, dropLast_eq_take, take_take, Nat.min_eq_left]
  rwa [h.height] at hn

theorem cut_popBlock (hmore : 1 < bc.db.height) : Cut bc bc.popBlock := by
  unfold Blockchain.popBlock
  rw [if_pos hmore]
  exact ⟨rfl, rfl, HardFork.onBlockPopped_inSync _ _⟩

@[simp] theorem popBlock_longTermCache (bc : Blockchain) :
    bc.popBlock.longTermCache = bc.longTermCache := by
  unfold Blockchain.popBlock
  split_ifs <;> rfl

theorem storedByRule_top {next : NextWeight} (hext : Extends bc bc' (storedBlock info next))
    (hexact : NextExact bc info.blockWeight next)
    (hlight : ¬bc.Weighs → info.blockWeight ≤
      shortTermConstraint (max blockGrantedFullRewardZone (bc.db.medianBelow bc.db.height))) :
    bc'.db.StoredByRule bc.db.height := by
  intro other hother
  have hother : other = storedBlock info next := by
    unfold BlockchainDB.height at hother
    rw [hext.blocks] at hother
    simpa using hother.symm
  rw [medianBelow_congr (hext.take le_rfl), hother]
  unfold NextExact at hexact
  split_ifs at hexact with hold
  · exact hexact.trans (Nat.min_eq_left (hlight (Nat.not_le.mpr hold))).symm
  · exact hexact.2

section

variable (h : SoundWith c bc)

include h

/-- The longer chain is sound with a cache that fits it, if the new block is stored by the rule. -/
theorem SoundWith.of_extends {c' : LongTermCache} (hext : Extends bc bc' info)
    (htop : bc'.Weighs → bc'.db.StoredByRule bc.db.height) (hfits : c'.Fits bc' bc'.db.height) :
    SoundWith c' bc' := by
  have hheight := hext.height
  refine ⟨?_, hext.inSync, ?_, fun height hp hlt hnew => ?_, hfits⟩
  · rw [hext.heights]
    exact h.noVoting
  · rw [hheight]
    exact Nat.le_add_left 1 _
  · by_cases heq : height = bc.db.height
    · rw [heq]
      refine htop ?_
      have hversion : bc'.getCurrentHardForkVersion = _ := hext.inSync.version
      rw [Blockchain.Weighs, hversion, hheight, ← heq]
      exact hnew
    · rw [hext.heights] at hnew
      exact storedByRule_congr (hext.take (by omega)) (h.stored height hp (by omega) hnew)

/-- Updating after a block at version 12 or later is exact, and the cache fits the longer chain. -/
theorem SoundWith.update_extended {next : NextWeight}
    (hext : Extends bc bc' (storedBlock info next)) (hnext : c.Answers bc info.blockWeight next)
    (htop : bc'.db.StoredByRule bc.db.height) (hnew : bc'.Weighs) :
    ∃ u, next.cache.updateLongTerm bc' next.longTermMedian = some u ∧ UpdateExact bc' u ∧
      u.cache.Fits bc' bc'.db.height := by
  have hheight := hext.height
  have hpos := h.pos
  have hversion : bc'.getCurrentHardForkVersion = bc'.hardfork.heights.versionAt bc'.db.height :=
    hext.inSync.version
  by_cases hold : bc.Weighs
  · have hsame := medianBelow_congr (hext.take le_rfl)
    have hholds := hnext.range hold
    have hmedian := ((if_neg (not_lt.mpr hold)).mp hnext.exact).1
    have hget : next.cache.medianBelowTop bc' next.longTermMedian =
        some (bc'.db.medianBelow bc.db.height, next.cache) := by
      unfold medianBelowTop
      rw [if_neg (by omega), hmedian, hsame]
    have hholds' : next.cache.HoldsBelow bc'.db bc.db.height := by
      refine ⟨hholds.tip, hholds.size, ?_⟩
      rw [longTermBlockWeights_congr (hext.take (Nat.le_of_eq (end_rangeBelowTop _)))]
      exact hholds.holds
    obtain ⟨u, hu, huexact, huholds⟩ := update_of_range hheight hpos hget hholds'
    exact ⟨u, hu, huexact, (huholds htop).fits (by omega) (hversion ▸ hnew)⟩
  · -- the cache is that of before, and a window it may have is out of reach
    obtain ⟨hnone, hcache⟩ := hnext.below hold
    have hfits : c.Fits bc' (bc'.db.height - 1) := by
      rw [hheight]
      exact h.fits.of_below hext.heights (h.version ▸ Nat.not_le.mp hold)
    obtain ⟨u, hu, huexact, -, huholds⟩ := hfits.update (by omega)
    rw [hnone, hcache]
    refine ⟨u, hu, huexact, (huholds (by omega) ?_).fits (by omega) (hversion ▸ hnew)⟩
    rw [hheight]
    exact htop

/-- Adding a block keeps the cache sound. -/
theorem SoundWith.extended {next : NextWeight} (hext : Extends bc bc' (storedBlock info next))
    (hnext : c.Answers bc info.blockWeight next)
    (hlight : ¬bc.Weighs → bc'.Weighs → info.blockWeight ≤
      shortTermConstraint (max blockGrantedFullRewardZone (bc.db.medianBelow bc.db.height))) :
    (bc'.Weighs →
      ∃ u, next.cache.updateLongTerm bc' next.longTermMedian = some u ∧ UpdateExact bc' u) ∧
    SoundWith (next.cache.updated bc' next.longTermMedian) bc' := by
  have hversion := h.version
  have hversion' : bc'.getCurrentHardForkVersion = bc'.hardfork.heights.versionAt bc'.db.height :=
    hext.inSync.version
  have htop := fun hnew => storedByRule_top hext hnext.exact fun hold => hlight hold hnew
  unfold LongTermCache.updated
  by_cases hnew : bc'.getCurrentHardForkVersion < hfVersionLongTermBlockWeight
  · rw [if_pos hnew]
    refine ⟨fun hge => absurd hnew (not_lt.mpr hge), h.of_extends hext htop ?_⟩
    have hle : bc.hardfork.heights.versionAt bc.db.height ≤
        bc.hardfork.heights.versionAt bc'.db.height :=
      bc.hardfork.heights.versionAt_mono (by rw [hext.height]; exact Nat.le_succ _)
    rw [hversion', hext.heights] at hnew
    rw [(hnext.below (by omega)).2]
    exact h.fits.of_below hext.heights hnew
  · rw [if_neg hnew]
    obtain ⟨u, hu, huexact, hfits⟩ :=
      h.update_extended hext hnext (htop (not_lt.mp hnew)) (not_lt.mp hnew)
    rw [hu]
    exact ⟨fun _ => ⟨u, rfl, huexact⟩, h.of_extends hext htop hfits⟩

/-- Popping a block keeps the cache sound. -/
theorem SoundWith.cut (hcut : Cut bc bc') (hpos : 1 ≤ bc'.db.height) :
    (bc'.Weighs → ∃ u, c.updateLongTerm bc' none = some u ∧ UpdateExact bc' u) ∧
    SoundWith (c.updated bc' none) bc' := by
  have hheight := hcut.height
  have hfits : c.Fits bc' bc'.db.height :=
    h.fits.of_take hcut.heights (by omega) (hcut.take le_rfl)
  have hstored : ∀ height, 1 ≤ height → height < bc'.db.height →
      hfVersionLongTermBlockWeight ≤ bc'.hardfork.heights.versionAt (height + 1) →
      bc'.db.StoredByRule height := fun height hp hlt hnew => by
    rw [hcut.heights] at hnew
    exact storedByRule_congr (hcut.take hlt) (h.stored height hp (by omega) hnew)
  obtain ⟨hupdate, hfits'⟩ := update_sound hpos hcut.inSync.version hfits fun hone hnew =>
    hstored _ (by omega) (by omega) (by rwa [Nat.sub_add_cancel hpos])
  refine ⟨hupdate, ?_, hcut.inSync, hpos, hstored, hfits'⟩
  rw [hcut.heights]
  exact h.noVoting

end

section

variable (h : Sound bc)

include h

theorem Sound.add (hvalid : Valid bc (.add info midBatch))
    (hlight : Light bc (.add info midBatch)) :
    Exact bc (.add info midBatch) ∧ ∀ bc', step bc (.add info midBatch) = some bc' → Sound bc' := by
  obtain ⟨next, hnext, hanswers⟩ := h.fits.getNext h.pos info.blockWeight
  have hnext : bc.getNextLongTermBlockWeight info.blockWeight = some next := hnext
  have hext : Extends bc (bc.addBlock (storedBlock info next)) (storedBlock info next) :=
    extends_addBlock h.noVoting h.inSync hvalid
  -- the long-term weight has no bearing on the fork
  have hcross : (bc.addBlock (storedBlock info next)).getCurrentHardForkVersion =
      (bc.addBlock info).getCurrentHardForkVersion := by
    have hcheck : bc.hardfork.check info.bl = true := hvalid
    have hcheck' : bc.hardfork.check (storedBlock info next).bl = true := hvalid
    unfold Blockchain.addBlock HardFork.add
    rw [if_pos hcheck, if_pos hcheck']
    rfl
  obtain ⟨hupdate, hsound⟩ := h.extended hext hanswers
    fun hold hnew => hlight (Nat.not_le.mp hold) (hcross ▸ hnew)
  refine ⟨⟨next, hnext, hanswers.exact, hupdate⟩, fun bc' hbc' => ?_⟩
  simp only [step, hnext, map_some, some.injEq] at hbc'
  rw [← hbc', Blockchain.addBlockWeighed, nextLongTermMedian_of_some hnext]
  refine hsound.updated ?_ ?_ ?_ midBatch <;> rfl

theorem Sound.asked {blockWeight : ℕ} {next : NextWeight}
    (hanswers : bc.longTermCache.Answers bc blockWeight next) : SoundWith next.cache bc := by
  refine ⟨h.noVoting, h.inSync, h.pos, h.stored, ?_⟩
  by_cases hold : bc.Weighs
  · exact (hanswers.range hold).fits h.pos (h.version ▸ hold)
  · rw [(hanswers.below hold).2]
    exact h.fits

theorem Sound.refuse (blockWeight : ℕ) :
    Exact bc (.refuse blockWeight) ∧
      ∀ bc', step bc (.refuse blockWeight) = some bc' → Sound bc' := by
  obtain ⟨next, hnext, hanswers⟩ := h.fits.getNext h.pos blockWeight
  have hnext : bc.getNextLongTermBlockWeight blockWeight = some next := hnext
  refine ⟨⟨next, hnext, hanswers.exact⟩, fun bc' hbc' => ?_⟩
  simp only [step, hnext, map_some, some.injEq] at hbc'
  rw [← hbc']
  exact (h.asked hanswers).congr rfl rfl

theorem Sound.pop : Exact bc .pop ∧ ∀ bc', step bc .pop = some bc' → Sound bc' := by
  by_cases hmore : 1 < bc.db.height
  · have hcut := cut_popBlock hmore
    have hheight := hcut.height
    obtain ⟨hupdate, hsound⟩ := h.cut hcut (by omega)
    refine ⟨fun _ => hupdate, fun bc' hbc' => ?_⟩
    simp only [step, if_pos hmore, some.injEq] at hbc'
    rw [← hbc']
    exact hsound.updated (popBlock_longTermCache bc) rfl rfl false
  · refine ⟨fun h1 => absurd h1 hmore, fun bc' hbc' => ?_⟩
    simp only [step, if_neg hmore, some.injEq] at hbc'
    rw [← hbc']
    exact h

theorem Sound.restart (data : ℕ → ℕ) :
    Exact bc (.restart data) ∧ ∀ bc', step bc (.restart data) = some bc' → Sound bc' := by
  have hpos := h.pos
  obtain ⟨hupdate, hfits⟩ := update_sound h.pos h.version (fits_create data bc _)
    fun hone hnew => h.stored _ (by omega) (by omega) (by rwa [Nat.sub_add_cancel (by omega)])
  refine ⟨hupdate, fun bc' hbc' => ?_⟩
  simp only [step, some.injEq] at hbc'
  rw [← hbc']
  have hsound : SoundWith ((create data).updated bc none) bc :=
    ⟨h.noVoting, h.inSync, h.pos, h.stored, hfits⟩
  refine hsound.updated ?_ ?_ ?_ false <;> rfl

/-- Every operation answers exactly and keeps the cache sound. -/
theorem Sound.step (op : WeightOp) (hsafe : Valid bc op ∧ Light bc op) :
    Exact bc op ∧ ∀ bc', WeighedChain.step bc op = some bc' → Sound bc' := by
  cases op with
  | add info midBatch => exact h.add hsafe.1 hsafe.2
  | refuse blockWeight => exact h.refuse blockWeight
  | pop => exact h.pop
  | restart data => exact h.restart data

end

/-- A chain of the genesis block, with an empty cache. -/
structure Started (bc : Blockchain) : Prop where
  noVoting : bc.hardfork.heights.NoVoting
  inSync : bc.hardfork.InSync bc.db.height
  genesis : bc.db.height = 1
  cache : ∃ data, bc.longTermCache = LongTermCache.create data

/-- Every median is that of the stored weights and every block is stored by the rule, so long as the
block that takes the chain to version 12 is light. -/
theorem run_exact (hstart : Started bc) (ops : List WeightOp)
    (hsafe : Runs.SafeRun step (fun bc op => Valid bc op ∧ Light bc op) bc ops) :
    Runs.SafeRun step Exact bc ops := by
  refine Runs.SafeRun.of_inv _ _ (fun bc op (h : Sound bc) hop => h.step op hop) ops bc ?_ hsafe
  obtain ⟨data, hdata⟩ := hstart.cache
  have hgenesis := hstart.genesis
  refine ⟨hstart.noVoting, hstart.inSync, by omega, fun height hpos hlt => by omega, ?_⟩
  rw [hdata]
  exact fits_create data bc _

end WeighedChain

/-! Without the condition on the block that takes the chain to version 12 the cache may hold a wrong
weight, but only for as long as that block is on the chain. -/

namespace LongTermCache

variable {c : LongTermCache} {bc : Blockchain} {start count : ℕ}

/-- A window that does not reach below genesis. -/
structure Kept (c : LongTermCache) : Prop where
  size : c.rollingMedian.nItems = longTermBlockWeightWindowSize
  holds : ∃ w, c.rollingMedian.Holds w ∧ w.length ≤ c.tipHeight + 1

theorem Fits.kept {bound : ℕ} (h : c.Fits bc bound) : c.Kept := by
  obtain ⟨w, hholds, hright⟩ := h.holds
  refine ⟨h.size, w, hholds, ?_⟩
  by_cases hne : w = []
  · rw [hne]
    exact Nat.zero_le _
  · exact (hright hne).2.1

theorem Kept.fits (h : c.Kept)
    (hversion : hfVersionLongTermBlockWeight ≤ bc.hardfork.heights.versionAt (c.tipHeight + 1)) :
    c.Fits bc 0 := by
  obtain ⟨w, hholds, hlen⟩ := h.holds
  exact ⟨h.size, w, hholds, fun _ => ⟨hversion, hlen, fun hlt => absurd hlt (Nat.not_lt_zero _)⟩⟩

theorem Kept.insert (h : c.Kept) {tip : ℕ} (htip : c.tipHeight < tip) (v : ℕ) :
    Kept ⟨tip, c.rollingMedian.insert v⟩ := by
  obtain ⟨w, hholds, hlen⟩ := h.holds
  refine ⟨(hholds.insert_nItems v).trans h.size, _, hholds.insert v, ?_⟩
  rw [pushed, length_drop, length_append, length_singleton]
  simp only []
  omega

/-- Whatever the database says, an answer leaves the cache at the end of the range asked for. -/
theorem Kept.getMedian (h : c.Kept) (hasked : Asked bc.db start count) {m : ℕ} {c' : LongTermCache}
    (hget : c.getLongTermBlockWeightMedian bc.db start count = some (m, c')) :
    c'.Kept ∧ c'.tipHeight + 1 = start + count := by
  have hpos := hasked.pos
  unfold getLongTermBlockWeightMedian at hget
  rw [if_neg (Nat.ne_of_gt hpos)] at hget
  simp only [Bool.and_eq_true, decide_eq_true_eq] at hget
  split_ifs at hget with hcached hincr
  · cases hget
    exact ⟨h, by omega⟩
  · cases hget
    exact ⟨h.insert (by omega) _, by simp only []; omega⟩
  · cases hget
    obtain ⟨w, hholds, -⟩ := h.holds
    have hlen := length_longTermBlockWeights hasked.stored
    have hfold := Holds.foldl_insert (bc.db.longTermBlockWeights start count) hholds.clear (by
      rw [hlen, length_nil, Nat.zero_add]
      exact hasked.le.trans (Nat.le_of_eq h.size.symm))
    refine ⟨⟨hfold.2.trans h.size, _, hfold.1, ?_⟩, by simp only []; omega⟩
    rw [nil_append, hlen]
    simp only []
    omega

theorem Fits.getNext_kept (h : c.Fits bc 0) (hpos : 1 ≤ bc.db.height)
    (hversion : bc.getCurrentHardForkVersion = bc.hardfork.heights.versionAt bc.db.height)
    {blockWeight : ℕ} {next : NextWeight}
    (hnext : c.getNextLongTermBlockWeight bc blockWeight = some next) :
    next.cache.Fits bc 0 ∧
      (next.longTermMedian = none ∨ next.cache.tipHeight + 1 = bc.db.height) := by
  unfold getNextLongTermBlockWeight at hnext
  simp only [] at hnext
  split_ifs at hnext with hold
  · cases hnext
    exact ⟨h, .inl rfl⟩
  · obtain ⟨⟨m, c'⟩, hget, hnext⟩ := bind_eq_some_iff.mp hnext
    cases hnext
    have hasked := asked_rangeBelowTop hpos (le_refl bc.db.height)
    rw [rangeBelowTop_succ] at hasked
    obtain ⟨hkept, htip⟩ := h.kept.getMedian hasked hget
    have htop : c'.tipHeight + 1 = bc.db.height := by
      rw [htip]
      omega
    refine ⟨hkept.fits ?_, .inr htop⟩
    rw [htop, ← hversion]
    exact not_lt.mp hold

theorem Fits.updated_kept (h : c.Fits bc 0) (hpos : 1 ≤ bc.db.height)
    (hversion : bc.getCurrentHardForkVersion = bc.hardfork.heights.versionAt bc.db.height)
    {pre : Option ℕ} (hpre : pre = none ∨ c.tipHeight + 1 < bc.db.height) :
    (c.updated bc pre).Fits bc 0 := by
  unfold updated
  split_ifs with hold
  · exact h
  · cases hu : c.updateLongTerm bc pre with
    | none => exact h
    | some u =>
      rw [map_some, getD_some]
      unfold updateLongTerm at hu
      obtain ⟨⟨m, c'⟩, hbelow, hu⟩ := bind_eq_some_iff.mp hu
      by_cases hone : bc.db.height = 1
      · unfold medianBelowTop at hbelow
        rw [if_pos hone] at hbelow
        simp only [hone, if_true] at hu
        cases hbelow
        cases hu
        exact h
      · simp only [if_neg hone] at hu
        cases hu
        have hkept : c'.Kept ∧ c'.tipHeight < bc.db.height - 1 := by
          unfold medianBelowTop at hbelow
          rw [if_neg hone] at hbelow
          cases pre with
          | some median =>
            cases hbelow
            rcases hpre with hnone | htip
            · cases hnone
            · exact ⟨h.kept, by omega⟩
          | none =>
            obtain ⟨height, hheight⟩ : ∃ k, bc.db.height = k + 1 := ⟨bc.db.height - 1, by omega⟩
            simp only [hheight] at hbelow
            obtain ⟨hkept, htip⟩ := h.kept.getMedian
              (asked_rangeBelowTop (by omega) (by omega)) hbelow
            rw [end_rangeBelowTop] at htip
            exact ⟨hkept, by omega⟩
        refine (hkept.1.insert hkept.2 _).fits ?_
        rw [Nat.sub_add_cancel hpos, ← hversion]
        exact not_lt.mp hold

end LongTermCache

/-- The block that took the chain to version 12, if it has got there, is not heavier than the rule
of version 12 allows to count. -/
def Blockchain.CrossedLight (bc : Blockchain) : Prop :=
  ∀ height info, 1 ≤ height → bc.db.blocks[height]? = some info →
    bc.hardfork.heights.versionAt height < hfVersionLongTermBlockWeight →
    hfVersionLongTermBlockWeight ≤ bc.hardfork.heights.versionAt (height + 1) →
    info.blockWeight ≤
      shortTermConstraint (max blockGrantedFullRewardZone (bc.db.medianBelow height))

/-- If the block that took the chain to version 12 is light, the long-term weights are stored by the
rule since then and the cache fits them. -/
structure Blockchain.Weighed (bc : Blockchain) : Prop where
  kept : bc.longTermCache.Fits bc 0
  stored : bc.CrossedLight → ∀ height, 1 ≤ height → height < bc.db.height →
    hfVersionLongTermBlockWeight ≤ bc.hardfork.heights.versionAt (height + 1) →
    bc.db.StoredByRule height
  fits : bc.CrossedLight → bc.longTermCache.Fits bc bc.db.height

namespace Blockchain

open WeighedChain LongTermCache

variable {bc bc' : Blockchain} {info : BlockInfo}

theorem CrossedLight.of_take (h : bc.CrossedLight)
    (hheights : bc'.hardfork.heights = bc.hardfork.heights)
    (htake : bc'.db.blocks = bc.db.blocks.take bc'.db.height) : bc'.CrossedLight := by
  intro height info hpos hinfo hold hnew
  rw [hheights] at hold hnew
  have hlt : height < bc'.db.height := (List.getElem?_eq_some_iff.mp hinfo).1
  have hsame : bc'.db.blocks.take height = bc.db.blocks.take height := by
    rw [htake, take_take, Nat.min_eq_left hlt.le]
  rw [medianBelow_congr hsame]
  rw [htake, getElem?_take_of_lt hlt] at hinfo
  exact h height info hpos hinfo hold hnew

theorem CrossedLight.congr (h : bc.CrossedLight) (hblocks : bc'.db.blocks = bc.db.blocks)
    (hheights : bc'.hardfork.heights = bc.hardfork.heights) : bc'.CrossedLight :=
  h.of_take hheights (by rw [hblocks, BlockchainDB.height, hblocks, take_length])

theorem Weighed.congr (h : bc.Weighed) (hblocks : bc'.db.blocks = bc.db.blocks)
    (hheights : bc'.hardfork.heights = bc.hardfork.heights)
    (hcache : bc'.longTermCache = bc.longTermCache) : bc'.Weighed := by
  have hheight : bc'.db.height = bc.db.height := congrArg length hblocks
  have hlight : bc'.CrossedLight → bc.CrossedLight := fun hl => hl.congr hblocks.symm hheights.symm
  refine ⟨?_, fun hl height hpos hlt hnew => ?_, fun hl => ?_⟩
  · rw [hcache]
    exact h.kept.of_take hheights le_rfl rfl
  · rw [hheights] at hnew
    exact storedByRule_congr (by rw [hblocks])
      (h.stored (hlight hl) height hpos (hheight ▸ hlt) hnew)
  · rw [hcache, hheight]
    exact (h.fits (hlight hl)).of_take hheights le_rfl (by rw [hblocks])

/-- If the chain has lost only its newest block, the block that took it to version 12 is still
there. -/
theorem CrossedLight.of_cut (h : bc'.CrossedLight) (hcut : Cut bc bc') (hnew : bc'.Weighs) :
    bc.CrossedLight := by
  have hheight := hcut.height
  have hversion : bc'.getCurrentHardForkVersion = bc'.hardfork.heights.versionAt bc'.db.height :=
    hcut.inSync.version
  intro height info hp hinfo hbefore hafter
  have hlt : height < bc.db.height := (List.getElem?_eq_some_iff.mp hinfo).1
  have hne : height ≠ bc'.db.height := by
    rintro rfl
    rw [Weighs, hversion, hcut.heights] at hnew
    exact absurd hbefore (Nat.not_lt.mpr hnew)
  have hget : bc'.db.blocks[height]? = some info := by
    rw [hcut.blocks, dropLast_eq_take, getElem?_take_of_lt, hinfo]
    unfold BlockchainDB.height at *
    omega
  have hcross := h height info hp hget (hcut.heights ▸ hbefore) (hcut.heights ▸ hafter)
  rwa [medianBelow_congr (hcut.take (by omega))] at hcross

/-- A chain is weighed that has the blocks and forks of one for which its cache is sound. -/
theorem weighed_of_sound (hdb : bc'.db = bc.db) (hhf : bc'.hardfork = bc.hardfork)
    (hkept : bc'.longTermCache.Fits bc 0)
    (hsound : bc.CrossedLight → SoundWith bc'.longTermCache bc) : bc'.Weighed := by
  have hframe : ∀ bound, bc'.longTermCache.Fits bc bound → bc'.longTermCache.Fits bc' bound :=
    fun bound hc => hc.of_take (by rw [hhf]) le_rfl (by rw [hdb])
  have hcrossed : bc'.CrossedLight → bc.CrossedLight := fun hl =>
    hl.congr (by rw [hdb]) (by rw [hhf])
  refine ⟨hframe _ hkept, fun hl => ?_, fun hl => ?_⟩
  · rw [hdb, hhf]
    exact (hsound (hcrossed hl)).stored
  · rw [hdb]
    exact hframe _ (hsound (hcrossed hl)).fits

theorem weighed_of_old (hkept : bc.longTermCache.Fits bc 0)
    (hold : bc.hardfork.heights.versionAt bc.db.height < hfVersionLongTermBlockWeight) :
    bc.Weighed := by
  refine ⟨hkept, fun _ height _ hlt hnew => ?_, fun _ => hkept.of_below rfl hold⟩
  have hmono := bc.hardfork.heights.versionAt_mono (Nat.succ_le_of_lt hlt)
  exact absurd (hnew.trans hmono) (Nat.not_le.mpr hold)

section

variable (h : bc.Weighed) (hz : bc.hardfork.heights.NoVoting)
  (hsync : bc.hardfork.InSync bc.db.height) (hpos : 1 ≤ bc.db.height)

include h hz hsync hpos

theorem Weighed.sound (hlight : bc.CrossedLight) : Sound bc :=
  ⟨hz, hsync, hpos, h.stored hlight, h.fits hlight⟩

/-- A stored block: the median is exact when the chain has crossed with a light block, be it this
one. -/
theorem Weighed.add {next : NextWeight} (hcheck : bc.hardfork.check info.bl = true)
    (hnext : bc.getNextLongTermBlockWeight info.blockWeight = some next)
    (hweight : info.longTermBlockWeight = next.longTermBlockWeight) (midBatch : Bool) :
    (bc.addBlockWeighed info midBatch).Weighed ∧
      ((bc.addBlock info).CrossedLight → (bc.addBlock info).Weighs →
        ∃ u, next.cache.updateLongTerm (bc.addBlock info) next.longTermMedian = some u ∧
          UpdateExact (bc.addBlock info) u) := by
  have hext := extends_addBlock hz hsync hcheck
  have hheight := hext.height
  have hversion : bc.getCurrentHardForkVersion = bc.hardfork.heights.versionAt bc.db.height :=
    hsync.version
  have hversion' : (bc.addBlock info).getCurrentHardForkVersion =
      (bc.addBlock info).hardfork.heights.versionAt (bc.addBlock info).db.height :=
    hext.inSync.version
  obtain ⟨hkept, htip⟩ := h.kept.getNext_kept hpos hversion hnext
  have hsound : (bc.addBlock info).CrossedLight →
      ((bc.addBlock info).Weighs →
        ∃ u, next.cache.updateLongTerm (bc.addBlock info) next.longTermMedian = some u ∧
          UpdateExact (bc.addBlock info) u) ∧
      SoundWith (next.cache.updated (bc.addBlock info) next.longTermMedian) (bc.addBlock info) := by
    intro hlight
    have hbelow : bc.CrossedLight := by
      refine hlight.of_take hext.heights.symm ?_
      rw [hext.blocks]
      exact (take_left' rfl).symm
    have hs : Sound bc := h.sound hz hsync hpos hbelow
    obtain ⟨next', hnext', hanswers⟩ := hs.fits.getNext hpos info.blockWeight
    cases hnext'.symm.trans hnext
    have hinfo : info = storedBlock info next := by
      rw [storedBlock, ← hweight]
    refine hs.extended (hinfo ▸ hext) hanswers fun hold hnew => ?_
    have hget : (bc.addBlock info).db.blocks[bc.db.height]? = some info := by
      rw [hext.blocks]
      exact getElem?_concat_length
    have hcross := hlight bc.db.height info hpos hget
      (by rw [hext.heights, ← hversion]; exact Nat.not_le.mp hold)
      (by rw [← hheight, ← hversion']; exact hnew)
    rwa [medianBelow_congr (hext.take le_rfl)] at hcross
  have hcache : (bc.addBlockWeighed info midBatch).longTermCache =
      next.cache.updated (bc.addBlock info) next.longTermMedian := by
    rw [addBlockWeighed, nextLongTermMedian_of_some hnext, updateNextCumulativeWeightLimit_cache]
    exact updated_congr _ rfl rfl _
  have hkept' := (hkept.of_take hext.heights le_rfl rfl).updated_kept (by omega) hversion'
    (htip.imp id fun htop => by omega)
  rw [← hcache] at hkept' hsound
  exact ⟨weighed_of_sound (addBlockWeighed_db _ _ _) (addBlockWeighed_hardfork _ _ _) hkept'
    fun hl => (hsound hl).2, fun hl => (hsound hl).1⟩

theorem Weighed.asked : { bc with longTermCache := bc.nextLongTermMedian.2 }.Weighed := by
  obtain ⟨next, hnext⟩ := getNextLongTermBlockWeight_isSome hpos 0
  rw [nextLongTermMedian_of_some hnext]
  refine ⟨?_, h.stored, fun hl => ?_⟩
  · exact (h.kept.getNext_kept hpos hsync.version hnext).1.of_take rfl le_rfl rfl
  · have hs : Sound bc := h.sound hz hsync hpos hl
    obtain ⟨next', hnext', hanswers⟩ := hs.fits.getNext hpos 0
    cases hnext'.symm.trans hnext
    exact (hs.asked hanswers).fits.of_take rfl le_rfl rfl

/-- Popping a block keeps the chain weighed. -/
theorem Weighed.pop (bc' : Blockchain) (hmore : 1 < bc.db.height) (hdb : bc'.db = bc.popBlock.db)
    (hhf : bc'.hardfork = bc.popBlock.hardfork) (hcache : bc'.longTermCache = bc.longTermCache) :
    (bc'.updateNextCumulativeWeightLimit none false).Weighed ∧
      (bc'.CrossedLight → bc'.Weighs →
        ∃ u, bc'.longTermCache.updateLongTerm bc' none = some u ∧ UpdateExact bc' u) := by
  have hcut : Cut bc bc' := by
    obtain ⟨hblocks, hheights, hinSync⟩ := cut_popBlock hmore
    exact ⟨hdb ▸ hblocks, hhf ▸ hheights, by rw [hdb, hhf]; exact hinSync⟩
  have hheight := hcut.height
  have hversion : bc'.getCurrentHardForkVersion = bc'.hardfork.heights.versionAt bc'.db.height :=
    hcut.inSync.version
  have hkept : bc'.longTermCache.Fits bc' 0 := by
    rw [hcache]
    exact h.kept.of_take hcut.heights le_rfl rfl
  have hkept' := hkept.updated_kept (by omega) hversion (.inl rfl)
  rw [← updateNextCumulativeWeightLimit_cache bc' none false] at hkept'
  have hsound : bc'.CrossedLight → bc'.Weighs → (bc'.Weighs → ∃ u,
      bc'.longTermCache.updateLongTerm bc' none = some u ∧ UpdateExact bc' u) ∧
      SoundWith (bc'.updateNextCumulativeWeightLimit none false).longTermCache bc' := by
    intro hl hnew
    have hs := h.sound hz hsync hpos (hl.of_cut hcut hnew)
    rw [updateNextCumulativeWeightLimit_cache, hcache]
    exact SoundWith.cut hs hcut (by omega)
  refine ⟨?_, fun hl hnew => (hsound hl hnew).1 hnew⟩
  by_cases hnew : bc'.Weighs
  · exact weighed_of_sound (updateNextCumulativeWeightLimit_db _ _ _)
      (updateNextCumulativeWeightLimit_hardfork _ _ _) hkept' fun hl => (hsound hl hnew).2
  · refine weighed_of_old (hkept'.of_take ?_ le_rfl ?_) ?_
    · rw [updateNextCumulativeWeightLimit_hardfork]
    · rw [updateNextCumulativeWeightLimit_db]
    · rw [updateNextCumulativeWeightLimit_db, updateNextCumulativeWeightLimit_hardfork, ← hversion]
      exact Nat.not_le.mp hnew

end

end Blockchain

namespace WeighedChain

def earlyForks : ForkTable where
  forks := [⟨1, 1, 0⟩, ⟨12, 2, 0⟩]
  ne_nil := by simp
  increasing := by decide

def weighing (version blockWeight : ℕ) : BlockInfo where
  bl :=
    { majorVersion := version
      minorVersion := version
      timestamp := 0
      prevId := 0
      nonce := 0
      minerTx :=
        { version := 1, unlockTime := 0, vin := [], vout := [], extra := []
          rctSignatures := ⟨.null, 0, [], [], [], []⟩
          pruned := false }
      txHashes := [] }
  txs := []
  blockWeight := blockWeight
  longTermBlockWeight := blockWeight
  cumulativeDifficulty := 0
  alreadyGeneratedCoins := 0

def earlyChain : Blockchain where
  db := { blocks := [weighing 1 100] }
  hardfork := { heights := earlyForks, currentForkIndex := earlyForks.indexAt 1 }

theorem started_earlyChain : Started earlyChain :=
  ⟨(by decide : ∀ f ∈ earlyForks.forks, f.threshold = 0), rfl, rfl, _, rfl⟩

def lightOps : List WeightOp :=
  [.add (weighing 1 400000) false, .add (weighing 12 500000) true, .pop, .pop,
    .add (weighing 1 300000) false, .refuse 700000, .add (weighing 12 700000) true,
    .restart fun _ => 0, .add (weighing 12 10) false]

theorem run_exact_lightOps :
    Runs.SafeRun step (fun bc op => Valid bc op ∧ Light bc op) earlyChain lightOps ∧
    Runs.SafeRun step Exact earlyChain lightOps :=
  have hsafe : Runs.SafeRun step (fun bc op => Valid bc op ∧ Light bc op) earlyChain lightOps := by
    decide
  ⟨hsafe, run_exact started_earlyChain lightOps hsafe⟩

def heavyOps : List WeightOp := [.add (weighing 1 600000) false, .refuse 500000]

def heavyChain : Blockchain := (step earlyChain (.add (weighing 1 600000) false)).getD earlyChain

theorem step_heavyChain : step earlyChain (.add (weighing 1 600000) false) = some heavyChain := by
  obtain ⟨bc, hbc⟩ := isSome_iff_exists.mp
    (by decide : (step earlyChain (.add (weighing 1 600000) false)).isSome = true)
  rw [heavyChain, hbc, getD_some]

/-- The stored weights are 100 and 600000, and the median of the cache is that of 100 and 420000. -/
theorem heavyOps_not_exact :
    Started earlyChain ∧ Runs.SafeRun step Valid earlyChain heavyOps ∧
    ¬Runs.SafeRun step Exact earlyChain heavyOps := by
  refine ⟨started_earlyChain, by decide, fun hexact => ?_⟩
  have hcached : (heavyChain.getNextLongTermBlockWeight 500000).map (·.longTermMedian) =
      some (some 210050) := by decide
  obtain ⟨-, hrest⟩ := hexact
  obtain ⟨⟨next, hnext, hright⟩, -⟩ := hrest heavyChain step_heavyChain
  rw [hnext, map_some, hright.1] at hcached
  exact absurd hcached (by decide)

end WeighedChain

end Nerva
