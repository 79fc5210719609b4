import Nerva.Reward
import Mathlib.Tactic.Linarith

/-!
# The two medians of the block reward

A template takes its reward at half the weight limit, validation at the median of the last hundred
blocks. With a limit that is up to date the two agree unless the surge factor binds, or the median
is zero while the premine is still to be mined.
-/

namespace Nerva

variable {bc : Blockchain} {coins : UInt64} {m w version : ℕ}

theorem finalSubsidy_le_baseReward (coins : UInt64) : finalSubsidy ≤ baseReward coins := by
  unfold baseReward
  simp only []
  split_ifs with h
  · exact UInt64.le_refl _
  · exact UInt64.not_lt.mp h

theorem penalty_lt (hlt : m < w) (hle : w ≤ 2 * m) : (2 * m - w) * w < m * m := by
  obtain ⟨d, rfl⟩ := Nat.exists_eq_add_of_lt hlt
  obtain ⟨e, rfl⟩ : ∃ e, m = d + 1 + e := ⟨m - (d + 1), by omega⟩
  have hsub : 2 * (d + 1 + e) - (d + 1 + e + d + 1) = e := by omega
  rw [hsub]
  nlinarith

theorem penalisedReward_lt {base : UInt64} (hbase : 0 < base) (hlt : m < w) (hle : w ≤ 2 * m) :
    penalisedReward base m w < base := by
  have hbase' : 0 < base.toNat := by simpa [UInt64.lt_iff_toNat_lt] using hbase
  have hmult : (2 * m - w) * w % UInt64.size < m * m :=
    Nat.lt_of_le_of_lt (Nat.mod_le _ _) (penalty_lt hlt hle)
  have hquot : base.toNat * ((2 * m - w) * w % UInt64.size) / m / m < base.toNat := by
    rw [Nat.div_div_eq_div_mul]
    refine Nat.div_lt_of_lt_mul ?_
    rw [Nat.mul_comm (m * m)]
    exact Nat.mul_lt_mul_of_pos_left hmult hbase'
  unfold penalisedReward
  rw [UInt64.lt_iff_toNat_lt, UInt64.toNat_ofNat_of_lt' (Nat.lt_trans hquot base.toNat_lt_size)]
  exact hquot

/-- While the premine is due it is the reward. -/
theorem getBlockReward_premine (hm : 0 < m) (hcoins : coins < premine) (w version : ℕ) :
    getBlockReward m w coins version = some premine := if_pos ⟨hm, hcoins⟩

/-- The reward otherwise, by the weight of the block. -/
theorem getBlockReward_of_not_due (hdue : ¬(0 < m ∧ coins < premine)) (w version : ℕ) :
    getBlockReward m w coins version =
      if w ≤ max blockGrantedFullRewardZone m then some (baseReward coins)
      else if 2 * max blockGrantedFullRewardZone m < w then none
      else some (penalisedReward (baseReward coins) (max blockGrantedFullRewardZone m) w) := by
  have hmax : (if m < getMinBlockWeight version then getMinBlockWeight version else m) =
      max blockGrantedFullRewardZone m := by
    unfold getMinBlockWeight
    split_ifs <;> omega
  unfold getBlockReward
  rw [if_neg hdue]
  simp only [hmax]

theorem getBlockReward_zero_weight (m : ℕ) (coins : UInt64) (version : ℕ) :
    ∃ reward, getBlockReward m 0 coins version = some reward := by
  by_cases h : 0 < m ∧ coins < premine
  · exact ⟨_, getBlockReward_premine h.1 h.2 0 version⟩
  · refine ⟨baseReward coins, ?_⟩
    unfold getBlockReward
    rw [if_neg h]
    simp

/-- From version 12 on the long-term effective median is at least the full reward zone. -/
def Blockchain.EffectiveMedianOk (bc : Blockchain) : Prop :=
  hfVersionLongTermBlockWeight ≤ bc.getCurrentHardForkVersion →
    blockGrantedFullRewardZone ≤ bc.longTermEffectiveMedianBlockWeight

/-- The median, where the long term one caps it. -/
theorem Blockchain.cumulWeightMedian_eq (hzone : bc.EffectiveMedianOk) :
    bc.cumulWeightMedian =
      if bc.getCurrentHardForkVersion < hfVersionLongTermBlockWeight ∨ bc.db.shortTermMedian ≤
          shortTermBlockWeightSurgeFactor * bc.longTermEffectiveMedianBlockWeight then
        max blockGrantedFullRewardZone bc.db.shortTermMedian
      else shortTermBlockWeightSurgeFactor * bc.longTermEffectiveMedianBlockWeight := by
  have hfactor : shortTermBlockWeightSurgeFactor = 50 := rfl
  unfold Blockchain.EffectiveMedianOk at hzone
  unfold Blockchain.cumulWeightMedian getMinBlockWeight
  simp only [hfactor]
  split_ifs <;> omega

theorem Blockchain.le_cumulWeightMedian (bc : Blockchain) :
    blockGrantedFullRewardZone ≤ bc.cumulWeightMedian := by
  unfold Blockchain.cumulWeightMedian getMinBlockWeight
  simp only []
  split_ifs <;> omega

/-- The limit is the one `update_next_cumulative_weight_limit` makes of the last hundred blocks and
the long-term effective median. -/
def Blockchain.LimitUpToDate (bc : Blockchain) : Prop :=
  bc.currentBlockCumulWeightLimit = bc.cumulWeightMedian * 2 ∧ bc.EffectiveMedianOk

instance (bc : Blockchain) : Decidable bc.LimitUpToDate :=
  inferInstanceAs (Decidable (_ = _ ∧ (_ ≤ _ → _ ≤ _)))

theorem Blockchain.LimitUpToDate.half (h : bc.LimitUpToDate) :
    bc.currentBlockCumulWeightLimit / 2 = bc.cumulWeightMedian := by
  rw [h.1]
  exact Nat.mul_div_cancel _ (by decide)

theorem LongTermCache.medianBelowTop_isSome {c : LongTermCache} (hpos : 0 < bc.db.height)
    (pre : Option ℕ) : ∃ r, c.medianBelowTop bc pre = some r := by
  unfold medianBelowTop
  split_ifs with hone
  · exact ⟨_, rfl⟩
  · cases pre with
    | some longTermMedian => exact ⟨_, rfl⟩
    | none =>
      have hcount : (rangeBelowTop bc.db.height).2 ≠ 0 := by
        have hW : longTermBlockWeightWindowSize = 50000 := rfl
        unfold rangeBelowTop
        simp only []
        split_ifs <;> omega
      unfold getLongTermBlockWeightMedian
      simp only [if_neg hcount]
      split_ifs <;> exact ⟨_, rfl⟩

theorem LongTermCache.updateLongTerm_isSome {c : LongTermCache} (hpos : 0 < bc.db.height)
    (pre : Option ℕ) : ∃ u, c.updateLongTerm bc pre = some u ∧
      blockGrantedFullRewardZone ≤ u.longTermEffectiveMedian := by
  obtain ⟨r, hr⟩ := medianBelowTop_isSome (c := c) hpos pre
  unfold updateLongTerm
  rw [hr]
  simp only [Option.bind_eq_bind, Option.bind_some]
  split_ifs
  · exact ⟨_, rfl, Nat.le_max_left _ _⟩
  · exact ⟨_, rfl, Nat.le_max_left _ _⟩

theorem getNextLongTermBlockWeight_isSome (hpos : 0 < bc.db.height) (blockWeight : ℕ) :
    ∃ next, bc.getNextLongTermBlockWeight blockWeight = some next := by
  unfold Blockchain.getNextLongTermBlockWeight LongTermCache.getNextLongTermBlockWeight
  simp only []
  split_ifs with hold
  · exact ⟨_, rfl⟩
  · have hcount : min longTermBlockWeightWindowSize bc.db.height ≠ 0 := by
      have hW : longTermBlockWeightWindowSize = 50000 := rfl
      omega
    unfold LongTermCache.getLongTermBlockWeightMedian
    simp only [if_neg hcount]
    split_ifs <;> exact ⟨_, rfl⟩

theorem updateNextCumulativeWeightLimit_old (pre : Option ℕ) (midBatch : Bool)
    (hold : bc.getCurrentHardForkVersion < hfVersionLongTermBlockWeight) :
    bc.updateNextCumulativeWeightLimit pre midBatch = bc.setCumulWeightLimit :=
  if_pos hold

theorem updateNextCumulativeWeightLimit_new {pre : Option ℕ} {u : LongTermCache.Updated}
    (midBatch : Bool) (hnew : hfVersionLongTermBlockWeight ≤ bc.getCurrentHardForkVersion)
    (hu : bc.longTermCache.updateLongTerm bc pre = some u) :
    bc.updateNextCumulativeWeightLimit pre midBatch =
      if midBatch then { bc with longTermCache := u.cache
                                 longTermEffectiveMedianBlockWeight := u.longTermEffectiveMedian }
      else { bc with longTermCache := u.cache
                     longTermEffectiveMedianBlockWeight :=
                       u.longTermEffectiveMedian }.setCumulWeightLimit := by
  unfold Blockchain.updateNextCumulativeWeightLimit
  rw [if_neg (Nat.not_lt.mpr hnew), hu]

/-- Only the limit, the two medians and the cache change. -/
theorem updateNextCumulativeWeightLimit_frame (bc : Blockchain) (pre : Option ℕ) (midBatch : Bool) :
    ∃ cache effective median limit, bc.updateNextCumulativeWeightLimit pre midBatch =
      { bc with
        longTermCache := cache
        longTermEffectiveMedianBlockWeight := effective
        currentBlockCumulWeightMedian := median
        currentBlockCumulWeightLimit := limit } := by
  unfold Blockchain.updateNextCumulativeWeightLimit
  split_ifs
  · exact ⟨_, _, _, _, rfl⟩
  · split <;> exact ⟨_, _, _, _, rfl⟩
  · split <;> exact ⟨_, _, _, _, rfl⟩

/-- An update that is not skipped leaves the limit up to date. -/
theorem updateNextCumulativeWeightLimit_upToDate (hpos : 0 < bc.db.height) (pre : Option ℕ) :
    (bc.updateNextCumulativeWeightLimit pre false).LimitUpToDate := by
  by_cases hold : bc.getCurrentHardForkVersion < hfVersionLongTermBlockWeight
  · rw [updateNextCumulativeWeightLimit_old pre false hold]
    exact ⟨rfl, fun hnew => absurd hold (Nat.not_lt.mpr hnew)⟩
  · obtain ⟨u, hu, hzone⟩ := LongTermCache.updateLongTerm_isSome (c := bc.longTermCache) hpos pre
    rw [updateNextCumulativeWeightLimit_new false (Nat.not_lt.mp hold) hu]
    exact ⟨rfl, fun _ => hzone⟩

/-- The reward a block claims at weight `w` is the one validation computes, or is not compared. -/
def Blockchain.AcceptsReward (bc : Blockchain) (w : ℕ) (reward : UInt64) : Prop :=
  ∃ r, getBlockReward bc.db.shortTermMedian w bc.db.generatedCoins bc.getCurrentHardForkVersion =
    some r ∧ (r = reward ∨ bc.db.generatedCoins = 0)

/-- Until the premine is mined the median must not be zero; from then on it must not exceed what
the surge factor allows the limit. -/
def Blockchain.MediansAgree (bc : Blockchain) : Prop :=
  if bc.db.generatedCoins < premine then 0 < bc.db.shortTermMedian
  else bc.getCurrentHardForkVersion < hfVersionLongTermBlockWeight ∨
    bc.db.shortTermMedian ≤
      shortTermBlockWeightSurgeFactor * bc.longTermEffectiveMedianBlockWeight

/-- If the medians agree, the reward of a template is accepted. -/
theorem acceptsReward_of_mediansAgree {reward : UInt64} (hzone : bc.EffectiveMedianOk)
    (h : bc.MediansAgree)
    (hreward : getBlockReward bc.cumulWeightMedian w bc.db.generatedCoins
      bc.getCurrentHardForkVersion = some reward) : bc.AcceptsReward w reward := by
  have hmedian := bc.le_cumulWeightMedian
  have hfull : 0 < blockGrantedFullRewardZone := by decide
  unfold Blockchain.MediansAgree at h
  by_cases hcoins : bc.db.generatedCoins < premine
  · rw [if_pos hcoins] at h
    rw [getBlockReward_premine (by omega) hcoins, Option.some.injEq] at hreward
    exact ⟨premine, getBlockReward_premine h hcoins w _, .inl hreward⟩
  · rw [if_neg hcoins] at h
    have hmax : max blockGrantedFullRewardZone bc.cumulWeightMedian =
        max blockGrantedFullRewardZone bc.db.shortTermMedian := by
      rw [bc.cumulWeightMedian_eq hzone, if_pos h]
      omega
    rw [getBlockReward_of_not_due fun h => hcoins h.2, hmax] at hreward
    exact ⟨reward, by rw [getBlockReward_of_not_due fun h => hcoins h.2]; exact hreward, .inl rfl⟩

/-- Otherwise some weight gets a reward from the limit that validation refuses. -/
theorem exists_not_acceptsReward (hzone : bc.EffectiveMedianOk) (h : ¬bc.MediansAgree) :
    ∃ w reward, getBlockReward bc.cumulWeightMedian w bc.db.generatedCoins
        bc.getCurrentHardForkVersion = some reward ∧ ¬bc.AcceptsReward w reward := by
  have hmedian := bc.le_cumulWeightMedian
  have hfull : 0 < blockGrantedFullRewardZone := by decide
  unfold Blockchain.MediansAgree at h
  by_cases hcoins : bc.db.generatedCoins < premine
  · rw [if_pos hcoins] at h
    have hshort : bc.db.shortTermMedian = 0 := by omega
    refine ⟨2 * blockGrantedFullRewardZone + 1, premine,
      getBlockReward_premine (by omega) hcoins _ _, ?_⟩
    rintro ⟨r, hr, -⟩
    rw [hshort] at hr
    unfold getBlockReward at hr
    simp [getMinBlockWeight, blockGrantedFullRewardZone] at hr
  · rw [if_neg hcoins] at h
    have hmax : max blockGrantedFullRewardZone bc.cumulWeightMedian = bc.cumulWeightMedian := by
      omega
    have hlt : bc.cumulWeightMedian < bc.db.shortTermMedian := by
      rw [bc.cumulWeightMedian_eq hzone, if_neg h]
      omega
    have hbase : 0 < baseReward bc.db.generatedCoins :=
      UInt64.lt_of_lt_of_le (by decide) (finalSubsidy_le_baseReward _)
    have hpenalty := penalisedReward_lt hbase (Nat.lt_succ_self bc.cumulWeightMedian) (by omega)
    refine ⟨bc.cumulWeightMedian + 1,
      penalisedReward (baseReward bc.db.generatedCoins) bc.cumulWeightMedian
        (bc.cumulWeightMedian + 1), ?_, ?_⟩
    · rw [getBlockReward_of_not_due fun h => hcoins h.2, hmax, if_neg (by omega), if_neg (by omega)]
    · rintro ⟨r, hr, heq | hzero⟩
      · rw [getBlockReward_of_not_due fun h => hcoins h.2, if_pos (by omega),
          Option.some.injEq] at hr
        exact UInt64.ne_of_lt hpenalty (heq.symm.trans hr.symm)
      · rw [hzero] at hcoins
        exact hcoins (by decide)

def minedCoins : ℕ → UInt64
  | 0 => baseReward 0
  | 1 => computeGeneratedCoins premine (baseReward 0)
  | n + 2 => computeGeneratedCoins (baseReward (minedCoins (n + 1))) (minedCoins (n + 1))

end Nerva
