import Nerva.Decoys
import Nerva.Proofs.AltDifficulty

/-!
# The output distribution

The range that is asked for is tested before its start is moved up to the fork from which on there
are RingCT outputs, so that it may end before it begins.
-/

namespace Nerva

open List

/-- The amounts that the outputs of a block are stored under, 0 for those of the coinbase. -/
def BlockInfo.storedAmounts (b : BlockInfo) : List UInt64 :=
  b.bl.minerTx.vout.map (fun _ => 0) ++ (b.txs.flatMap (·.vout)).map (·.amount)

namespace BlockchainDB

/-- The ring outputs of the blocks below a height. -/
def rctOutputsBelow (db : BlockchainDB) (height : ℕ) : ℕ :=
  ((db.blocks.take height).flatMap (·.storedAmounts)).count 0

/-- For each block of the range the number of outputs up to it, and the number of those before. -/
structure Counts (db : BlockchainDB) (toHeight : ℕ) (d : OutputDistribution) : Prop where
  start_le : d.startHeight ≤ toHeight
  length : d.distribution.length = toHeight - d.startHeight + 1
  entry : ∀ i n : ℕ, d.distribution[i]? = some n → n = db.rctOutputsBelow (d.startHeight + i + 1)
  base : d.base = db.rctOutputsBelow d.startHeight

variable {db : BlockchainDB} {start toHeight : ℕ}

theorem count_storedAmounts (b : BlockInfo) : b.storedAmounts.count 0 = b.numRctOuts := by
  rw [BlockInfo.storedAmounts, count_append, map_const', count_replicate_self,
    count, countP_map]
  rfl

theorem rctOutputsBelow_succ (h : ℕ) : db.rctOutputsBelow (h + 1) =
    db.rctOutputsBelow h + (db.blocks[h]?.map (·.numRctOuts)).getD 0 := by
  unfold rctOutputsBelow
  rw [take_add_one, flatMap_append]
  cases db.blocks[h]? <;> simp [count_storedAmounts]

/-- The running count that is stored. -/
theorem cumRct_eq (h : ℕ) : db.cumRct h = db.rctOutputsBelow (h + 1) := by
  induction h with
  | zero =>
    rw [rctOutputsBelow_succ, cumRct, rctOutputsBelow, take_zero, flatMap_nil, count_nil,
      Nat.zero_add]
  | succ h ih => rw [rctOutputsBelow_succ, cumRct, ih, Nat.add_comm]

theorem distributionFrom_eq (hto : toHeight < db.height) :
    db.distributionFrom start toHeight =
      if db.height ≤ start then .refused
      else if toHeight + 1 < start then .lengthError
      else .found ⟨start, (range' start (toHeight + 1 - start)).map db.cumRct,
        db.rctOutputsBelow start⟩ := by
  have hrefuse :
      (db.height = 0 ∨ db.height ≤ start ∨ db.height ≤ toHeight) ↔ db.height ≤ start := by
    omega
  unfold distributionFrom
  simp only [hrefuse]
  refine if_congr Iff.rfl rfl (ite_congr rfl (fun _ => rfl) fun hshort => ?_)
  cases start with
  | zero => rfl
  | succ start =>
    have hcons : toHeight + 1 - start = toHeight + 1 - (start + 1) + 1 := by omega
    simp only [Nat.succ_pos, if_true, Nat.add_sub_cancel, hcons, range'_succ, map_cons, tail_cons,
      headD_cons, cumRct_eq]

theorem counts_iff : Counts db toHeight
    ⟨start, (range' start (toHeight + 1 - start)).map db.cumRct, db.rctOutputsBelow start⟩ ↔
      start ≤ toHeight := by
  refine ⟨fun h => h.start_le, fun hle => ⟨hle, ?_, fun i n hi => ?_, rfl⟩⟩
  · rw [length_map, length_range', Nat.sub_add_comm hle]
  · simp only [getElem?_map, Option.map_eq_some_iff] at hi
    obtain ⟨h, hh, rfl⟩ := hi
    obtain ⟨hi, rfl⟩ := List.getElem?_eq_some_iff.1 hh
    rw [getElem_range', Nat.one_mul, cumRct_eq]

/-- The fork must not lie between the end of the range and the top of the chain. -/
theorem getOutputDistribution_counts_iff {nettype : NetworkType} {fromHeight : ℕ}
    (hle : fromHeight ≤ toHeight) (hto : toHeight < db.height) :
    (db.getOutputDistribution nettype fromHeight toHeight = .refused ∨
      ∃ d, db.getOutputDistribution nettype fromHeight toHeight = .found d ∧ Counts db toHeight d) ↔
      ∀ fork, nettype.rctStart = some fork → fork ≤ toHeight ∨ db.height ≤ fork := by
  unfold getOutputDistribution
  cases nettype.rctStart with
  | none => exact iff_of_true (.inl rfl) (by simp)
  | some fork =>
    have hrange : ¬(0 < toHeight ∧ toHeight < fromHeight) := by omega
    simp only [distributionFrom_eq hto, Option.some.injEq, forall_eq']
    split_ifs with hrefused hshort
    · exact iff_of_true (.inl rfl) (by omega)
    · exact iff_of_false (by simp) (by omega)
    · simp only [false_or, DistributionResult.found.injEq, exists_eq_left', counts_iff]
      omega

def sixBlocks : BlockchainDB where
  blocks := replicate 6 (timedBlock 0 1)

theorem getOutputDistribution_counts_sixBlocks :
    sixBlocks.getOutputDistribution .mainnet 1 5 = .refused ∨
      ∃ d, sixBlocks.getOutputDistribution .mainnet 1 5 = .found d ∧ Counts sixBlocks 5 d := by
  refine (getOutputDistribution_counts_iff (by decide) (by decide)).2 ?_
  rintro _ ⟨⟩
  exact .inl (by decide)

/-- The fork is at height 4. -/
theorem getOutputDistribution_throws :
    ¬(sixBlocks.getOutputDistribution .mainnet 1 2 = .refused ∨
      ∃ d, sixBlocks.getOutputDistribution .mainnet 1 2 = .found d ∧ Counts sixBlocks 2 d) := by
  have hthrows : sixBlocks.getOutputDistribution .mainnet 1 2 = .lengthError := rfl
  simp [hthrows]

end BlockchainDB

end Nerva
