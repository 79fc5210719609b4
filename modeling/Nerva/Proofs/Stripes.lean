import Mathlib.Order.Bounds.Basic
import Nerva.Proofs.FullBlocks

/-!
# From stripe to stripe

The heights that a node keeps come in stripes, and at the tip it keeps all. Where the next kept
height lies, or the next one that was dropped, is computed from the stripe; it is the least height
for which `has_unpruned_block` says so.
-/

namespace Nerva

open Checks PeerContext

variable {seed : UInt32} {h n : ℕ}

/-- The least height that is not kept or, when all are, one from the start of the tip window on. -/
def IsNextPruned (h n : ℕ) (seed : UInt32) (next : ℕ) : Prop :=
  IsLeast {k | h ≤ k ∧ hasUnprunedBlock k n seed = false} next ∨
    (∀ k, h ≤ k → hasUnprunedBlock k n seed = true) ∧ n ≤ next + cryptonotePruningTipBlocks

/-- The next height at which a block is kept whole. -/
theorem getNextUnprunedBlockHeight_isLeast (hseed : ValidSeed seed)
    (hh : h ≤ cryptonoteMaxBlockNumber + 1) (hn : n ≤ cryptonoteMaxBlockNumber + 1) :
    IsLeast {k | h ≤ k ∧ hasUnprunedBlock k n seed = true}
      (getNextUnprunedBlockHeight h n seed) := by
  have hmax : ¬(cryptonoteMaxBlockNumber + 1 < h ∨ cryptonoteMaxBlockNumber + 1 < n) := by omega
  have htip : cryptonotePruningTipBlocks = 5500 := rfl
  have hsize : cryptonotePruningStripeSize = 4096 := rfl
  have hthree : cryptonotePruningLogStripes = 3 := rfl
  unfold getNextUnprunedBlockHeight
  simp only [hasUnprunedBlock_valid_iff hseed]
  rw [if_neg hmax]
  rcases hseed with rfl | ⟨hlog, hle⟩
  · exact ⟨⟨Nat.le_refl h, .inr (.inl rfl)⟩, fun k hk => hk.1⟩
  simp only [hlog, hsize, hthree] at hle ⊢
  constructor
  · rw [Set.mem_ofPred_eq]
    split_ifs <;> omega
  · rintro k ⟨hk, hkeeps⟩
    split_ifs <;> omega

theorem getNextPrunedBlockHeight_eq_ok (hseed : ValidSeed seed)
    (hh : h ≤ cryptonoteMaxBlockNumber + 1) (hn : n ≤ cryptonoteMaxBlockNumber + 1) :
    ∃ next, getNextPrunedBlockHeight h n seed = .ok next ∧ IsNextPruned h n seed next := by
  have htip : cryptonotePruningTipBlocks = 5500 := rfl
  have hsize : cryptonotePruningStripeSize = 4096 := rfl
  have hthree : cryptonotePruningLogStripes = 3 := rfl
  simp only [IsNextPruned, ← Bool.not_eq_true, hasUnprunedBlock_valid_iff hseed]
  unfold getNextPrunedBlockHeight
  by_cases hall : getPruningStripe seed = 0 ∨ n ≤ h + cryptonotePruningTipBlocks
  · refine ⟨n, if_pos hall, .inr ⟨fun k hk => ?_, Nat.le_add_right _ _⟩⟩
    omega
  obtain ⟨hlog, hle⟩ := hseed.resolve_left fun hzero => hall (.inl (hzero ▸ rfl))
  rw [if_neg hall]
  simp only [hlog, hsize, hthree, ite_self, Nat.reducePow] at hle hall ⊢
  by_cases hstripe : h / 4096 % 8 + 1 = getPruningStripe seed
  · obtain ⟨seed', hmake⟩ :
        ∃ seed', makePruningSeed (1 + getPruningStripe seed % 8) 3 = .ok seed' := by
      simp only [makePruningSeed, bind_eq_ok, require_eq_ok, exists_unit]
      exact ⟨_, by decide, by omega, rfl⟩
    obtain ⟨hstripe', hlog'⟩ := makePruningSeed_ok hmake
    have hseed' : ValidSeed seed' := .inr ⟨hlog', by rw [hthree]; omega⟩
    obtain ⟨⟨hge, hkeeps⟩, hleast⟩ := getNextUnprunedBlockHeight_isLeast hseed' hh hn
    simp only [hasUnprunedBlock_valid_iff hseed'] at hkeeps hleast
    -- the next stripe begins with this block
    have hnext := @hleast ((h / 4096 + 1) * 4096) ⟨by omega, by omega⟩
    rw [if_neg (not_not_intro hstripe), hstripe, hmake]
    refine ⟨_, rfl, ?_⟩
    generalize getNextUnprunedBlockHeight h n seed' = next at *
    by_cases hend : n ≤ next + 5500
    · refine .inr ⟨fun k hk => ?_, hend⟩
      omega
    · refine .inl ⟨⟨hge, ?_⟩, fun k hk => ?_⟩
      · omega
      · rw [Set.mem_ofPred_eq] at hk
        omega
  · refine ⟨h, if_pos hstripe, .inl ⟨⟨Nat.le_refl h, ?_⟩, fun k hk => hk.1⟩⟩
    omega

/-- The two functions that look for the next height a node has, or has not, are exact. -/
theorem nextBlockHeights_exact (hseed : ValidSeed seed)
    (hh : h ≤ cryptonoteMaxBlockNumber + 1) (hn : n ≤ cryptonoteMaxBlockNumber + 1) :
    IsLeast {k | h ≤ k ∧ hasUnprunedBlock k n seed = true} (getNextUnprunedBlockHeight h n seed) ∧
      ∃ next, getNextPrunedBlockHeight h n seed = .ok next ∧ IsNextPruned h n seed next :=
  ⟨getNextUnprunedBlockHeight_isLeast hseed hh hn, getNextPrunedBlockHeight_eq_ok hseed hh hn⟩

theorem nextBlockHeights_exact_second :
    IsLeast {k | 5 ≤ k ∧ hasUnprunedBlock k 9000 385 = true}
        (getNextUnprunedBlockHeight 5 9000 385) ∧
      ∃ next, getNextPrunedBlockHeight 5 9000 385 = .ok next ∧ IsNextPruned 5 9000 385 next :=
  nextBlockHeights_exact (.inr ⟨by decide, by decide⟩) (by decide) (by decide)

/-- A block below the tip window is kept by the pruned nodes of one stripe, and by no others. -/
theorem existsUnique_stripe {k : ℕ} (hk : k + cryptonotePruningTipBlocks < n) :
    ∃! stripe, ∃ seed, makePruningSeed stripe cryptonotePruningLogStripes = .ok seed ∧
      hasUnprunedBlock k n seed = true := by
  have htip : cryptonotePruningTipBlocks = 5500 := rfl
  have hkeeps : ∀ {stripe seed}, makePruningSeed stripe cryptonotePruningLogStripes = .ok seed →
      (hasUnprunedBlock k n seed = true ↔ stripe = k / 4096 % 8 + 1) := by
    intro stripe seed hmake
    obtain ⟨hstripe, hlog⟩ := makePruningSeed_ok hmake
    simp only [makePruningSeed, bind_eq_ok, require_eq_ok, exists_unit] at hmake
    obtain ⟨-, ⟨hpos, hle⟩, -⟩ := hmake
    rw [hasUnprunedBlock_valid_iff (.inr ⟨hlog, by rw [hstripe]; exact hle⟩), hstripe]
    omega
  obtain ⟨seed, hmake⟩ :
      ∃ seed, makePruningSeed (k / 4096 % 8 + 1) cryptonotePruningLogStripes = .ok seed := by
    simp only [makePruningSeed, bind_eq_ok, require_eq_ok, exists_unit]
    exact ⟨_, by decide, ⟨by omega, Nat.mod_lt _ (by decide)⟩, rfl⟩
  refine ⟨_, ⟨seed, hmake, (hkeeps hmake).mpr rfl⟩, ?_⟩
  rintro stripe ⟨seed', hmake', hhas⟩
  exact (hkeeps hmake').mp hhas

theorem existsUnique_stripe_second :
    ∃! stripe, ∃ seed, makePruningSeed stripe cryptonotePruningLogStripes = .ok seed ∧
      hasUnprunedBlock 5000 20000 seed = true :=
  existsUnique_stripe (by decide)

end Nerva
