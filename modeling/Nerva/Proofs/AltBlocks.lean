import Nerva.Proofs.Reorg

/-!
# What a kept alternative block has passed

The blocks below it, its height, its cumulative difficulty and the coins mined by then, as
`handle_alternative_block` puts them together before the block is stored.
-/

namespace Nerva

open Checks List BlockchainDB

section Candidates

variable {ce : ChainEnv} {bc : Blockchain} {pool : TxPool} {b : Block} {c : AltCandidate}
  {below : List AltBlock} {timestamps : List UInt64}

theorem buildAltChain_below {env : Env} {prevId : Hash}
    (h : buildAltChain env bc prevId = some (below, timestamps)) :
    below = bc.db.walkAltBlocks bc.db.altBlocks.length prevId := by
  unfold buildAltChain at h
  simp only [] at h
  split at h
  · split at h
    · cases h
    · split at h
      · cases h
      · split at h
        · exact (congrArg Prod.fst (Option.some.inj h)).symm
        · cases h
  · rename_i hnil
    obtain ⟨parent, -, heq⟩ := Option.map_eq_some_iff.mp h
    have hbelow : [] = below := congrArg Prod.fst heq
    rw [← hbelow]
    exact (head?_eq_none_iff.mp hnil).symm

/-- What a block has that is kept as an alternative one. -/
theorem checkAlternativeBlock_some (h : bc.checkAlternativeBlock ce pool b = .ok (some c)) :
    c.below = bc.db.walkAltBlocks bc.db.altBlocks.length b.prevId ∧ c.bei.bl = b ∧
    ((bc.db.getAltBlock b.prevId).isSome = true ∨
      (bc.db.getBlockHeight ce.toEnv b.prevId).isSome = true) ∧
    c.bei.height = (bc.altParent ce.toEnv c.below b.prevId).1 + 1 ∧
    c.bei.cumulativeDifficulty = (bc.altParent ce.toEnv c.below b.prevId).2.1 +
      (getNextDifficultyForAlternativeChain ce.fns bc c.below c.bei.height).toNat ∧
    c.isACheckpoint = (ce.checkpoints.lookup c.bei.height).isSome ∧
    bc.db.getAltBlock (ce.blockHash b) = none ∧
    c.bei.alreadyGeneratedCoins =
      computeGeneratedCoins b.minerTx.moneyOut (bc.altParent ce.toEnv c.below b.prevId).2.2 ∧
    ∃ timestamps diffic, bc.checkAltWork ce c.below timestamps b c.bei.height = .ok diffic := by
  unfold Blockchain.checkAlternativeBlock at h
  rw [bind_eq_ok, exists_unit] at h
  obtain ⟨-, h⟩ := h
  split at h
  · cases h
  · rename_i hparent
    rw [Bool.and_eq_true, not_and_or] at hparent
    have hknown : (bc.db.getAltBlock b.prevId).isSome = true ∨
        (bc.db.getBlockHeight ce.toEnv b.prevId).isSome = true := by
      refine hparent.imp ?_ ?_
      · exact fun hn => by simpa [Option.isSome_iff_ne_none] using hn
      · exact fun hn => by simpa [Option.isSome_iff_ne_none] using hn
    split at h
    · cases h
    · rename_i below timestamps hbuild
      obtain ⟨diffic, hwork, h⟩ := bind_eq_ok.mp h
      rw [bind_eq_ok, exists_unit, require_eq_ok] at h
      obtain ⟨hnew, heq⟩ := h
      cases heq
      have hwork' := hwork
      simp only [Blockchain.checkAltWork, bind_eq_ok, exists_unit, pure_eq_ok]
        at hwork'
      refine ⟨buildAltChain_below hbuild, rfl, hknown, rfl, ?_, rfl,
        Option.isNone_iff_eq_none.mp hnew, ?_, timestamps, diffic, hwork⟩
      · exact congrArg (_ + UInt64.toNat ·) hwork'.2.2.2.2.2.2.2.symm
      · dsimp only [Blockchain.altParent]

end Candidates

end Nerva
